import Tans.Proofs.Reader
import Tans.Proofs.Writing

/-!
# Fields in a row

Fields stand in a stream one after the other, with no regard to bytes: a field starts at any bit and
crosses as many byte boundaries as it is wide. Reading the widths in the order in which they were
written gives the values back, less the bits that were too high to be written. What stands before and
behind the fields does not matter, and nor does it matter if the stream was stored as bytes.

* `Bits.readWidths_eq_ok_iff`: the widths of fields are read where the fields are.
* `Bits.readWidths_ofFields`: what is read of fields that were written.
-/

namespace Tans.Bits

/-! ### Writing -/

/-- A field without the bits of its value that are not written. -/
def Field.masked (f : Field) : Field := ⟨f.value % 2 ^ f.width, f.width⟩

/-- Masking a field is writing it, as only the low bits of its value count. -/
theorem Field.bits_masked (f : Field) : f.masked.bits = f.bits :=
  ofNat_congr fun i (hi : i < f.width) => by simp [masked, Nat.testBit_mod_two_pow, hi]

/-- Masking all fields is writing them, too. -/
theorem ofFields_masked (fields : List Field) :
    ofFields (fields.map Field.masked) = ofFields fields := by
  rw [ofFields, ofFields, List.flatMap_map]
  simp only [Field.bits_masked]

/-- Fields take up as many bits as their widths say. -/
theorem length_ofFields (fields : List Field) :
    (ofFields fields).length = (fields.map Field.width).sum := by
  induction fields with
  | nil => rfl
  | cons f fields ih =>
    rw [ofFields] at ih ⊢
    simp [Field.bits, ih]

/-! ### Reading -/

variable {c c' : Cursor Bool}

/-- Widths are read one by one, and give one value each. -/
theorem readWidths_cons_eq_ok_iff {width value : Nat} {widths values : List Nat} :
    readWidths (width :: widths) c = .ok (value :: values) c' ↔
      ∃ c₁, read width c = .ok value c₁ ∧ readWidths widths c₁ = .ok values c' := by
  rw [readWidths, EStateM.mapM_cons_eq_ok_iff]
  constructor
  · intro h
    obtain ⟨_, c₁, _, hread, hrest, hvalues⟩ := h
    obtain ⟨rfl, rfl⟩ := List.cons_eq_cons.1 hvalues
    exact ⟨c₁, hread, hrest⟩
  · intro h
    obtain ⟨c₁, hread, hrest⟩ := h
    exact ⟨value, c₁, values, hread, hrest, rfl⟩

/-- The widths of some fields give their values where just these fields stand. -/
theorem readWidths_eq_ok_iff {fields : List Field} :
    readWidths (fields.map Field.width) c = .ok (fields.map Field.value) c' ↔
      (∀ f ∈ fields, f.value < 2 ^ f.width) ∧ c.Moved (ofFields fields) c' := by
  induction fields generalizing c with
  | nil =>
    show EStateM.Result.ok [] c = .ok [] c' ↔ _
    simp [ofFields, Cursor.moved_nil_iff, eq_comm]
  | cons f fields ih =>
    rw [List.map_cons, List.map_cons, readWidths_cons_eq_ok_iff, List.forall_mem_cons, ofFields,
      List.flatMap_cons, Cursor.moved_append_iff]
    simp only [ih, read_eq_ok_iff_moved]
    -- Both sides name the cursor between the first field and the others.
    constructor
    · intro h
      obtain ⟨c₁, ⟨hlt, hf⟩, hfields, hrest⟩ := h
      exact ⟨⟨hlt, hfields⟩, c₁, hf, hrest⟩
    · intro h
      obtain ⟨⟨hlt, hfields⟩, c₁, hf, hrest⟩ := h
      exact ⟨c₁, ⟨hlt, hf⟩, hfields, hrest⟩

/-- Wherever fields stand, reading their widths gives what was written of their values. -/
theorem readWidths_of_moved {fields : List Field} (h : c.Moved (ofFields fields) c') :
    readWidths (fields.map Field.width) c =
      .ok (fields.map fun f => f.value % 2 ^ f.width) c' := by
  rw [← ofFields_masked] at h
  have hmasked : ∀ f ∈ fields.map Field.masked, f.value < 2 ^ f.width := by
    intro f hf
    obtain ⟨f, -, rfl⟩ := List.mem_map.1 hf
    exact Nat.mod_lt _ (Nat.two_pow_pos _)
  -- The values that are read are the masked ones.
  have hread := readWidths_eq_ok_iff.2 ⟨hmasked, h⟩
  rwa [List.map_map, List.map_map] at hread

/-- The cursor behind what precedes the fields moves over them. -/
theorem moved_ofList (pre bits suf : Bits) :
    (Cursor.ofList (pre ++ bits ++ suf) pre.length).Moved bits ⟨suf, pre.length + bits.length⟩ := by
  refine ⟨?_, rfl⟩
  show (pre ++ bits ++ suf).drop pre.length = bits ++ suf
  rw [List.append_assoc, List.drop_left]

/-- Bits that were stored as bytes are there with zeros behind them. -/
theorem exists_ofBytes_toBytes_eq (bits : Bits) :
    ∃ zeros, ofBytes (toBytes bits) = bits ++ zeros := by
  refine ⟨(ofBytes (toBytes bits)).drop bits.length, ?_⟩
  conv_lhs => rw [← List.take_append_drop bits.length (ofBytes (toBytes bits))]
  rw [take_ofBytes_toBytes]

/-- Fields read back as they were written, less the bits above their widths, wherever they stand in a
stream. They take up the sum of their widths, and the reader ends just behind them. The same numbers
are read if the stream was stored as bytes and its last byte filled up. -/
theorem readWidths_ofFields (fields : List Field) (pre suf : Bits) :
    (ofFields fields).length = (fields.map Field.width).sum ∧
    (Writer.writeAll {} fields).vector.bits = ofFields fields ∧
    readWidths (fields.map Field.width)
        (Cursor.ofList (pre ++ ofFields fields ++ suf) pre.length) =
      .ok (fields.map fun f => f.value % 2 ^ f.width)
        ⟨suf, pre.length + (fields.map Field.width).sum⟩ ∧
    (∃ zeros, readWidths (fields.map Field.width)
        (Cursor.ofList (ofBytes (toBytes (pre ++ ofFields fields ++ suf))) pre.length) =
      .ok (fields.map fun f => f.value % 2 ^ f.width)
        ⟨suf ++ zeros, pre.length + (fields.map Field.width).sum⟩) ∧
    ∀ r : Reader, r.bits = pre ++ ofFields fields ++ suf → r.pos.toNat = pre.length →
      ∃ r', Reader.readWidths (fields.map Field.width) r =
          .ok (fields.map fun f => f.value % 2 ^ f.width) r' ∧
        r'.bits = r.bits ∧ r'.pos.toNat = pre.length + (fields.map Field.width).sum := by
  -- Zeros are all that storing adds.
  obtain ⟨zeros, hzeros⟩ := exists_ofBytes_toBytes_eq (pre ++ ofFields fields ++ suf)
  have hread : readWidths (fields.map Field.width)
      (Cursor.ofList (pre ++ ofFields fields ++ suf) pre.length) =
        .ok (fields.map fun f => f.value % 2 ^ f.width)
          ⟨suf, pre.length + (fields.map Field.width).sum⟩ := by
    rw [← length_ofFields]
    exact readWidths_of_moved (moved_ofList pre _ suf)
  refine ⟨length_ofFields fields, Writer.bits_writeAll {} fields, hread, ⟨zeros, ?_⟩,
    fun r hbits hpos => ?_⟩
  · rw [hzeros, List.append_assoc _ suf zeros, ← length_ofFields]
    exact readWidths_of_moved (moved_ofList pre _ (suf ++ zeros))
  -- A reader at this position reads what the cursor does.
  · rw [← hbits, ← hpos] at hread
    obtain ⟨r', hread', hc⟩ := Reader.exists_readWidths_of_cursor hread
    have hpos' : r'.pos.toNat = _ := (Cursor.mk.inj hc).2
    exact ⟨r', hread', (Reader.readWidths_cursor hread').2, by rw [hpos', hpos]⟩

/-- Widths zero and 32, a value that is too large, and a field over three bytes, behind three bits. -/
theorem readWidths_ofFields_four :
    (Writer.writeAll {} [⟨7, 0⟩, ⟨0xF5, 4⟩, ⟨0xFFFFFFFF, 32⟩, ⟨0x1234, 13⟩]).vector.bits =
      ofNat 49 0xBFFFFFFFF234 ∧
    readWidths [0, 4, 32, 13]
        (Cursor.ofList ([true, false, true] ++ ofNat 49 0xBFFFFFFFF234 ++ [true]) 3) =
      .ok [0, 5, 0xFFFFFFFF, 0x1234] ⟨[true], 52⟩ ∧
    ∃ r', Reader.readWidths [0, 4, 32, 13]
        ⟨[true, false, true] ++ ofNat 49 0xBFFFFFFFF234 ++ [true], 3, by decide⟩ =
      .ok [0, 5, 0xFFFFFFFF, 0x1234] r' ∧ r'.pos.toNat = 52 := by
  obtain ⟨-, hwritten, hread, -, hreader⟩ :=
    readWidths_ofFields [⟨7, 0⟩, ⟨0xF5, 4⟩, ⟨0xFFFFFFFF, 32⟩, ⟨0x1234, 13⟩] [true, false, true] [true]
  obtain ⟨r', hread', -, hpos⟩ := hreader
    ⟨[true, false, true] ++ ofNat 49 0xBFFFFFFFF234 ++ [true], 3, by decide⟩ (by decide) (by decide)
  exact ⟨hwritten.trans (by decide), hread, r', hread', hpos⟩

end Tans.Bits
