import Tans.Frame.Segment
import Tans.LittleEndian.Lemmas
import Tans.Proofs.Histogram
import Tans.Proofs.Packing
import Tans.Proofs.Stream

/-!
# Segments and their bytes

Reading a segment and writing it undo each other, on the segments whose numbers fit their fields.
What coding makes is such a segment, and it stands for the bytes that were coded.

* `Segment.read_eq_ok_iff`: a segment is read exactly from where it was written.
* `Segment.decode_of_ofBytes`: a coded stretch of bytes is decoded again.
-/

namespace Tans

/-- A number that is stored in `n` bytes is below `256 ^ n`. -/
theorem LittleEndian.toNat_lt (bytes : List UInt8) : toNat bytes < 256 ^ bytes.length := by
  rw [← ofNat_toNat bytes, toNat_ofNat, length_ofNat]
  exact Nat.mod_lt _ (Nat.pow_pos (by decide))

namespace Segment

open LittleEndian

variable {c c' : Cursor UInt8}

/-! ### Fields -/

/-- Taking `n` bytes moves the cursor over them. -/
theorem takeBytes_eq_ok_iff {n : Nat} {bytes : List UInt8} :
    takeBytes n c = .ok bytes c' ↔ bytes.length = n ∧ c.Moved bytes c' :=
  Cursor.take_eq_ok_iff_moved

/-- A number is read where it was written, and only one that fits is read. -/
theorem readNat_eq_ok_iff {size value : Nat} :
    readNat size c = .ok value c' ↔ value < 256 ^ size ∧ c.Moved (ofNat size value) c' := by
  apply Cursor.map_take_eq_ok_iff
  · intro bytes hlen
    subst hlen
    exact ⟨toNat_lt bytes, ofNat_toNat bytes⟩
  · intro value hlt
    rw [toNat_ofNat, Nat.mod_eq_of_lt hlt]
    exact ⟨length_ofNat size value, rfl⟩

/-- The stored form of counts. -/
def countBytes (counts : List UInt32) : List UInt8 :=
  counts.flatMap fun count => ofNat 4 count.toNat

/-- Counts are read behind those that were read before, where they were written. -/
theorem readCounts_eq_ok_iff {n : Nat} {counts counts' : Array UInt32} :
    readCounts n counts c = .ok counts' c' ↔
      ∃ more, more.length = n ∧ counts'.toList = counts.toList ++ more ∧
        c.Moved (countBytes more) c' := by
  -- Each count moves the cursor and extends the array, so the induction is for all of both.
  induction n generalizing counts c with
  | zero =>
    constructor
    · intro h
      cases h
      exact ⟨[], rfl, (List.append_nil _).symm, Cursor.moved_nil_iff.2 rfl⟩
    · intro h
      obtain ⟨more, hlen, hcounts, hmoved⟩ := h
      obtain rfl := List.length_eq_zero_iff.1 hlen
      rw [List.append_nil, Array.toList_inj] at hcounts
      rw [hcounts, Cursor.moved_nil_iff.1 hmoved]
      rfl
  | succ n ih =>
    unfold readCounts
    rw [EStateM.bind_eq_ok_iff]
    constructor
    · intro h
      obtain ⟨count, c₁, hcount, h⟩ := h
      obtain ⟨hlt, hmoved⟩ := readNat_eq_ok_iff.1 hcount
      obtain ⟨more, hlen, hcounts, hmore⟩ := ih.1 h
      -- Four bytes show no more than a counter holds.
      have hvalue : (UInt32.ofNat count).toNat = count := UInt32.toNat_ofNat_of_lt' hlt
      refine ⟨UInt32.ofNat count :: more, by rw [List.length_cons, hlen], ?_, ?_⟩
      · rw [hcounts, Array.toList_push, List.append_assoc, List.singleton_append]
      · rw [← hvalue] at hmoved
        exact hmoved.append hmore
    · intro h
      obtain ⟨more, hlen, hcounts, hmoved⟩ := h
      cases more with
      | nil => simp at hlen
      | cons count more =>
        obtain ⟨c₁, hcount, hmore⟩ := Cursor.moved_append_iff.1 hmoved
        refine ⟨count.toNat, c₁, readNat_eq_ok_iff.2 ⟨count.toNat_lt, hcount⟩,
          -- The first count is pushed before the others are read.
          ih.2 ⟨more, Nat.succ.inj hlen, ?_, hmore⟩⟩
        rw [hcounts, Array.toList_push, UInt32.ofNat_toNat, List.append_assoc,
          List.singleton_append]

/-- The limit leaves room for `length` bytes after `produced` bytes. -/
def Allows (limit : Option Nat) (produced length : Nat) : Prop :=
  ∀ l ∈ limit, length ≤ l - produced

/-- The check of the limit reads nothing, and passes what the limit allows. -/
theorem reserve_eq_ok_iff {limit : Option Nat} {produced length : Nat} {u : Unit} :
    reserve limit produced length c = .ok u c' ↔ Allows limit produced length ∧ c' = c := by
  unfold reserve Allows
  cases limit with
  | none =>
    constructor
    · intro h
      cases h
      exact ⟨fun l hl => (nomatch hl), rfl⟩
    · intro h
      rw [h.2]
      rfl
  | some l =>
    -- With a limit, the test is on what it leaves.
    simp only [Option.mem_some_iff, forall_eq']
    by_cases hlt : l - produced < length
    · rw [if_pos hlt]
      constructor
      · intro h
        exact nomatch h
      · intro h
        exact absurd h.1 (Nat.not_le.2 hlt)
    · rw [if_neg hlt]
      constructor
      · intro h
        cases h
        exact ⟨Nat.le_of_not_lt hlt, rfl⟩
      · intro h
        rw [h.2]
        rfl

/-! ### Segments -/

/-- The numbers of a segment fit the fields of its header, and its payload is as long as the header
says. -/
structure Storable (s : Segment) : Prop where
  length_lt : s.length < 256 ^ 4
  bitCount_lt : s.bitCount < 256 ^ 4
  tableLog_lt : s.tableLog < 256
  alphabetSize_le : s.histogram.alphabetSize ≤ 256
  length_payload : s.payload.length = Bits.byteCount s.bitCount

/-- A segment is read exactly from where it was written, if the limit allows its length. -/
theorem read_eq_ok_iff {limit : Option Nat} {produced : Nat} {s : Segment} :
    read limit produced c = .ok s c' ↔
      s.Storable ∧ Allows limit produced s.length ∧ c.Moved s.toBytes c' := by
  unfold read
  constructor
  -- A segment that was read is taken apart field by field, as `read` goes on.
  · intro h
    obtain ⟨length, c₁, hlength, h⟩ := EStateM.bind_eq_ok_iff.1 h
    obtain ⟨_, c₁', hreserve, h⟩ := EStateM.bind_eq_ok_iff.1 h
    obtain ⟨hallows, hc₁'⟩ := reserve_eq_ok_iff.1 hreserve
    rw [hc₁'] at h
    obtain ⟨bitCount, c₂, hbitCount, h⟩ := EStateM.bind_eq_ok_iff.1 h
    obtain ⟨tableLog, c₃, htableLog, h⟩ := EStateM.bind_eq_ok_iff.1 h
    obtain ⟨alphabetSize, c₄, halphabetSize, h⟩ := EStateM.bind_eq_ok_iff.1 h
    by_cases hlt : 256 < alphabetSize
    · rw [if_pos hlt] at h
      exact nomatch h
    · rw [if_neg hlt] at h
      obtain ⟨counts, c₅, hcounts, h⟩ := EStateM.bind_eq_ok_iff.1 h
      obtain ⟨payload, c₆, hpayload, h⟩ := EStateM.bind_eq_ok_iff.1 h
      cases h
      obtain ⟨hlt₁, hmoved₁⟩ := readNat_eq_ok_iff.1 hlength
      obtain ⟨hlt₂, hmoved₂⟩ := readNat_eq_ok_iff.1 hbitCount
      obtain ⟨hlt₃, hmoved₃⟩ := readNat_eq_ok_iff.1 htableLog
      obtain ⟨-, hmoved₄⟩ := readNat_eq_ok_iff.1 halphabetSize
      obtain ⟨ids, rfl, hids, hmoved₅⟩ := readCounts_eq_ok_iff.1 hcounts
      obtain ⟨hlen, hmoved₆⟩ := takeBytes_eq_ok_iff.1 hpayload
      rw [List.nil_append] at hids
      obtain rfl : counts = ids.toArray := by rw [← hids]
      refine ⟨⟨hlt₁, hlt₂, hlt₃, Nat.le_of_not_lt hlt, hlen⟩, hallows, ?_⟩
      -- Together the fields that were passed are the stored form of the segment.
      exact ((((hmoved₁.append hmoved₂).append hmoved₃).append hmoved₄).append hmoved₅).append
        hmoved₆
  · intro h
    obtain ⟨hs, hallows, hmoved⟩ := h
    have hlt : s.histogram.alphabetSize < 256 ^ 2 :=
      Nat.lt_of_le_of_lt hs.alphabetSize_le (by decide)
    -- The fields are passed in the order in which they are read.
    obtain ⟨c₅, hmoved, hpayload⟩ := Cursor.moved_append_iff.1 hmoved
    obtain ⟨c₄, hmoved, hcounts⟩ := Cursor.moved_append_iff.1 hmoved
    obtain ⟨c₃, hmoved, halphabetSize⟩ := Cursor.moved_append_iff.1 hmoved
    obtain ⟨c₂, hmoved, htableLog⟩ := Cursor.moved_append_iff.1 hmoved
    obtain ⟨c₁, hlength, hbitCount⟩ := Cursor.moved_append_iff.1 hmoved
    apply EStateM.bind_eq_ok_iff.2
      ⟨s.length, c₁, readNat_eq_ok_iff.2 ⟨hs.length_lt, hlength⟩, _⟩
    apply EStateM.bind_eq_ok_iff.2 ⟨(), c₁, reserve_eq_ok_iff.2 ⟨hallows, rfl⟩, _⟩
    apply EStateM.bind_eq_ok_iff.2
      ⟨s.bitCount, c₂, readNat_eq_ok_iff.2 ⟨hs.bitCount_lt, hbitCount⟩, _⟩
    apply EStateM.bind_eq_ok_iff.2
      ⟨s.tableLog, c₃, readNat_eq_ok_iff.2 ⟨hs.tableLog_lt, htableLog⟩, _⟩
    apply EStateM.bind_eq_ok_iff.2
      ⟨s.histogram.alphabetSize, c₄, readNat_eq_ok_iff.2 ⟨hlt, halphabetSize⟩, _⟩
    rw [if_neg (Nat.not_lt.2 hs.alphabetSize_le)]
    apply EStateM.bind_eq_ok_iff.2 ⟨s.histogram.counts, c₅,
      readCounts_eq_ok_iff.2 ⟨s.histogram.counts.toList, rfl, rfl, hcounts⟩, _⟩
    exact EStateM.bind_eq_ok_iff.2
      ⟨s.payload, c', takeBytes_eq_ok_iff.2 ⟨hs.length_payload, hpayload⟩, rfl⟩

/-! ### Coding -/

/-- Segments have length fields of 32 bits, so only the table size can be refused. -/
theorem check_params_eq_ok_iff {tableLog : Nat} :
    (params tableLog).check = .ok () ↔ TableLogInRange tableLog := by
  rw [Params.check_eq_ok_iff]
  constructor
  · intro h
    exact h.1
  · intro h
    exact ⟨h, (by decide : 1 ≤ 32), (by decide : 32 ≤ maxLengthBits)⟩

/-- A segment is made of a chunk by its own tables, if both lengths fit their fields. -/
theorem ofBytes_eq_ok_iff {tableLog : Nat} {bytes : List UInt8} {s : Segment} :
    ofBytes tableLog bytes = .ok s ↔
      bytes.length ≤ maxField ∧ ∃ t block,
        Tables.ofHistogram (Histogram.ofBytes bytes).trimmed (params tableLog) = .ok t ∧
        t.encodeBlock (bytes.map UInt8.toNat) = .ok block ∧ block.bitLength ≤ maxField ∧
        s = ⟨bytes.length, block.bitLength, tableLog, (Histogram.ofBytes bytes).trimmed,
          block.toBytes⟩ := by
  unfold ofBytes
  constructor
  -- Two tests and two steps that can fail, in this order.
  · intro h
    by_cases hlong : maxField < bytes.length
    · rw [if_pos hlong] at h
      exact nomatch h
    · rw [if_neg hlong] at h
      obtain ⟨t, htables, h⟩ := Except.bind_eq_ok_iff.1 h
      obtain ⟨block, hblock, h⟩ := Except.bind_eq_ok_iff.1 h
      by_cases hlong' : maxField < block.bitLength
      · rw [if_pos hlong'] at h
        exact nomatch h
      · rw [if_neg hlong'] at h
        cases h
        exact ⟨Nat.le_of_not_lt hlong, t, block, Except.mapError_eq_ok_iff.1 htables, hblock,
          Nat.le_of_not_lt hlong', rfl⟩
  · intro h
    obtain ⟨hle, t, block, htables, hblock, hle', rfl⟩ := h
    rw [if_neg (Nat.not_lt.2 hle)]
    apply Except.bind_eq_ok_iff.2 ⟨t, Except.mapError_eq_ok_iff.2 htables, _⟩
    apply Except.bind_eq_ok_iff.2 ⟨block, hblock, _⟩
    rw [if_neg (Nat.not_lt.2 hle')]
    rfl

/-- What coding makes can be stored. -/
theorem storable_of_ofBytes {tableLog : Nat} {bytes : List UInt8} {s : Segment}
    (h : ofBytes tableLog bytes = .ok s) : s.Storable := by
  obtain ⟨hlen, t, block, htables, hblock, hbits, rfl⟩ := ofBytes_eq_ok_iff.1 h
  -- Tables exist for a supported size only, and its logarithm fits one byte.
  have hlog : TableLogInRange tableLog := by
    obtain ⟨_, hcheck, -⟩ := Except.bind_eq_ok_iff.1 htables
    exact check_params_eq_ok_iff.1 hcheck
  have hmax : maxField < 256 ^ 4 := by decide
  constructor
  · exact Nat.lt_of_le_of_lt hlen hmax
  · exact Nat.lt_of_le_of_lt hbits hmax
  · exact Nat.lt_of_le_of_lt hlog.2 (by decide)
  · show (Histogram.ofBytes bytes).trimmed.alphabetSize ≤ 256
    rw [← Histogram.alphabetSize_ofBytes bytes]
    exact Histogram.alphabetSize_trimmed_le _
  · show block.toBytes.length = Bits.byteCount block.bitLength
    rw [(Tables.aligned_of_encodeBlock hblock).toBytes_eq, Bits.length_toBytes, Block.length_bits]

/-- A segment has the length of the bytes that it was coded from. -/
theorem length_of_ofBytes {tableLog : Nat} {bytes : List UInt8} {s : Segment}
    (h : ofBytes tableLog bytes = .ok s) : s.length = bytes.length := by
  obtain ⟨-, t, block, -, -, -, rfl⟩ := ofBytes_eq_ok_iff.1 h
  rfl

/-- Ids that are bytes are cut down to these bytes. -/
theorem map_toUInt8 {ids : List UInt16} {bytes : List UInt8}
    (h : ids.map UInt16.toNat = bytes.map UInt8.toNat) : ids.map UInt16.toUInt8 = bytes := by
  have hids : ids.map UInt16.toUInt8 = (ids.map UInt16.toNat).map UInt8.ofNat := by
    rw [List.map_map]
    rfl
  have hbytes : (UInt8.ofNat ∘ UInt8.toNat) = id := funext fun b => UInt8.ofNat_toNat
  rw [hids, h, List.map_map, hbytes, List.map_id]

/-- A segment stands for the bytes that it was coded from. -/
theorem decode_of_ofBytes {tableLog : Nat} {bytes : List UInt8} {s : Segment}
    (h : ofBytes tableLog bytes = .ok s) : s.decode = .ok bytes := by
  obtain ⟨hlen, t, block, htables, hblock, -, rfl⟩ := ofBytes_eq_ok_iff.1 h
  -- No counter wraps around, since the length of the bytes fits its field.
  have htotal : (Histogram.ofBytes bytes).trimmed.total = bytes.length := by
    rw [Histogram.total_trimmed]
    exact Histogram.total_ofBytes (Nat.lt_of_le_of_lt hlen (by decide))
  obtain ⟨d, hdecode, hsymbols, -⟩ := Tables.decodeBlockAt_of_encodeBlock hblock [] []
  rw [List.nil_append, List.append_nil] at hdecode
  have hsize : d.symbols.size = bytes.length := by
    have := congrArg List.length hsymbols
    rwa [List.length_map, List.length_map, Array.length_toList] at this
  unfold decode
  rw [if_neg (not_not.2 htotal)]
  apply Except.bind_eq_ok_iff.2 ⟨t, Except.mapError_eq_ok_iff.2 htables, _⟩
  apply Except.bind_eq_ok_iff.2 ⟨d, _, _⟩
  · -- Cutting the payload to its length in bits takes the padding off.
    show t.decodeBlock ((Bits.ofBytes block.toBytes).take block.bitLength) = .ok d
    rw [(Tables.aligned_of_encodeBlock hblock).toBytes_eq, ← Block.length_bits,
      Bits.take_ofBytes_toBytes]
    exact hdecode
  · rw [if_neg (not_not.2 hsize), map_toUInt8 hsymbols]
    rfl

end Segment

end Tans
