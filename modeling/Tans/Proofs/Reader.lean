import Tans.Proofs.Reading
import Tans.Reader

/-!
# Readers and cursors

A reader returns what a cursor at its position does and ends where the cursor ends. Only where it
fails is there more to say: if the position behind the field is not a machine word, the program stops
before the bits that are left are counted. No reader that has as many bits left gets there.

* `Reader.read_of_le`, `Reader.read_of_lt`: a read by what is left at the position.
* `Reader.readWidths_eq_ok_iff_cursor`: reads in a row, in terms of the cursor.
-/

/-- A list is mapped when its first element is and then, in the state that this leaves, the rest. -/
theorem EStateM.mapM_cons_eq_ok_iff {ε σ α β : Type} {f : α → EStateM ε σ β} {x : α} {xs : List α}
    {ys : List β} {s s' : σ} :
    (x :: xs).mapM f s = .ok ys s' ↔
      ∃ y s₁ rest, f x s = .ok y s₁ ∧ xs.mapM f s₁ = .ok rest s' ∧ ys = y :: rest := by
  rw [List.mapM_cons, EStateM.bind_eq_ok_iff]
  constructor
  · intro h
    obtain ⟨y, s₁, hy, h⟩ := h
    obtain ⟨rest, s₂, hrest, h⟩ := EStateM.bind_eq_ok_iff.1 h
    cases h
    exact ⟨y, s₁, rest, hy, hrest, rfl⟩
  · intro h
    obtain ⟨y, s₁, rest, hy, hrest, rfl⟩ := h
    exact ⟨y, s₁, hy, EStateM.bind_eq_ok_iff.2 ⟨rest, s', hrest, rfl⟩⟩

namespace Tans

/-- Reads numbers of given widths, one after the other. -/
def Bits.readWidths (widths : List Nat) : Cursor.Reading Bool (List Nat) := widths.mapM read

namespace Reader

variable {r r' : Reader} {width value : Nat}

/-- The cursor at the position of a reader. -/
def cursor (r : Reader) : Cursor Bool := .ofList r.bits r.pos.toNat

/-- A reader is its bits and its position. -/
theorem eq_of_pos (hbits : r'.bits = r.bits) (hpos : r'.pos.toNat = r.pos.toNat) : r' = r := by
  obtain ⟨bits, pos, hlt⟩ := r
  obtain ⟨bits', pos', hlt'⟩ := r'
  obtain rfl : bits' = bits := hbits
  obtain rfl : pos' = pos := UInt64.toNat_inj.1 hpos
  rfl

/-! ### One read -/

/-- As many bits as are left end at a position that is a machine word. -/
theorem toNat_pos_add (h : width ≤ r.remaining) :
    (UInt64.ofNat (r.pos.toNat + width)).toNat = r.pos.toNat + width := by
  apply UInt64.toNat_ofNat_of_lt'
  have hword := r.pos.toNat_lt
  have hlen := r.length_lt
  have hsize : UInt64.size = 2 ^ 64 := rfl
  rw [remaining] at h
  omega

/-- Where as many bits are left, they are read, and the reader moves over them. -/
theorem read_of_le (h : width ≤ r.remaining) :
    read width r = .ok (Bits.toNat ((r.bits.drop r.pos.toNat).take width))
      { r with pos := UInt64.ofNat (r.pos.toNat + width) } := by
  have hlen := r.length_lt
  rcases Nat.eq_zero_or_pos width with rfl | hpos
  · -- Without a width nothing is read, wherever the position is.
    rw [Nat.add_zero, UInt64.ofNat_toNat]
    rfl
  · rw [remaining] at h
    have hword : ¬ UInt64.size ≤ r.pos.toNat + width := by omega
    have henough : ¬ r.bits.length < r.pos.toNat + width := by omega
    rw [read, if_neg (Nat.ne_of_gt hpos)]
    exact (if_neg hword).trans (if_neg henough)

/-- Where fewer bits are left, the reader stays. The failure depends on whether the position behind
the field is a machine word. -/
theorem read_of_lt (h : r.remaining < width) :
    read width r = .error
      (if r.pos.toNat + width < UInt64.size then
        .error (.corrupt (.shortRead width r.pos.toNat r.remaining))
      else .overflow r.pos.toNat width) r := by
  have hshort : r.bits.length < r.pos.toNat + width := by
    rw [remaining] at h
    omega
  rw [read, if_neg (Nat.ne_of_gt (Nat.zero_lt_of_lt h))]
  by_cases hword : r.pos.toNat + width < UInt64.size
  · rw [if_pos hword]
    exact (if_neg (Nat.not_le.2 hword)).trans (if_pos hshort)
  · rw [if_neg hword]
    exact if_pos (Nat.le_of_not_lt hword)

/-- A read succeeds if as many bits are left, and moves over them. -/
theorem read_eq_ok_iff :
    read width r = .ok value r' ↔
      width ≤ r.remaining ∧ value = Bits.toNat ((r.bits.drop r.pos.toNat).take width) ∧
        r'.bits = r.bits ∧ r'.pos.toNat = r.pos.toNat + width := by
  constructor
  · intro h
    have hle : width ≤ r.remaining := Nat.le_of_not_lt fun hlt => by
      rw [read_of_lt hlt] at h
      exact nomatch h
    rw [read_of_le hle] at h
    cases h
    exact ⟨hle, rfl, rfl, toNat_pos_add hle⟩
  · intro ⟨hle, hvalue, hbits, hpos⟩
    have hr : r' = { r with pos := UInt64.ofNat (r.pos.toNat + width) } :=
      eq_of_pos hbits (hpos.trans (toNat_pos_add hle).symm)
    rw [read_of_le hle, hvalue, hr]

/-- A read fails if fewer bits are left, and does not move then. It is reported as a short read if
the position behind the field is a machine word, and stops the program otherwise. -/
theorem read_eq_error_iff {e : Failure} :
    read width r = .error e r' ↔
      r.remaining < width ∧ r' = r ∧
        e = if r.pos.toNat + width < UInt64.size then
          .error (.corrupt (.shortRead width r.pos.toNat r.remaining))
        else .overflow r.pos.toNat width := by
  constructor
  · intro h
    have hlt : r.remaining < width := Nat.lt_of_not_le fun hle => by
      rw [read_of_le hle] at h
      exact nomatch h
    rw [read_of_lt hlt] at h
    cases h
    exact ⟨hlt, rfl, rfl⟩
  · intro ⟨hlt, hr, he⟩
    rw [read_of_lt hlt, hr, he]

/-! ### Cursors -/

/-- A reader reads what the cursor at its position does. -/
theorem read_eq_ok_iff_cursor :
    read width r = .ok value r' ↔
      Bits.read width r.cursor = .ok value r'.cursor ∧ r'.bits = r.bits := by
  rw [read_eq_ok_iff, Bits.read_eq_ok_iff, cursor, cursor, Cursor.ofList, Cursor.ofList,
    List.length_drop, List.drop_drop, remaining]
  constructor
  · intro ⟨hle, hvalue, hbits, hpos⟩
    exact ⟨⟨hle, hvalue, by rw [hbits, hpos]⟩, hbits⟩
  · intro ⟨⟨hle, hvalue, hc⟩, hbits⟩
    exact ⟨hle, hvalue, hbits, (Cursor.mk.inj hc).2⟩

/-- Where the cursor at its position can read, a reader can, and ends up at the same cursor. -/
theorem exists_read_of_cursor {c : Cursor Bool} (h : Bits.read width r.cursor = .ok value c) :
    ∃ r', read width r = .ok value r' ∧ r'.cursor = c := by
  obtain ⟨hle, rfl, rfl⟩ := Bits.read_eq_ok_iff.1 h
  rw [cursor, Cursor.ofList, List.length_drop] at hle
  refine ⟨_, read_of_le hle, ?_⟩
  rw [cursor, cursor, Cursor.ofList, Cursor.ofList, toNat_pos_add hle, List.drop_drop]

/-- What a reader reads in a row, the cursor at its position does. -/
theorem readWidths_cursor {widths values : List Nat} (h : readWidths widths r = .ok values r') :
    Bits.readWidths widths r.cursor = .ok values r'.cursor ∧ r'.bits = r.bits := by
  induction widths generalizing r values with
  | nil =>
    obtain ⟨rfl, rfl⟩ := EStateM.Result.ok.inj h
    exact ⟨rfl, rfl⟩
  | cons width widths ih =>
    obtain ⟨value, r₁, rest, hread, hrest, rfl⟩ := EStateM.mapM_cons_eq_ok_iff.1 h
    obtain ⟨hread, hbits⟩ := read_eq_ok_iff_cursor.1 hread
    obtain ⟨hrest, hbits'⟩ := ih hrest
    refine ⟨?_, hbits'.trans hbits⟩
    exact EStateM.mapM_cons_eq_ok_iff.2 ⟨value, r₁.cursor, rest, hread, hrest, rfl⟩

/-- What the cursor at its position reads in a row, a reader does, and ends up at the same cursor. -/
theorem exists_readWidths_of_cursor {widths values : List Nat} {c : Cursor Bool}
    (h : Bits.readWidths widths r.cursor = .ok values c) :
    ∃ r', readWidths widths r = .ok values r' ∧ r'.cursor = c := by
  induction widths generalizing r values with
  | nil =>
    obtain ⟨rfl, rfl⟩ := EStateM.Result.ok.inj h
    exact ⟨r, rfl, rfl⟩
  | cons width widths ih =>
    obtain ⟨value, c₁, rest, hfirst, hrest, rfl⟩ := EStateM.mapM_cons_eq_ok_iff.1 h
    obtain ⟨r₁, hread, rfl⟩ := exists_read_of_cursor hfirst
    obtain ⟨r', hrest, hc⟩ := ih hrest
    exact ⟨r', EStateM.mapM_cons_eq_ok_iff.2 ⟨value, r₁, rest, hread, hrest, rfl⟩, hc⟩

end Reader

end Tans
