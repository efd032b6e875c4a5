import Tans.Cursor

/-!
# Bit sequences

A bit sequence is a list, the first bit of the stream at its head. Numbers are written most
significant bit first, and bytes hold eight bits each in the same order, the last byte filled up
with zeros.

* `Bits.read_eq_ok_iff`: a read succeeds if enough bits are left, with the number that they show.
-/

namespace Tans

/-- A sequence of bits, in stream order. -/
abbrev Bits := List Bool

namespace Bits

/-- The low `width` bits of a number, most significant first. -/
def ofNat : (width value : Nat) → Bits
  | 0, _ => []
  | width + 1, value => value.testBit width :: ofNat width value

/-- The number that a bit sequence shows, most significant bit first. -/
def toNat (bits : Bits) : Nat := bits.foldl (fun n b => 2 * n + b.toNat) 0

/-- A number that is to be written in a given width; bits above the width are not written. -/
structure Field where
  value : Nat
  width : Nat
deriving DecidableEq, Repr

/-- The bits of a field. -/
def Field.bits (f : Field) : Bits := ofNat f.width f.value

/-- The bits of fields written one after the other. -/
def ofFields (fields : List Field) : Bits := fields.flatMap Field.bits

/-- The bits of a sequence of bytes. -/
def ofBytes (bytes : List UInt8) : Bits := bytes.flatMap fun b => ofNat 8 b.toNat

/-- The first `n` bytes of a bit sequence, zeros where it has ended. -/
def takeBytes : (n : Nat) → Bits → List UInt8
  | 0, _ => []
  | n + 1, bits =>
    UInt8.ofNat (toNat ((bits.take 8 ++ List.replicate 8 false).take 8)) ::
      takeBytes n (bits.drop 8)

/-- The least number of bytes that hold `n` bits. -/
def byteCount (n : Nat) : Nat := (n + 7) / 8

/-- The bytes of a bit sequence, the last one filled up with zeros. -/
def toBytes (bits : Bits) : List UInt8 := takeBytes (byteCount bits.length) bits

/-- Reads the next `width` bits as a number. -/
def read (width : Nat) : Cursor.Reading Bool Nat :=
  toNat <$> Cursor.take width fun c => .shortRead width c.pos c.remaining

@[simp]
theorem length_ofNat (width value : Nat) : (ofNat width value).length = width := by
  induction width with
  | zero => rfl
  | succ width ih => simp [ofNat, ih]

/-! ### Bytes -/

@[simp]
theorem length_takeBytes (n : Nat) (bits : Bits) : (takeBytes n bits).length = n := by
  induction n generalizing bits with
  | zero => rfl
  | succ n ih => simp [takeBytes, ih]

@[simp]
theorem length_ofBytes (bytes : List UInt8) : (ofBytes bytes).length = 8 * bytes.length := by
  induction bytes with
  | nil => rfl
  | cons b bytes ih => simp only [ofBytes] at ih; simp [ofBytes, ih]; omega

/-! ### Reading -/

theorem read_eq_ok_iff {width value : Nat} {c c' : Cursor Bool} :
    read width c = .ok value c' ↔
      width ≤ c.rest.length ∧ value = toNat (c.rest.take width) ∧
        c' = ⟨c.rest.drop width, c.pos + width⟩ := by
  simp only [read, Functor.map, EStateM.map]
  split
  · next h =>
    obtain ⟨hle, rfl, rfl⟩ := Cursor.take_eq_ok_iff.1 h
    simp [hle, eq_comm]
  · next h =>
    obtain ⟨hlt, rfl, rfl⟩ := Cursor.take_eq_error_iff.1 h
    simp; omega

end Bits

end Tans
