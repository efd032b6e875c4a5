import Tans.Bits

/-!
# Bit vectors in memory

A bit vector is a stretch of the bits of some bytes. The bytes hold more than the vector: its first
bit may lie inside the first byte, as it does in the copy of a slice from the middle of another
vector, and behind its last bit there is whatever was stored before. Cutting a vector off does not
touch the bytes, and neither does taking it from bytes.

`bits` is the sequence that a vector stands for. Two vectors with the same bits are equal to a
reader, but the bytes under them need not be.
-/

namespace Tans

/-- Writes bits over those of some bytes, from a position on. -/
def Bits.overwrite (bytes : List UInt8) (p : Nat) (bits : Bits) : List UInt8 :=
  -- The bytes in front of the one with the position are not looked at.
  let rest := bytes.drop (p / 8)
  bytes.take (p / 8) ++ takeBytes rest.length
    ((ofBytes rest).take (p % 8) ++ bits ++ (ofBytes rest).drop (p % 8 + bits.length))

@[simp]
theorem Bits.length_overwrite (bytes : List UInt8) (p : Nat) (bits : Bits) :
    (overwrite bytes p bits).length = bytes.length := by
  rw [overwrite, List.length_append, length_takeBytes, List.length_take, List.length_drop]
  omega

/-- Bits in memory. -/
structure BitVector where
  /-- All bytes that belong to the vector, those behind its last bit among them. -/
  bytes : List UInt8
  /-- The number of bits of the first byte that are in front of the vector. -/
  head : Nat
  /-- The number of bits in the vector. -/
  length : Nat
  head_lt : head < 8
  fits : head + length ≤ 8 * bytes.length
deriving DecidableEq, Repr

namespace BitVector

/-- The bits of a vector. -/
def bits (v : BitVector) : Bits := ((Bits.ofBytes v.bytes).drop v.head).take v.length

/-- The vector without bits. -/
def empty : BitVector where
  bytes := []
  head := 0
  length := 0
  head_lt := by decide
  fits := by decide

/-- All bits of some bytes. -/
def ofBytes (bytes : List UInt8) : BitVector where
  bytes
  head := 0
  length := 8 * bytes.length
  head_lt := by decide
  fits := by omega

/-- Bits in bytes of their own, from the first bit of the first byte on. -/
def ofBits (bits : Bits) : BitVector where
  bytes := bits.toBytes
  head := 0
  length := bits.length
  head_lt := by decide
  fits := by rw [Bits.toBytes, Bits.length_takeBytes, Bits.byteCount]; omega

/-- Cuts a vector off behind its first `n` bits. The bytes stay as they are. -/
def truncate (v : BitVector) (n : Nat) : BitVector where
  bytes := v.bytes
  head := v.head
  length := min n v.length
  head_lt := v.head_lt
  fits := by have := v.fits; omega

/-- Cuts a vector off behind its first `n` bits, or grows it to `n` bits of which the new ones have
the given value. Bytes are added only if those at hand do not hold as many bits. -/
def resize (v : BitVector) (n : Nat) (value : Bool) : BitVector :=
  if n ≤ v.length then v.truncate n
  else
    let grown := v.bytes ++ List.replicate (Bits.byteCount (v.head + n) - v.bytes.length) 0
    { bytes := Bits.overwrite grown (v.head + v.length) (List.replicate (n - v.length) value)
      head := v.head
      length := n
      head_lt := v.head_lt
      fits := by
        rw [Bits.length_overwrite, List.length_append, List.length_replicate, Bits.byteCount]
        omega }

/-- Stores the low bits of a number in all bits from `start` on, the most significant one first. -/
def store (v : BitVector) (start value : Nat) : BitVector where
  bytes := Bits.overwrite v.bytes (v.head + start) (Bits.ofNat (v.length - start) value)
  head := v.head
  length := v.length
  head_lt := v.head_lt
  fits := by rw [Bits.length_overwrite]; exact v.fits

/-- Gives all bits of the bytes that lie outside of the vector the same value. -/
def setUninitialized (v : BitVector) (value : Bool) : BitVector where
  bytes :=
    let stop := v.head + v.length
    let front := Bits.overwrite v.bytes 0 (List.replicate v.head value)
    Bits.overwrite front stop (List.replicate (8 * v.bytes.length - stop) value)
  head := v.head
  length := v.length
  head_lt := v.head_lt
  fits := by rw [Bits.length_overwrite, Bits.length_overwrite]; exact v.fits

/-- The bytes that hold bits of the vector, as they are. Bytes behind the last bit are dropped. -/
def toBytes (v : BitVector) : List UInt8 := v.bytes.take (Bits.byteCount (v.head + v.length))

end BitVector

end Tans
