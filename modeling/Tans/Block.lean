import Tans.BitVector

/-!
# Blocks

An encoded block is a bit sequence, kept in a bit vector. Stored as bytes it is filled up with zeros
to whole bytes, so its length in bits has to be kept beside them.
-/

namespace Tans

/-- An encoded block. Any bit vector can be taken as one, and blocks are the same if their bits are. -/
structure Block where
  vector : BitVector
deriving DecidableEq, Repr

namespace Block

/-- The bits of a block. -/
def bits (b : Block) : Bits := b.vector.bits

/-- The block of some bits, as it is written. -/
def ofBits (bits : Bits) : Block := ⟨.ofBits bits⟩

/-- The number of bits in a block. -/
def bitLength (b : Block) : Nat := b.vector.length

/-- The block in the first `bitLength` bits of some bytes. The bits behind them and the bytes that it
does not need stay where they are. -/
def ofBytes (bytes : List UInt8) (bitLength : Nat) : Except Error Block :=
  let vector := BitVector.ofBytes bytes
  if vector.length < bitLength then .error (.corrupt (.bitLength bitLength vector.length))
  else .ok ⟨vector.truncate bitLength⟩

/-- The bytes of a block, with zeros in all bits that are not its own. -/
def toBytes (b : Block) : List UInt8 := (b.vector.setUninitialized false).toBytes

/-- The average cost of the symbols of a block, its header included. -/
def bitsPerSymbol (b : Block) (symbols : Nat) : Float :=
  if symbols = 0 then 0 else b.bitLength.toFloat / symbols.toFloat

end Block

end Tans
