import Tans.Bits

/-!
# Readers

A reader is a bit sequence with a position in it, which may lie past the end. Lengths and positions
are machine words, and so is the sum of a position and a width. Where that sum does not fit a word
the program stops, which is not one of the errors that the library reports.

The decoder reads through cursors. A reader reads what a cursor at its position does, unless the
sum overflows; that takes a position far behind any bits, and the decoder starts at none.
-/

namespace Tans

/-- A bit sequence and the position that is read from next. -/
structure Reader where
  bits : Bits
  pos : UInt64
  /-- A length is a machine word. -/
  length_lt : bits.length < UInt64.size

namespace Reader

/-- Why a reader returns no number. -/
inductive Failure where
  /-- What the library reports. -/
  | error (e : Error)
  /-- The position behind the field is not a machine word, and the program stops. -/
  | overflow (position width : Nat)
deriving DecidableEq, Repr

/-- The number of bits that are left. -/
def remaining (r : Reader) : Nat := r.bits.length - r.pos.toNat

/-- Reads the next `width` bits as a number. -/
def read (width : Nat) : EStateM Failure Reader Nat := fun r =>
  if width = 0 then .ok 0 r
  else
    -- The end of the field is computed before it is held against the length.
    let stop := r.pos.toNat + width
    if UInt64.size ≤ stop then .error (.overflow r.pos.toNat width) r
    else if r.bits.length < stop then
      .error (.error (.corrupt (.shortRead width r.pos.toNat r.remaining))) r
    else
      .ok (Bits.toNat ((r.bits.drop r.pos.toNat).take width)) { r with pos := UInt64.ofNat stop }

/-- Reads numbers of given widths, one after the other. -/
def readWidths (widths : List Nat) : EStateM Failure Reader (List Nat) := widths.mapM read

end Reader

end Tans
