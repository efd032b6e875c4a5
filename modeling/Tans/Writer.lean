import Tans.BitVector

/-!
# Writers

A writer appends fields to a bit vector of its own.
-/

namespace Tans

/-- The bits that were written so far. -/
structure Writer where
  vector : BitVector := .empty
deriving DecidableEq, Repr

namespace Writer

/-- Appends the low `width` bits of a number. A field without width is not written at all. -/
def write (w : Writer) (f : Bits.Field) : Writer :=
  if f.width = 0 then w
  else
    let start := w.vector.length
    -- A number as wide as a word has no bits above its width.
    let value := if f.width = 32 then f.value else f.value &&& ((1 <<< f.width) - 1)
    ⟨(w.vector.resize (start + f.width) false).store start value⟩

/-- Writes fields one after the other. -/
def writeAll (w : Writer) (fields : List Bits.Field) : Writer := fields.foldl write w

end Writer

end Tans
