import Mathlib.Data.Nat.Bitwise
import Tans.Proofs.BitVector
import Tans.Writer

/-!
# What a writer appends

A writer makes room for a field, masks the value, and stores it in the new bits. All three steps
together append the field and leave what was written before.

* `Writer.bits_write`: one field.
* `Writer.bits_writeAll`: fields one after the other.
-/

namespace Tans

open Bits

/-- The value that is stored has the bits of the field, whether it was masked or not. -/
theorem Bits.Field.bits_eq_ofNat_masked (f : Field) :
    ofNat f.width (if f.width = 32 then f.value else f.value &&& ((1 <<< f.width) - 1)) =
      f.bits := by
  split
  · rfl
  · apply ofNat_congr
    intro i hi
    rw [Nat.one_shiftLeft, Nat.and_two_pow_sub_one_eq_mod, Nat.testBit_mod_two_pow, decide_eq_true hi,
      Bool.true_and]

/-- A vector is resized to the length that was asked for. -/
theorem BitVector.length_resize (v : BitVector) (n : Nat) (value : Bool) :
    (v.resize n value).length = n := by
  rw [resize]
  split
  · next hle => exact Nat.min_eq_left hle
  · rfl

namespace Writer

/-- A field is appended to what was written before. -/
theorem bits_write (w : Writer) (f : Field) :
    (w.write f).vector.bits = w.vector.bits ++ f.bits := by
  rw [write]
  split
  -- A field without width has no bits.
  · next hzero => rw [Field.bits, hzero, ofNat, List.append_nil]
  · have hle : w.vector.length ≤ (w.vector.resize (w.vector.length + f.width) false).length := by
      rw [BitVector.length_resize]
      exact Nat.le_add_right _ _
    have hall : w.vector.bits.take (w.vector.length + f.width) = w.vector.bits :=
      List.take_of_length_le (by rw [BitVector.length_bits]; exact Nat.le_add_right _ _)
    -- Growing keeps the bits in front of the field.
    have hkept : (w.vector.resize (w.vector.length + f.width) false).bits.take w.vector.length =
        w.vector.bits := by
      rw [BitVector.bits_resize, hall]
      exact List.take_left' (BitVector.length_bits w.vector)
    -- The zeros that were added are all written over.
    rw [BitVector.bits_store hle, hkept, BitVector.length_resize, Nat.add_sub_cancel_left,
      Field.bits_eq_ofNat_masked]

/-- Fields are appended in their order. -/
theorem bits_writeAll (w : Writer) (fields : List Field) :
    (w.writeAll fields).vector.bits = w.vector.bits ++ ofFields fields := by
  induction fields generalizing w with
  | nil => exact (List.append_nil _).symm
  | cons f fields ih =>
    show ((w.write f).writeAll fields).vector.bits = _
    rw [ih, bits_write, List.append_assoc, ofFields, ofFields, List.flatMap_cons]

end Writer

end Tans
