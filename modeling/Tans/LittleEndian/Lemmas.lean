import Mathlib.Algebra.Order.Ring.Nat
import Tans.LittleEndian

/-!
# Numbers and their bytes

* `LittleEndian.toNat_ofNat`: stored bytes show their number modulo 256 to the power of their count.
* `LittleEndian.ofNat_toNat`: bytes are the stored form of the number that they show.
-/

namespace Tans.LittleEndian

/-- Reading back a number gives it modulo 256 to the power of its size. -/
theorem toNat_ofNat (size value : Nat) :
    toNat (ofNat size value) = value % 256 ^ size := by
  induction size generalizing value with
  | zero => simp [ofNat, toNat, Nat.mod_one]
  | succ size ih =>
    simp only [toNat] at ih
    simp only [ofNat, toNat, List.foldr_cons, ih, UInt8.toNat_ofNat']
    have hpow : 256 ^ (size + 1) = 256 * 256 ^ size := Nat.pow_succ'
    rw [hpow]
    exact Nat.mod_mul.symm

/-- The bytes of the number that bytes show are those bytes. -/
theorem ofNat_toNat (bytes : List UInt8) : ofNat bytes.length (toNat bytes) = bytes := by
  induction bytes with
  | nil => rfl
  | cons b bytes ih =>
    have hb : b.toNat < 256 := b.toNat_lt
    -- The first byte is the remainder, and the others show the quotient.
    have hdiv : toNat (b :: bytes) / 256 = toNat bytes := by
      simp only [toNat, List.foldr_cons]; omega
    have hmod : UInt8.ofNat (toNat (b :: bytes)) = b := by
      rw [← UInt8.toNat_inj]
      simp only [toNat, List.foldr_cons, UInt8.toNat_ofNat']
      omega
    rw [List.length_cons, ofNat, hdiv, hmod, ih]

end Tans.LittleEndian
