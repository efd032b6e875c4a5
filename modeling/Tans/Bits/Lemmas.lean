import Mathlib.Algebra.Order.Ring.Nat
import Tans.Bits

/-!
# Numbers and their bits

* `Bits.toNat_ofNat`: a field shows its number modulo two to the power of its width.
* `Bits.ofNat_toNat`: a bit sequence is the field of the number that it shows.
-/

namespace Tans.Bits

/-- A number in front of some bits is moved up by as many places. -/
theorem foldl_eq_add (bits : Bits) (n : Nat) :
    bits.foldl (fun n b => 2 * n + b.toNat) n = n * 2 ^ bits.length + toNat bits := by
  induction bits generalizing n with
  | nil => simp [toNat]
  | cons b bits ih =>
    simp only [toNat, List.foldl_cons, List.length_cons]
    rw [ih, ih (2 * 0 + b.toNat)]
    grind

@[simp]
theorem toNat_nil : toNat [] = 0 := rfl

theorem toNat_cons (b : Bool) (bits : Bits) :
    toNat (b :: bits) = b.toNat * 2 ^ bits.length + toNat bits := by
  simpa [toNat] using foldl_eq_add bits b.toNat

/-- A sequence shows no number that needs more bits than it has. -/
theorem toNat_lt (bits : Bits) : toNat bits < 2 ^ bits.length := by
  induction bits with
  | nil => simp
  | cons b bits ih =>
    rw [toNat_cons, List.length_cons, Nat.pow_succ]
    cases b
    · simp; omega
    · simp; omega

/-- Reading back a field gives the number modulo two to the power of the width. -/
theorem toNat_ofNat (width value : Nat) : toNat (ofNat width value) = value % 2 ^ width := by
  induction width with
  | zero => simp [ofNat, Nat.mod_one]
  | succ width ih =>
    rw [ofNat, toNat_cons, ih, length_ofNat, Nat.toNat_testBit, Nat.mod_pow_succ, Nat.mul_comm,
      Nat.add_comm]

theorem ofNat_congr {width m n : Nat} (h : ∀ i < width, m.testBit i = n.testBit i) :
    ofNat width m = ofNat width n := by
  induction width with
  | zero => rfl
  | succ width ih =>
    rw [ofNat, ofNat, h width (Nat.lt_succ_self width),
      ih fun i hi => h i (Nat.lt_succ_of_lt hi)]

/-- The bits of the number that a bit sequence shows are that sequence. -/
theorem ofNat_toNat (bits : Bits) : ofNat bits.length (toNat bits) = bits := by
  induction bits with
  | nil => rfl
  | cons b bits ih =>
    -- The first bit is on top, the bits of the rest below it.
    have testBit_toNat (i : Nat) : (toNat (b :: bits)).testBit i =
        if i < bits.length then (toNat bits).testBit i else b.toNat.testBit (i - bits.length) := by
      rw [toNat_cons, Nat.mul_comm, Nat.testBit_two_pow_mul_add b.toNat (toNat_lt bits)]
    rw [List.length_cons, ofNat, testBit_toNat]
    congr 1
    · cases b <;> simp
    · exact (ofNat_congr fun i hi => by simp [testBit_toNat, hi]).trans ih

end Tans.Bits
