import Mathlib.Algebra.Order.Ring.Nat
import Tans.Tables.Decode
import Tans.Tables.Encode

/-!
# Widths

How many bits a step moves between a state and the stream. The decoder reads the bits that a
sub-state lacks, `tableLog - log2 subState`. The encoder compares its state with a threshold, by an
addition that carries into bit sixteen. Both leave of an encoder state a number in
`[weight, 2 * weight)`, and there is only one width that does.

* `DecodeEntry.two_pow_le_mul_missingBits`, `DecodeEntry.missingBits_div`: the decoder's width.
* `Transform.width_ofWeight`, `Transform.div_two_pow_width`: the encoder's width.
* `div_two_pow_of_threshold`, `width_unique`: which width leaves a number in that range, and that no
  other one does.
-/

namespace Tans

/-- The largest table has `2 ^ 15` states. -/
theorem TableLogInRange.two_pow_le {tableLog : Nat} (h : TableLogInRange tableLog) :
    2 ^ tableLog ≤ 2 ^ 15 :=
  Nat.pow_le_pow_right (by decide) h.2

namespace DecodeEntry

/-- A sub-state has no more bits than an encoder state. -/
theorem log2_le_of_lt {tableLog y : Nat} (hpos : 0 < y) (hlt : y < 2 * 2 ^ tableLog) :
    y.log2 ≤ tableLog := by
  have := (Nat.log2_lt (Nat.ne_of_gt hpos)).2 (Nat.pow_succ' ▸ hlt)
  omega

/-- The missing bits scale a sub-state up to an encoder state, whatever these bits are. -/
theorem two_pow_le_mul_missingBits (tableLog : Nat) {y : Nat} (hpos : 0 < y)
    (hlt : y < 2 * 2 ^ tableLog) :
    2 ^ tableLog ≤ y * 2 ^ missingBits tableLog y ∧
      (y + 1) * 2 ^ missingBits tableLog y ≤ 2 * 2 ^ tableLog := by
  have hle := log2_le_of_lt hpos hlt
  -- The top bit of the sub-state moves to the top of an encoder state.
  have hlow : 2 ^ y.log2 ≤ y := Nat.log2_self_le (Nat.ne_of_gt hpos)
  have hhigh : y + 1 ≤ 2 ^ (y.log2 + 1) := Nat.lt_log2_self
  have hsplit : y.log2 + missingBits tableLog y = tableLog := by
    unfold missingBits
    omega
  constructor
  · calc 2 ^ tableLog = 2 ^ y.log2 * 2 ^ missingBits tableLog y := by rw [← Nat.pow_add, hsplit]
      _ ≤ y * 2 ^ missingBits tableLog y := Nat.mul_le_mul_right _ hlow
  · calc (y + 1) * 2 ^ missingBits tableLog y
        ≤ 2 ^ (y.log2 + 1) * 2 ^ missingBits tableLog y := Nat.mul_le_mul_right _ hhigh
      _ = 2 * 2 ^ tableLog := by rw [← Nat.pow_add, Nat.add_right_comm, hsplit, Nat.pow_succ']

/-- A width that leaves of an encoder state some sub-state is the number of its missing bits. -/
theorem missingBits_div {tableLog x n : Nat} (hlow : 2 ^ tableLog ≤ x)
    (hhigh : x < 2 * 2 ^ tableLog) (hpos : 0 < x / 2 ^ n) :
    missingBits tableLog (x / 2 ^ n) = n := by
  -- If more bits were dropped, nothing would be left of the state.
  have hn : n ≤ tableLog := by
    have hle : 2 ^ n ≤ x := Nat.le_of_not_lt fun hlt => by
      rw [Nat.div_eq_of_lt hlt] at hpos
      exact Nat.lt_irrefl 0 hpos
    have hlt : 2 ^ n < 2 ^ (tableLog + 1) := by
      rw [Nat.pow_succ']
      exact Nat.lt_of_le_of_lt hle hhigh
    have := (Nat.pow_lt_pow_iff_right (by decide : 1 < 2)).1 hlt
    omega
  have hlog : (x / 2 ^ n).log2 = tableLog - n := by
    refine (Nat.log2_eq_iff (Nat.ne_of_gt hpos)).2 ⟨?_, ?_⟩
    · rw [Nat.le_div_iff_mul_le (Nat.two_pow_pos n), ← Nat.pow_add, Nat.sub_add_cancel hn]
      exact hlow
    · rw [Nat.div_lt_iff_lt_mul (Nat.two_pow_pos n), ← Nat.pow_add, Nat.add_right_comm,
        Nat.sub_add_cancel hn, Nat.pow_succ']
      exact hhigh
  unfold missingBits
  omega

end DecodeEntry

/-- If `weight`, shifted by `n` bits, lies among the encoder states or just above them, it separates
the states from which `n` bits are flushed to leave a sub-state from those with a bit less. -/
theorem div_two_pow_of_threshold {tableLog weight n x : Nat} (hle : weight ≤ 2 ^ tableLog)
    (hn : 2 ^ tableLog ≤ weight * 2 ^ n ∧ weight * 2 ^ n ≤ 2 * 2 ^ tableLog)
    (hlow : 2 ^ tableLog ≤ x) (hhigh : x < 2 * 2 ^ tableLog) :
    (weight * 2 ^ n ≤ x → weight ≤ x / 2 ^ n ∧ x / 2 ^ n < 2 * weight) ∧
      (x < weight * 2 ^ n → ∃ m, m + 1 = n ∧ weight ≤ x / 2 ^ m ∧ x / 2 ^ m < 2 * weight) := by
  constructor
  · intro hx
    rw [Nat.le_div_iff_mul_le (Nat.two_pow_pos _), Nat.div_lt_iff_lt_mul (Nat.two_pow_pos _),
      Nat.mul_assoc]
    omega
  · intro hx
    cases n with
    | zero =>
      -- No weight lies above all encoder states.
      omega
    | succ m =>
      have hdouble : weight * 2 ^ (m + 1) = 2 * (weight * 2 ^ m) := by
        rw [Nat.pow_succ', Nat.mul_left_comm]
      rw [hdouble] at hn hx
      refine ⟨m, rfl, ?_⟩
      rw [Nat.le_div_iff_mul_le (Nat.two_pow_pos _), Nat.div_lt_iff_lt_mul (Nat.two_pow_pos _),
        Nat.mul_assoc]
      omega

namespace Transform

/-- The larger of the two numbers of bits that are flushed for a symbol. -/
def maxWidth (tableLog weight : Nat) : Nat :=
  if weight = 1 then tableLog else tableLog - (weight - 1).log2

/-- The number of bits that a transform flushes from a state. -/
def width (transform : Transform) (state : Nat) : Nat :=
  ((UInt32.ofNat state + transform.widthBias) >>> 16).toNat

variable {tableLog weight : Nat}

theorem rankOffset_ofWeight {start : Nat} (hpos : 0 < weight) :
    (ofWeight tableLog weight start).rankOffset = start - weight := by
  rw [ofWeight, if_neg (Nat.ne_of_gt hpos)]

theorem maxWidth_pos (hlog : 1 ≤ tableLog) (hpos : 0 < weight) (hle : weight ≤ 2 ^ tableLog) :
    1 ≤ maxWidth tableLog weight := by
  unfold maxWidth
  split
  · exact hlog
  -- A weight less one is below the table size, so its logarithm is below `tableLog`.
  · have := (Nat.log2_lt (n := weight - 1) (k := tableLog) (by omega)).2 (by omega)
    omega

/-- No more bits are flushed than an encoder state has below its top bit. -/
theorem maxWidth_le : maxWidth tableLog weight ≤ tableLog := by
  unfold maxWidth
  split
  · exact Nat.le_refl _
  · exact Nat.sub_le _ _

/-- The least state from which the larger number of bits is flushed lies among the encoder states,
or just above them. -/
theorem mul_two_pow_maxWidth (hpos : 0 < weight) (hle : weight ≤ 2 ^ tableLog) :
    2 ^ tableLog ≤ weight * 2 ^ maxWidth tableLog weight ∧
      weight * 2 ^ maxWidth tableLog weight ≤ 2 * 2 ^ tableLog := by
  unfold maxWidth
  split
  · next h =>
    subst h
    constructor
    · exact Nat.le_of_eq (Nat.one_mul _).symm
    · omega
  · next h =>
    have hw := DecodeEntry.two_pow_le_mul_missingBits tableLog (y := weight - 1) (by omega)
      (by omega)
    rw [Nat.sub_add_cancel hpos] at hw
    exact ⟨Nat.le_trans hw.1 (Nat.mul_le_mul_right _ (Nat.sub_le _ _)), hw.2⟩

theorem toNat_widthBias (start : Nat) (hlog : TableLogInRange tableLog) (hpos : 0 < weight)
    (hle : weight ≤ 2 ^ tableLog) :
    (ofWeight tableLog weight start).widthBias.toNat =
      maxWidth tableLog weight * 2 ^ 16 - weight * 2 ^ maxWidth tableLog weight := by
  obtain ⟨hmin, hmax⟩ := hlog
  have hpow : 2 ^ tableLog ≤ 2 ^ 15 := Nat.pow_le_pow_right (by decide) hmax
  have hw := (mul_two_pow_maxWidth hpos hle).2
  have hwidth := maxWidth_pos hmin hpos hle
  have hwidth' : maxWidth tableLog weight ≤ 15 := Nat.le_trans maxWidth_le hmax
  rw [ofWeight, if_neg (Nat.ne_of_gt hpos)]
  change (UInt32.ofNat (maxWidth tableLog weight <<< 16) -
    UInt32.ofNat (weight <<< maxWidth tableLog weight)).toNat = _
  rw [Nat.shiftLeft_eq, Nat.shiftLeft_eq]
  -- Neither number wraps around, and the second one is not the larger, so nor does the difference.
  have hbig : (UInt32.ofNat (maxWidth tableLog weight * 2 ^ 16)).toNat =
      maxWidth tableLog weight * 2 ^ 16 := UInt32.toNat_ofNat_of_lt' (by simp [UInt32.size]; omega)
  have hsmall : (UInt32.ofNat (weight * 2 ^ maxWidth tableLog weight)).toNat =
      weight * 2 ^ maxWidth tableLog weight :=
    UInt32.toNat_ofNat_of_lt' (by simp [UInt32.size]; omega)
  rw [UInt32.toNat_sub_of_le _ _ (by rw [UInt32.le_iff_toNat_le, hbig, hsmall]; omega), hbig,
    hsmall]

/-- The bias makes the sum carry into bit sixteen exactly for the states that flush one bit more. -/
theorem width_ofWeight (start : Nat) {x : Nat} (hlog : TableLogInRange tableLog)
    (hpos : 0 < weight) (hle : weight ≤ 2 ^ tableLog) (hx : x < 2 * 2 ^ tableLog) :
    (ofWeight tableLog weight start).width x =
      if x < weight * 2 ^ maxWidth tableLog weight then maxWidth tableLog weight - 1
      else maxWidth tableLog weight := by
  have hbias := toNat_widthBias start hlog hpos hle
  obtain ⟨hmin, hmax⟩ := hlog
  have hpow : 2 ^ tableLog ≤ 2 ^ 15 := Nat.pow_le_pow_right (by decide) hmax
  have hw := (mul_two_pow_maxWidth hpos hle).2
  have hwidth := maxWidth_pos hmin hpos hle
  have hwidth' : maxWidth tableLog weight ≤ 15 := Nat.le_trans maxWidth_le hmax
  have hstate : (UInt32.ofNat x).toNat = x :=
    UInt32.toNat_ofNat_of_lt' (by simp [UInt32.size]; omega)
  rw [width, UInt32.toNat_shiftRight, UInt32.toNat_add, hbias, hstate]
  simp only [UInt32.reduceToNat, Nat.reduceMod, Nat.shiftRight_eq_div_pow, Nat.reducePow]
  -- The sum is `maxWidth * 2 ^ 16` plus `x - weight * 2 ^ maxWidth`, and a negative difference
  -- leaves one less in the upper half.
  split <;> omega

/-- What a transform leaves of an encoder state is a sub-state of its symbol. -/
theorem div_two_pow_width (start : Nat) {x : Nat} (hlog : TableLogInRange tableLog)
    (hpos : 0 < weight) (hle : weight ≤ 2 ^ tableLog) (hlow : 2 ^ tableLog ≤ x)
    (hhigh : x < 2 * 2 ^ tableLog) :
    weight ≤ x / 2 ^ (ofWeight tableLog weight start).width x ∧
      x / 2 ^ (ofWeight tableLog weight start).width x < 2 * weight := by
  have hsplit := div_two_pow_of_threshold hle (mul_two_pow_maxWidth hpos hle) hlow hhigh
  rw [width_ofWeight start hlog hpos hle hhigh]
  split
  · next hx =>
    obtain ⟨n, hn, hrange⟩ := hsplit.2 hx
    rwa [← hn, Nat.add_sub_cancel]
  · next hx => exact hsplit.1 (Nat.le_of_not_lt hx)

end Transform

/-- Only one width leaves of a state a number in `[weight, 2 * weight)`. -/
theorem width_unique {weight x n n' : Nat} (hlow : weight ≤ x / 2 ^ n)
    (hhigh : x / 2 ^ n < 2 * weight) (hlow' : weight ≤ x / 2 ^ n')
    (hhigh' : x / 2 ^ n' < 2 * weight) : n = n' := by
  -- One bit more halves the number, to below the weight.
  have key {n n' : Nat} (hhigh : x / 2 ^ n < 2 * weight) (hlow' : weight ≤ x / 2 ^ n') :
      ¬ n < n' := fun hlt => by
    have hmono : x / 2 ^ n' ≤ x / 2 ^ (n + 1) :=
      Nat.div_le_div_left (Nat.pow_le_pow_right (by decide) hlt) (Nat.two_pow_pos _)
    rw [Nat.pow_succ, ← Nat.div_div_eq_div_mul] at hmono
    omega
  have h₁ := key hhigh hlow'
  have h₂ := key hhigh' hlow
  omega

end Tans
