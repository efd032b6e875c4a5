import Mathlib.Algebra.Order.Field.Rat
import Mathlib.Tactic.Linarith
import Tans.Proofs.Normalize

/-!
# Rounded shares

The share of an id is its proportion of the states, rounded to the nearest whole number with ties
to even, but at least one state if the id occurs. A proportion is a rational number here, so that
rounding is explained without quotients and remainders. It keeps the order of proportions, and it
depends on nothing else.

* `isRounded_roundDiv`, `IsRounded.le_of_le`: division rounds to the nearest, and it is monotone.
* `isShare_share`, `IsShare.unique`: what a share is.
* `IsShare.mul_left`, `isShare_self`: shares of multiples, and of counts that fill the table.
* `Histogram.share_le_share`: a larger count has no smaller share.
-/

namespace Tans

/-! ### Rounding -/

/-- A whole number that is nearest to `x`, the even one of two that are equally near. -/
structure IsRounded (x : ℚ) (n : Nat) : Prop where
  abs_sub_le : |(n : ℚ) - x| ≤ 1 / 2
  even_of_tie : |(n : ℚ) - x| = 1 / 2 → Even n

namespace IsRounded

/-- Rounding is monotone. -/
theorem le_of_le {x y : ℚ} {m n : Nat} (hm : IsRounded x m) (hn : IsRounded y n) (hxy : x ≤ y) :
    m ≤ n := by
  -- Suppose that the smaller number is rounded to the larger result.
  by_contra hlt
  have hsucc : (n : ℚ) + 1 ≤ m := by exact_mod_cast Nat.lt_of_not_le hlt
  obtain ⟨hm₁, hm₂⟩ := abs_le.1 hm.abs_sub_le
  obtain ⟨hn₁, hn₂⟩ := abs_le.1 hn.abs_sub_le
  -- The two results are neighbours, and both numbers lie in the middle between them.
  have hdiff : (m : ℚ) = n + 1 := by linarith
  have htie : |(m : ℚ) - x| = 1 / 2 := by rw [abs_of_nonneg (by linarith)]; linarith
  have htie' : |(n : ℚ) - y| = 1 / 2 := by rw [abs_of_nonpos (by linarith)]; linarith
  have heven := hm.even_of_tie htie
  rw [show m = n + 1 by exact_mod_cast hdiff] at heven
  exact Nat.even_add_one.1 heven (hn.even_of_tie htie')

/-- There is one nearest number, as a tie goes to the even one. -/
theorem unique {x : ℚ} {m n : Nat} (hm : IsRounded x m) (hn : IsRounded x n) : m = n :=
  Nat.le_antisymm (hm.le_of_le hn le_rfl) (hn.le_of_le hm le_rfl)

/-- A whole number is rounded already. -/
theorem natCast (n : Nat) : IsRounded n n := by
  constructor <;> norm_num

variable {q : Nat} {f : ℚ}

/-- A fraction below one half is dropped. -/
theorem of_lt_half (hf : 0 ≤ f) (hlt : f < 1 / 2) : IsRounded (q + f) q := by
  have habs : |(q : ℚ) - (q + f)| = f := by rw [abs_of_nonpos (by linarith)]; linarith
  exact ⟨by linarith, fun htie => by linarith⟩

/-- A fraction above one half is rounded up. -/
theorem of_half_lt (hf : f < 1) (hlt : 1 / 2 < f) : IsRounded (q + f) (q + 1 : Nat) := by
  have habs : |((q + 1 : Nat) : ℚ) - (q + f)| = 1 - f := by
    push_cast
    rw [abs_of_nonneg (by linarith)]
    linarith
  exact ⟨by linarith, fun htie => by linarith⟩

/-- One half goes to the even neighbour. -/
theorem of_half : IsRounded (q + 1 / 2) (q + q % 2) := by
  -- An even number is kept, an odd one is rounded up.
  rcases Nat.mod_two_eq_zero_or_one q with hq | hq
  · rw [hq, Nat.add_zero]
    refine ⟨?_, fun _ => Nat.even_iff.2 hq⟩
    norm_num
  · rw [hq]
    refine ⟨?_, fun _ => Nat.even_iff.2 (by omega)⟩
    push_cast
    norm_num

end IsRounded

/-- Dividing with remainder rounds the quotient. -/
theorem isRounded_roundDiv {num den : Nat} (hden : 0 < den) :
    IsRounded (num / den) (roundDiv num den) := by
  have hpos : (0 : ℚ) < den := by exact_mod_cast hden
  -- The quotient is a whole number and the fraction that the remainder is of the divisor.
  have hsplit : (num : ℚ) / den = (num / den : Nat) + (num % den : Nat) / (den : ℚ) := by
    rw [div_eq_iff hpos.ne', add_mul, div_mul_cancel₀ _ hpos.ne']
    exact_mod_cast (Nat.div_add_mod' num den).symm
  rw [hsplit]
  unfold roundDiv
  dsimp only
  split
  · next hless =>
    have hless : 2 * ((num % den : Nat) : ℚ) < den := by exact_mod_cast hless
    refine .of_lt_half (div_nonneg (Nat.cast_nonneg _) hpos.le) ?_
    rw [div_lt_iff₀ hpos]
    linarith
  split
  · next hmore =>
    have hmore : (den : ℚ) < 2 * (num % den : Nat) := by exact_mod_cast hmore
    refine .of_half_lt ?_ ?_
    · rw [div_lt_iff₀ hpos, one_mul]
      exact_mod_cast Nat.mod_lt num hden
    · rw [lt_div_iff₀ hpos]
      linarith
  -- Twice the remainder is neither less nor more than the divisor, so it is a tie.
  · next hless hmore =>
    have htie : ((num % den : Nat) : ℚ) / den = 1 / 2 := by
      have htie : 2 * ((num % den : Nat) : ℚ) = den := by
        exact_mod_cast Nat.le_antisymm (Nat.le_of_not_lt hmore) (Nat.le_of_not_lt hless)
      rw [div_eq_iff hpos.ne']
      linarith
    rw [htie]
    exact .of_half

/-! ### Shares -/

/-- The share of a count in a table: no state if the count is zero, and otherwise its proportion of
the states, rounded, but not less than one. -/
structure IsShare (tableSize total count n : Nat) : Prop where
  eq_zero : count = 0 → n = 0
  eq_max : 0 < count → ∃ q, IsRounded (count * tableSize / total) q ∧ n = max 1 q

/-- The computed share is the rounded proportion, or one for an id that asks for less. -/
theorem isShare_share {tableSize total : Nat} (htotal : 0 < total) (count : Nat) :
    IsShare tableSize total count (Weights.share tableSize total count) where
  eq_zero h := by rw [Weights.share, if_pos h]
  eq_max h := by
    have hround : IsRounded ((count * tableSize : Nat) / total) _ := isRounded_roundDiv htotal
    push_cast at hround
    exact ⟨_, hround, by rw [Weights.share, if_neg h.ne']⟩

/-- A larger count of the same total has no smaller share. -/
theorem IsShare.le_of_le {tableSize total count count' n n' : Nat}
    (h : IsShare tableSize total count n) (h' : IsShare tableSize total count' n')
    (hle : count ≤ count') : n ≤ n' := by
  rcases Nat.eq_zero_or_pos count with hzero | hpos
  · rw [h.eq_zero hzero]
    exact Nat.zero_le _
  obtain ⟨q, hq, rfl⟩ := h.eq_max hpos
  obtain ⟨q', hq', rfl⟩ := h'.eq_max (Nat.lt_of_lt_of_le hpos hle)
  have hcount : (count : ℚ) ≤ count' := by exact_mod_cast hle
  have hqq' : q ≤ q' := hq.le_of_le hq' (by gcongr)
  exact max_le_max_left 1 hqq'

/-- A count has one share. -/
theorem IsShare.unique {tableSize total count n n' : Nat} (h : IsShare tableSize total count n)
    (h' : IsShare tableSize total count n') : n = n' :=
  Nat.le_antisymm (h.le_of_le h' le_rfl) (h'.le_of_le h le_rfl)

/-- A common factor of the count and the total changes nothing. -/
theorem IsShare.mul_left {tableSize total count n m : Nat} (hm : 0 < m)
    (h : IsShare tableSize total count n) : IsShare tableSize (m * total) (m * count) n where
  eq_zero hzero := h.eq_zero ((Nat.mul_eq_zero.1 hzero).resolve_left hm.ne')
  eq_max hpos := by
    obtain ⟨q, hq, rfl⟩ := h.eq_max (Nat.pos_of_mul_pos_left hpos)
    refine ⟨q, ?_, rfl⟩
    -- The factor cancels in the proportion.
    have hm : (m : ℚ) ≠ 0 := by exact_mod_cast hm.ne'
    push_cast
    rwa [mul_assoc, mul_div_mul_left _ _ hm]

/-- A count out of a total that is the table size is its own share. -/
theorem isShare_self {tableSize : Nat} (hsize : 0 < tableSize) (count : Nat) :
    IsShare tableSize tableSize count count where
  eq_zero h := h
  eq_max h := by
    have hsize : (tableSize : ℚ) ≠ 0 := by exact_mod_cast hsize.ne'
    refine ⟨count, ?_, (max_eq_right h).symm⟩
    rw [mul_div_cancel_right₀ _ hsize]
    exact .natCast count

namespace Histogram

/-- The share of an id. -/
def share (h : Histogram) (tableSize id : Nat) : Nat :=
  Weights.share tableSize h.total (h.count id)

/-- The sum of all shares. -/
def demand (h : Histogram) (tableSize : Nat) : Nat :=
  ((List.range h.alphabetSize).map (h.share tableSize)).sum

variable {h : Histogram} {tableSize : Nat}

/-- An id has a share exactly if it occurs. -/
theorem share_pos_iff {id : Nat} : 0 < h.share tableSize id ↔ 0 < h.count id :=
  Repair.share_pos_iff _ _ _

/-- The share of an id is that of its count out of the total. -/
theorem isShare (htotal : 0 < h.total) (id : Nat) :
    IsShare tableSize h.total (h.count id) (h.share tableSize id) :=
  isShare_share htotal _

/-- A larger count has no smaller share. -/
theorem share_le_share {a b : Nat} (htotal : 0 < h.total) (hab : h.count b ≤ h.count a) :
    h.share tableSize b ≤ h.share tableSize a :=
  (isShare htotal b).le_of_le (isShare htotal a) hab

/-- A repair starts from the shares. -/
theorem getD_weights_start (h : Histogram) (tableSize id : Nat) :
    (Repair.start h tableSize).weights.getD id 0 = h.share tableSize id :=
  Repair.getD_weights_start h tableSize id

/-- A repair starts from the shares of all ids of the alphabet. -/
theorem toList_weights_start (h : Histogram) (tableSize : Nat) :
    (Repair.start h tableSize).weights.toList =
      (List.range h.alphabetSize).map (h.share tableSize) := by
  rw [Array.toList_eq_map_range _ 0, Repair.size_weights_start]
  simp only [getD_weights_start]

/-- What a repair has to settle is by how much the shares miss the table size. -/
theorem deficit_start (h : Histogram) (tableSize : Nat) :
    (Repair.start h tableSize).deficit = tableSize - h.demand tableSize := by
  have hsum : sum (Repair.start h tableSize).weights.toList = h.demand tableSize := by
    rw [toList_weights_start, sum_eq_sum, demand]
  rw [← hsum]
  rfl

end Histogram

end Tans
