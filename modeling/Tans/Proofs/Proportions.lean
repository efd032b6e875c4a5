import Mathlib.Algebra.BigOperators.Ring.List
import Tans.Proofs.Renaming
import Tans.Proofs.Shares
import Tans.Proofs.Width

/-!
# Only proportions count

Normalization reads counts for two things: their proportions and their order. So the multiples of
counts give the same weights, or are refused for the same reason. Weights that are taken as counts
have the table size as their total. Each is its own share then, so nothing has to be repaired, and
normalization returns the weights themselves.

* `Histogram.Proportional`, `Repair.start_eq_of_proportional`: a repair starts from the same shares.
* `Weights.ofHistogram_eq_of_proportional`: normalization of proportional histograms.
* `Weights.ofHistogram_toHistogram`, `Tables.ofHistogram_toHistogram`: weights taken as counts.
* `Weights.ofHistogram_scaled_and_toHistogram`: what normalization returns of multiples and weights.
-/

namespace Tans

/-! ### Proportional counts -/

namespace Histogram

/-- Two histograms of the same ids that have a common multiple. -/
structure Proportional (h h' : Histogram) : Prop where
  alphabetSize_eq : h'.alphabetSize = h.alphabetSize
  exists_mul_count_eq : ∃ m m', 0 < m ∧ 0 < m' ∧ ∀ id, m' * h'.count id = m * h.count id

/-- All counts times a number. -/
def scaled (h : Histogram) (m : Nat) : Histogram :=
  ⟨h.counts.map fun c => UInt32.ofNat (m * c.toNat)⟩

/-- Multiples are counts of the same alphabet. -/
theorem alphabetSize_scaled (h : Histogram) (m : Nat) :
    (h.scaled m).alphabetSize = h.alphabetSize := by
  simp [scaled, alphabetSize]

variable {h h' : Histogram} {m tableSize : Nat}

/-- Products that fit 32 bits are the counts. -/
theorem count_scaled (hfits : ∀ c ∈ h.counts, m * c.toNat < 2 ^ 32) (id : Nat) :
    (h.scaled m).count id = m * h.count id := by
  by_cases hid : id < h.counts.size
  · have hlt := hfits h.counts[id] (Array.getElem_mem hid)
    simpa [count, scaled, hid] using UInt32.toNat_ofNat_of_lt' hlt
  · simp [count, scaled, hid]

/-- A histogram and its multiple are proportional. -/
theorem proportional_scaled (hm : 0 < m) (hfits : ∀ c ∈ h.counts, m * c.toNat < 2 ^ 32) :
    h.Proportional (h.scaled m) where
  alphabetSize_eq := h.alphabetSize_scaled m
  exists_mul_count_eq :=
    ⟨m, 1, hm, Nat.one_pos, fun id => by rw [count_scaled hfits, Nat.one_mul]⟩

namespace Proportional

variable (hp : h.Proportional h')
include hp

/-- Proportional counts are in the same order. -/
theorem count_le_count_iff (a b : Nat) : h'.count a ≤ h'.count b ↔ h.count a ≤ h.count b := by
  obtain ⟨m, m', hm, hm', hcount⟩ := hp.exists_mul_count_eq
  -- Both sides are compared at their common multiple.
  rw [← Nat.mul_le_mul_left_iff hm', hcount, hcount, Nat.mul_le_mul_left_iff hm]

/-- The same ids occur. -/
theorem count_pos_iff (id : Nat) : 0 < h'.count id ↔ 0 < h.count id := by
  obtain ⟨m, m', hm, hm', hcount⟩ := hp.exists_mul_count_eq
  rw [← Nat.mul_pos_iff_of_pos_left hm', hcount, Nat.mul_pos_iff_of_pos_left hm]

/-- The present ids are the same. -/
theorem present_eq : h'.present = h.present := by
  simp only [present, hp.alphabetSize_eq, hp.count_pos_iff]

/-- The order of repair is the same. -/
theorem byCount_eq : h'.byCount = h.byCount := by
  simp only [byCount, hp.alphabetSize_eq, hp.count_le_count_iff]

/-- The totals are in the proportion of the counts. -/
theorem exists_mul_eq : ∃ m m', 0 < m ∧ 0 < m' ∧ m' * h'.total = m * h.total ∧
    ∀ id, m' * h'.count id = m * h.count id := by
  obtain ⟨m, m', hm, hm', hcount⟩ := hp.exists_mul_count_eq
  refine ⟨m, m', hm, hm', ?_, hcount⟩
  rw [total_eq_sum_range, total_eq_sum_range, hp.alphabetSize_eq, ← List.sum_map_mul_left,
    ← List.sum_map_mul_left]
  simp only [hcount]

/-- Both totals are positive, or none is. -/
theorem total_pos_iff : 0 < h'.total ↔ 0 < h.total := by
  obtain ⟨m, m', hm, hm', htotal, -⟩ := hp.exists_mul_eq
  rw [← Nat.mul_pos_iff_of_pos_left hm', htotal, Nat.mul_pos_iff_of_pos_left hm]

/-- Each id has the same share. -/
theorem share_eq (htotal : 0 < h.total) : h'.share tableSize = h.share tableSize := by
  funext id
  obtain ⟨m, m', hm, hm', htotal_eq, hcount⟩ := hp.exists_mul_eq
  -- Taken in the common multiple, both shares are of one count out of one total.
  have hshare : IsShare tableSize (m * h.total) (m * h.count id) _ :=
    (isShare htotal id).mul_left hm
  have hshare' : IsShare tableSize (m' * h'.total) (m' * h'.count id) _ :=
    (isShare (hp.total_pos_iff.2 htotal) id).mul_left hm'
  rw [htotal_eq, hcount] at hshare'
  exact hshare'.unique hshare

end Proportional

/-- Each id that occurs is counted at least once. -/
theorem length_present_le_total (h : Histogram) : h.present.length ≤ h.total := by
  -- A present id has a count of at least one.
  have hone : ∀ n ∈ h.present.map h.count, 1 ≤ n := by
    intro n hn
    obtain ⟨id, hid, rfl⟩ := List.mem_map.1 hn
    exact of_decide_eq_true (List.mem_filter.1 hid).2
  have hsub : (h.present.map h.count).Sublist ((List.range h.alphabetSize).map h.count) :=
    List.filter_sublist.map _
  calc h.present.length = (h.present.map h.count).length := (List.length_map _).symm
    _ ≤ (h.present.map h.count).sum := List.length_le_sum_of_one_le _ hone
    _ ≤ ((List.range h.alphabetSize).map h.count).sum := hsub.sum_le_sum fun n _ => Nat.zero_le n
    _ = h.total := h.total_eq_sum_range.symm

end Histogram

/-- A repair starts from the same shares, in the same order and with the same deficit. -/
theorem Repair.start_eq_of_proportional {h h' : Histogram} (hp : h.Proportional h')
    (htotal : 0 < h.total) (tableSize : Nat) : start h' tableSize = start h tableSize := by
  have hweights : (start h' tableSize).weights = (start h tableSize).weights := by
    rw [← Array.toList_inj, Histogram.toList_weights_start, Histogram.toList_weights_start,
      hp.alphabetSize_eq, hp.share_eq htotal]
  unfold start at hweights ⊢
  dsimp only at hweights ⊢
  rw [hweights, hp.byCount_eq]

namespace Weights

/-- Proportional histograms have the same weights, or are refused for the same reason. -/
theorem ofHistogram_eq_of_proportional {h h' : Histogram} (hp : h.Proportional h')
    (tableLog : Nat) : ofHistogram h' tableLog = ofHistogram h tableLog := by
  -- Without a total there are no shares to compare, but then both histograms are refused.
  rcases Nat.eq_zero_or_pos h.total with hzero | hpos
  · have hzero' : h'.total = 0 :=
      Nat.eq_zero_of_not_pos (mt hp.total_pos_iff.1 (Nat.not_lt.2 hzero.le))
    simp only [ofHistogram, hp.alphabetSize_eq, hzero, hzero', if_true]
  · have hne : h'.total ≠ 0 := (hp.total_pos_iff.2 hpos).ne'
    simp only [ofHistogram, hp.alphabetSize_eq, hp.present_eq, hpos.ne', hne, if_false,
      Repair.start_eq_of_proportional hp hpos]

/-! ### Weights taken as counts -/

/-- The histogram that counts each id as often as its weight says. -/
def toHistogram (w : Weights) : Histogram := ⟨w.values.map UInt32.ofNat⟩

variable (w : Weights)

/-- The counts are over the alphabet of the weights. -/
theorem alphabetSize_toHistogram : w.toHistogram.alphabetSize = w.alphabetSize := by
  simp [toHistogram, Histogram.alphabetSize, alphabetSize]

/-- No weight is too large for a count. -/
theorem count_toHistogram (id : Nat) : w.toHistogram.count id = w.weight id := by
  have hle := w.weight_le id
  have hsize := w.tableLog_inRange.two_pow_le
  rw [tableSize_eq_two_pow] at hle
  by_cases hid : id < w.values.size
  · have hlt : w.values[id] < 2 ^ 32 := by
      rw [weight, Array.getD_eq_getD_getElem?, Array.getElem?_eq_getElem hid] at hle
      exact Nat.lt_of_le_of_lt hle (Nat.lt_of_le_of_lt hsize (by decide))
    simpa [Histogram.count, toHistogram, weight, hid] using UInt32.toNat_ofNat_of_lt' hlt
  · simp [Histogram.count, toHistogram, weight, hid]

/-- Weights taken as counts have the table size as their total. -/
theorem total_toHistogram : w.toHistogram.total = w.tableSize := by
  rw [Histogram.total_eq_sum_range, alphabetSize_toHistogram,
    show w.toHistogram.count = w.weight from funext w.count_toHistogram, sum_map_weight]

/-- Each weight is its own share. -/
theorem share_toHistogram : w.toHistogram.share w.tableSize = w.weight := by
  funext id
  have hshare := isShare_self (Spread.tableSize_pos w) (w.weight id)
  have hshare' : IsShare w.tableSize w.toHistogram.total (w.toHistogram.count id) _ :=
    Histogram.isShare (w.total_toHistogram ▸ Spread.tableSize_pos w) id
  rw [total_toHistogram, count_toHistogram] at hshare'
  exact hshare'.unique hshare

/-- There are states for all ids that have weights. -/
theorem fits_toHistogram : w.toHistogram.Fits w.tableLog where
  alphabetSize_le := w.alphabetSize_toHistogram ▸ w.size_le
  total_pos := w.total_toHistogram ▸ Spread.tableSize_pos w
  present_le := by
    rw [← tableSize_eq_two_pow, ← total_toHistogram]
    exact w.toHistogram.length_present_le_total

/-- A repair of weights has nothing to do. -/
theorem run_start_toHistogram :
    (Repair.start w.toHistogram w.tableSize).run.weights = w.values := by
  -- The shares are the weights, which fill the table, so no state is missing and none too many.
  have hvalues : (Repair.start w.toHistogram w.tableSize).weights = w.values := by
    rw [← Array.toList_inj, Histogram.toList_weights_start, alphabetSize_toHistogram,
      share_toHistogram]
    exact (Array.toList_eq_map_range _ 0).symm
  have hdeficit : (Repair.start w.toHistogram w.tableSize).deficit = 0 := by
    have hsum : sum w.values.toList = w.tableSize := w.sum_eq
    have hbalanced := (Repair.balanced_start w.toHistogram w.tableSize).sum_add_deficit
    rw [hvalues, hsum] at hbalanced
    omega
  rw [Repair.run_of_step_eq_done (Repair.step_of_done (.inl hdeficit)), hvalues]

/-- Normalization returns weights that are taken as counts. -/
theorem ofHistogram_toHistogram : ofHistogram w.toHistogram w.tableLog = .ok w := by
  obtain ⟨w', hw', hlog⟩ := exists_ofHistogram w.tableLog_inRange w.fits_toHistogram
  have hvalues : w'.values = w.values :=
    (values_of_ofHistogram hw').1.trans w.run_start_toHistogram
  -- Weights are equal when their values and their table size are; what else they hold are proofs.
  obtain ⟨values, tableLog, _, _, _⟩ := w
  obtain ⟨values', tableLog', _, _, _⟩ := w'
  obtain rfl : values' = values := hvalues
  obtain rfl : tableLog' = tableLog := hlog
  exact hw'

/-- Weights that are accepted as they are have the given values and the given table size. -/
theorem ofValues_eq_ok_iff {values : Array Nat} {tableLog : Nat} {w : Weights} :
    ofValues values tableLog = .ok w ↔ w.values = values ∧ w.tableLog = tableLog := by
  constructor
  · intro h
    unfold ofValues at h
    split at h
    · cases h
    split at h
    · cases h
    split at h
    · cases h
      exact ⟨rfl, rfl⟩
    · cases h
  · rintro ⟨rfl, rfl⟩
    rw [ofValues, dif_neg (not_not.2 w.tableLog_inRange), dif_neg (Nat.not_lt.2 w.size_le),
      dif_pos w.sum_eq]

end Weights

/-- Tables are the same from weights and from the histogram with these counts. -/
theorem Tables.ofHistogram_toHistogram (w : Weights) (lengthBits : Nat) :
    ofHistogram w.toHistogram ⟨w.tableLog, lengthBits⟩ = ofWeights w ⟨w.tableLog, lengthBits⟩ := by
  -- Either both ways refuse the parameters, or both come to the same weights.
  cases hcheck : Params.check ⟨w.tableLog, lengthBits⟩ with
  | error e => rw [ofHistogram_of_check hcheck, ofWeights_of_check hcheck]
  | ok =>
    rw [ofHistogram, hcheck, w.ofHistogram_toHistogram]
    rfl

/-- Normalization depends on nothing but proportions, and it keeps what is normalized. A multiple of
a histogram whose counts fit 32 bits has the same weights, or is refused for the same reason.
Weights that were accepted as they are, taken as counts, have themselves as weights, and they give
the same tables either way. -/
theorem Weights.ofHistogram_scaled_and_toHistogram :
    (∀ (h : Histogram) (tableLog m : Nat), 1 ≤ m →
      (∀ c ∈ h.counts, m * c.toNat < 2 ^ 32) → (h.scaled m).alphabetSize = h.alphabetSize ∧
      (∀ id, (h.scaled m).count id = m * h.count id) ∧
      ofHistogram (h.scaled m) tableLog = ofHistogram h tableLog) ∧
    ∀ (values : Array Nat) (tableLog : Nat) (w : Weights), ofValues values tableLog = .ok w →
      w.toHistogram.alphabetSize = values.size ∧
      (∀ id, w.toHistogram.count id = values.getD id 0) ∧
      ofHistogram w.toHistogram tableLog = .ok w ∧
      ∀ lengthBits,
        Tables.ofHistogram w.toHistogram ⟨tableLog, lengthBits⟩ =
          Tables.ofWeights w ⟨tableLog, lengthBits⟩ ∧
        (1 ≤ lengthBits ∧ lengthBits ≤ 32 →
          ∃ t, Tables.ofWeights w ⟨tableLog, lengthBits⟩ = .ok t) := by
  constructor
  · intro h tableLog m hm hfits
    have hp := Histogram.proportional_scaled hm hfits
    exact ⟨h.alphabetSize_scaled m, Histogram.count_scaled hfits,
      ofHistogram_eq_of_proportional hp tableLog⟩
  · intro values tableLog w hw
    obtain ⟨rfl, rfl⟩ := ofValues_eq_ok_iff.1 hw
    refine ⟨w.alphabetSize_toHistogram, w.count_toHistogram, w.ofHistogram_toHistogram,
      fun lengthBits => ⟨Tables.ofHistogram_toHistogram w lengthBits, fun hbits => ?_⟩⟩
    have hvalid : Params.Valid ⟨w.tableLog, lengthBits⟩ := ⟨w.tableLog_inRange, hbits⟩
    obtain ⟨t, ht, -⟩ := Tables.exists_ofWeights hvalid rfl
    exact ⟨t, ht⟩

/-- Counts three times as large as 1, 3 and 4, of which the first two ask for half a state and for
one and a half. Also the weights 1, 2, 0 and 1, taken as counts. -/
theorem Weights.ofHistogram_scaled_and_toHistogram_four :
    ofHistogram ⟨#[3, 9, 12]⟩ 2 = ofHistogram ⟨#[1, 3, 4]⟩ 2 ∧
    ∃ w, ofValues #[1, 2, 0, 1] 2 = .ok w ∧ ofHistogram ⟨#[1, 2, 0, 1]⟩ 2 = .ok w ∧
      ∃ t, Tables.ofHistogram ⟨#[1, 2, 0, 1]⟩ ⟨2, 16⟩ = .ok t ∧
        Tables.ofWeights w ⟨2, 16⟩ = .ok t := by
  obtain ⟨hscaled, hfixed⟩ := ofHistogram_scaled_and_toHistogram
  have hthree : Histogram.scaled ⟨#[1, 3, 4]⟩ 3 = ⟨#[3, 9, 12]⟩ := by
    simp [Histogram.scaled]
  obtain ⟨w, haccepted, hvalues⟩ :
      ∃ w, ofValues #[1, 2, 0, 1] 2 = .ok w ∧ w.values = #[1, 2, 0, 1] := ⟨_, rfl, rfl⟩
  have hcounts : w.toHistogram = ⟨#[1, 2, 0, 1]⟩ := by
    simp [toHistogram, hvalues]
  obtain ⟨-, -, hsame⟩ := hscaled ⟨#[1, 3, 4]⟩ 2 3 (by decide) (by simp)
  obtain ⟨-, -, hw, htables⟩ := hfixed _ _ w haccepted
  obtain ⟨heq, hok⟩ := htables 16
  obtain ⟨t, ht⟩ := hok (by decide)
  rw [hthree] at hsame
  rw [hcounts] at hw heq
  exact ⟨hsame, w, haccepted, hw, t, heq.trans ht, ht⟩

end Tans
