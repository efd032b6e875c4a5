import Mathlib.Order.Basic
import Tans.Proofs.Histogram
import Tans.Proofs.Normalize

/-!
# Two ways to count bytes

Bytes are counted over all 256 of them, with the counts cut off behind the largest byte that occurs,
or over an alphabet that grows to each byte that is larger than all before it. Whatever their order,
the outcome is the same histogram.

* `Histogram.eq_of_count_eq`: a histogram is its alphabet and its counts.
* `Histogram.alphabetSize_trimmed_le_iff`, `Histogram.alphabetSize_ofSymbols_le_iff`: the two
  alphabets.
* `Histogram.trimmed_congr`: trimmed histograms of the same counts.
* `Histogram.trimmed_ofBytes_outcome`: the histogram of bytes, from both.
-/

namespace Tans.Histogram

/-- Histograms with the same alphabet and the same counts are the same. -/
theorem eq_of_count_eq {h h' : Histogram} (hsize : h.alphabetSize = h'.alphabetSize)
    (hcount : ∀ id, h.count id = h'.count id) : h = h' := by
  obtain ⟨counts⟩ := h
  obtain ⟨counts'⟩ := h'
  congr 1
  apply Array.ext hsize
  intro id hid hid'
  simpa [count, hid, hid', UInt32.toNat_inj] using hcount id

/-! ### The growing alphabet -/

/-- The growing alphabet ends with the largest id counted. -/
theorem alphabetSize_ofSymbols_le_iff {ids : List Nat} {n : Nat} :
    (ofSymbols ids).alphabetSize ≤ n ↔ ∀ id ∈ ids, id < n := by
  rw [ofSymbols, alphabetSize_foldl_add_le_iff]
  exact and_iff_right (Nat.zero_le n)

/-- Over the growing alphabet, each id is counted as often as it occurs. -/
theorem count_ofSymbols {ids : List Nat} (hlen : ids.length < 2 ^ 32) (id : Nat) :
    (ofSymbols ids).count id = ids.count id := by
  have hempty (i : Nat) : (Histogram.mk #[]).count i = 0 := count_replicate 0 i
  rw [ofSymbols, count_foldl_add fun i => by rw [hempty]; omega, hempty, Nat.zero_add]

/-! ### The alphabet cut off -/

/-- The present ids are listed in ascending order. -/
theorem pairwise_present (h : Histogram) : h.present.Pairwise (· < ·) :=
  List.pairwise_lt_range.filter _

/-- The last id of a trimmed alphabet occurs. -/
theorem count_trimmed_pos {h : Histogram} {id : Nat} (hid : h.trimmed.alphabetSize = id + 1) :
    0 < h.trimmed.count id := by
  -- What is left of the counts is empty, or ends with a count that was no reason to go on.
  have hcounts : h.trimmed.counts.toList = h.counts.toList.rdropWhile (· = 0) := by
    rw [trimmed_eq]
    rfl
  have hlen : (h.counts.toList.rdropWhile (· = 0)).length = id + 1 := by
    rw [← hcounts, Array.length_toList]
    exact hid
  have hlast := List.rdropWhile_last_not (· = 0) h.counts.toList
    (List.ne_nil_of_length_eq_add_one hlen)
  simp only [List.getLast_eq_getElem, hlen, Nat.add_sub_cancel, decide_eq_true_eq] at hlast
  rw [count, Array.getD_eq_getD_getElem?, ← Array.getElem?_toList, hcounts,
    List.getElem?_eq_getElem (by omega), Option.getD_some]
  exact Nat.pos_of_ne_zero fun hzero => hlast (UInt32.toNat_inj.1 hzero)

/-- Trimming leaves an alphabet that ends with the largest id that occurs. -/
theorem alphabetSize_trimmed_le_iff {h : Histogram} {n : Nat} :
    h.trimmed.alphabetSize ≤ n ↔ ∀ id ∈ h.present, id < n := by
  simp only [mem_present, ← h.count_trimmed]
  constructor
  · intro hle id hid
    exact Nat.lt_of_lt_of_le (lt_alphabetSize hid) hle
  -- An alphabet that is not empty ends with an id that occurs.
  · intro hall
    cases hsize : h.trimmed.alphabetSize with
    | zero => exact Nat.zero_le n
    | succ id => exact hall id (count_trimmed_pos hsize)

/-- Trimming leaves nothing but the counts. -/
theorem trimmed_congr {h h' : Histogram} (heq : ∀ id, h.count id = h'.count id) :
    h.trimmed = h'.trimmed := by
  refine eq_of_count_eq (eq_of_forall_ge_iff fun n => ?_) fun id => ?_
  · simp only [alphabetSize_trimmed_le_iff, mem_present, heq]
  · rw [count_trimmed, heq, count_trimmed]

/-- Trimming cuts the counts off behind the largest id that occurs. -/
theorem trimmed_eq_take (h : Histogram) :
    h.trimmed = ⟨h.counts.take (h.present.getLast?.elim 0 (· + 1))⟩ := by
  -- The last of the present ids is the largest.
  have hsize : h.trimmed.alphabetSize = h.present.getLast?.elim 0 (· + 1) := by
    apply eq_of_forall_ge_iff
    intro n
    rw [alphabetSize_trimmed_le_iff, List.getLast?_eq_max? h.pairwise_present,
      List.elim_max?_succ_le_iff]
  -- There are only zeros behind the counts that are left, so leaving them is taking as many.
  obtain ⟨n, hn⟩ := h.exists_padded_trimmed
  have hcounts : h.trimmed.counts ++ Array.replicate n 0 = h.counts := congrArg counts hn
  have htake : h.counts.take h.trimmed.alphabetSize = h.trimmed.counts := by
    rw [← hcounts, alphabetSize]
    simp
  rw [← hsize, htake]

/-! ### Agreement -/

/-- The histogram of fewer than `2 ^ 32` bytes, trimmed, is the one that is counted over a growing
alphabet, and trimming is cutting the counts off behind the largest byte that occurs. Each count is
the number of occurrences of its byte, the alphabet ends with the largest byte (and has no ids at all
if there are no bytes), the total is the number of bytes, and the ids that occur are the bytes that
occur, in ascending order. -/
theorem trimmed_ofBytes_outcome {bytes : List UInt8} (hlen : bytes.length < 2 ^ 32) :
    (ofBytes bytes).trimmed = ofSymbols (bytes.map UInt8.toNat) ∧
    (ofBytes bytes).trimmed =
      ⟨(ofBytes bytes).counts.take ((ofBytes bytes).present.getLast?.elim 0 (· + 1))⟩ ∧
    (∀ id, (ofBytes bytes).trimmed.count id = (bytes.map UInt8.toNat).count id) ∧
    (ofBytes bytes).trimmed.alphabetSize = (bytes.map UInt8.toNat).max?.elim 0 (· + 1) ∧
    (ofBytes bytes).trimmed.total = bytes.length ∧
    (ofBytes bytes).trimmed.present.Pairwise (· < ·) ∧
    ∀ id, id ∈ (ofBytes bytes).trimmed.present ↔ ∃ b ∈ bytes, b.toNat = id := by
  have hcount (id : Nat) : (ofBytes bytes).trimmed.count id = (bytes.map UInt8.toNat).count id := by
    rw [count_trimmed, count_ofBytes hlen]
  -- Both alphabets have just the ids below the same bounds, those of all bytes.
  have hle (n : Nat) :
      (ofBytes bytes).trimmed.alphabetSize ≤ n ↔ ∀ id ∈ bytes.map UInt8.toNat, id < n := by
    rw [alphabetSize_trimmed_le_iff]
    simp only [mem_present, count_ofBytes hlen, List.count_pos_iff]
  refine ⟨eq_of_count_eq (eq_of_forall_ge_iff fun n => ?_) fun id => ?_, trimmed_eq_take _, hcount,
    eq_of_forall_ge_iff fun n => ?_, ?_, pairwise_present _, fun id => ?_⟩
  · rw [hle, alphabetSize_ofSymbols_le_iff]
  · rw [hcount, count_ofSymbols (by rwa [List.length_map])]
  · rw [hle, List.elim_max?_succ_le_iff]
  · rw [total_trimmed, total_ofBytes hlen]
  · rw [mem_present, hcount, List.count_pos_iff, List.mem_map]

/-- Three bytes, the largest of them first and last. -/
theorem trimmed_ofBytes_outcome_three : [2, 0, 2].length < 2 ^ 32 ∧
    (ofBytes [2, 0, 2]).trimmed = ofSymbols [2, 0, 2] ∧
    (ofBytes [2, 0, 2]).trimmed.alphabetSize = 3 ∧ (ofBytes [2, 0, 2]).trimmed.count 2 = 2 ∧
    (ofBytes [2, 0, 2]).trimmed.total = 3 ∧ 2 ∈ (ofBytes [2, 0, 2]).trimmed.present := by
  obtain ⟨heq, -, hcount, hsize, htotal, -, hpresent⟩ :=
    @trimmed_ofBytes_outcome [2, 0, 2] (by decide)
  exact ⟨by decide, heq, hsize.trans (by decide), (hcount 2).trans (by decide), htotal,
    (hpresent 2).2 ⟨2, by decide, rfl⟩⟩

end Tans.Histogram
