import Mathlib.Algebra.Order.BigOperators.Group.List
import Mathlib.Algebra.Order.Ring.Nat
import Mathlib.Data.List.DropRight
import Tans.Weights.Normalize

/-!
# Histograms of sequences

Counting an id extends the alphabet to it, and adds one to its count and to the total as long as no
counter can wrap around, which none does before `2 ^ 32` ids. Trimming drops counts of zero, so it
keeps the others and the total.

* `Histogram.total_ofBytes`, `Histogram.total_trimmed`: totals.
* `Histogram.count_ofBytes`, `Histogram.count_trimmed`: counts.
* `Histogram.alphabetSize_trimmed_le`: the alphabet is not larger than before.
* `Histogram.exists_padded_trimmed`: what trimming takes away.
-/

namespace Tans

namespace Histogram

/-! ### Padding -/

/-- The total is a sum without bounds, not one of machine words. -/
theorem total_eq_sum (h : Histogram) : h.total = (h.counts.toList.map UInt32.toNat).sum := rfl

/-- The same counts over an alphabet with `n` more ids, which do not occur. -/
def padded (h : Histogram) (n : Nat) : Histogram := ⟨h.counts ++ Array.replicate n 0⟩

/-- Padding by `n` ids makes the alphabet larger by `n`. -/
theorem alphabetSize_padded (h : Histogram) (n : Nat) :
    (h.padded n).alphabetSize = h.alphabetSize + n := by
  simp [padded, alphabetSize]

/-- Ids that do not occur have no count, inside the alphabet or out of it. -/
theorem count_padded (h : Histogram) (n id : Nat) : (h.padded n).count id = h.count id := by
  simp only [padded, count, Array.getD_eq_getD_getElem?, Array.getElem?_append,
    Array.getElem?_replicate]
  -- An id below the old size keeps its count, all others have none.
  split
  · rfl
  · next hge => split <;> simp [hge]

/-- Ids that do not occur add nothing to the total. -/
theorem total_padded (h : Histogram) (n : Nat) : (h.padded n).total = h.total := by
  rw [padded, total_eq_sum, Array.toList_append, Array.toList_replicate, List.map_append,
    List.map_replicate, List.sum_append, List.sum_replicate, UInt32.toNat_zero, nsmul_zero,
    Nat.add_zero, total_eq_sum]

/-! ### Counting -/

/-- A counter that cannot wrap around counts as a number does. -/
theorem map_toNat_modify {counts : List UInt32} {id : Nat} (hid : id < counts.length)
    (hfits : counts[id].toNat + 1 < 2 ^ 32) :
    (counts.modify id (· + 1)).map UInt32.toNat = (counts.map UInt32.toNat).modify id (· + 1) := by
  apply List.ext_getElem?
  intro i
  rw [List.getElem?_map, List.getElem?_modify, List.getElem?_modify, List.getElem?_map]
  -- Only at `id` is there something to add, and it fits.
  by_cases hi : id = i
  · subst hi
    simp only [List.getElem?_eq_getElem hid, if_true]
    show some (counts[id] + 1).toNat = some (counts[id].toNat + 1)
    rw [UInt32.toNat_add, UInt32.toNat_one, Nat.mod_eq_of_lt hfits]
  · simp [hi]

/-- Counting an id of the alphabet changes its count only. -/
theorem add_of_lt {h : Histogram} {id : Nat} (hid : id < h.alphabetSize) :
    h.add id = ⟨h.counts.modify id (· + 1)⟩ := by
  have hsize : ¬ h.counts.size ≤ id := Nat.not_le.2 hid
  rw [add, if_neg hsize]

/-- Padding up to an id puts it into the alphabet. -/
theorem lt_alphabetSize_padded (h : Histogram) (id : Nat) :
    id < (h.padded (id + 1 - h.alphabetSize)).alphabetSize := by
  rw [alphabetSize_padded]
  omega

/-- Counting any id is extending the alphabet up to it, and counting it there. -/
theorem add_padded (h : Histogram) (id : Nat) :
    (h.padded (id + 1 - h.alphabetSize)).add id = h.add id := by
  rw [add_of_lt (h.lt_alphabetSize_padded id), add, padded, alphabetSize]
  -- The alphabet ends before the id, or contains it and the padding is empty.
  split
  · rfl
  · next hlt => rw [Nat.sub_eq_zero_of_le (by omega), Array.replicate_zero, Array.append_empty]

/-- Counting an id extends the alphabet to it. -/
theorem alphabetSize_add (h : Histogram) (id : Nat) :
    (h.add id).alphabetSize = max h.alphabetSize (id + 1) := by
  rw [← add_padded, add_of_lt (h.lt_alphabetSize_padded id), alphabetSize, Array.size_modify,
    ← alphabetSize, alphabetSize_padded]
  omega

/-- Counting an id of the alphabet adds one to the total. -/
theorem total_add_of_lt {h : Histogram} {id : Nat} (hid : id < h.alphabetSize)
    (hfits : h.total + 1 < 2 ^ 32) : (h.add id).total = h.total + 1 := by
  have hlen : id < h.counts.toList.length := hid
  -- No counter is larger than the total, so this one does not wrap around.
  have hcount : h.counts.toList[id].toNat ≤ h.total := by
    have hmem : h.counts.toList[id].toNat ∈ h.counts.toList.map UInt32.toNat :=
      List.mem_map_of_mem (List.getElem_mem hlen)
    exact List.le_sum_of_mem hmem
  have hsum := Repair.sum_modify (h.counts.toList.map UInt32.toNat) id (· + 1)
    (by simpa using hlen)
  rw [add_of_lt hid, total, Array.toList_modify, map_toNat_modify hlen (by omega), total]
  omega

/-- The total grows by one if no counter can wrap around. -/
theorem total_add {h : Histogram} (id : Nat) (hfits : h.total + 1 < 2 ^ 32) :
    (h.add id).total = h.total + 1 := by
  rw [← add_padded, total_add_of_lt (h.lt_alphabetSize_padded id) (by rwa [total_padded]),
    total_padded]

/-- Counting an id of the alphabet adds one to its count, and nothing to the others. -/
theorem count_add_of_lt {h : Histogram} {id : Nat} (hid : id < h.alphabetSize)
    (hfits : h.count id + 1 < 2 ^ 32) (i : Nat) :
    (h.add id).count i = h.count i + if id = i then 1 else 0 := by
  simp only [add_of_lt hid, count, Array.getD_eq_getD_getElem?, Array.getElem?_modify] at hfits ⊢
  by_cases hi : id = i
  · subst hi
    have hid : id < h.counts.size := hid
    simp only [if_true, Array.getElem?_eq_getElem hid, Option.map_some, Option.getD_some] at hfits ⊢
    rw [UInt32.toNat_add, UInt32.toNat_one, Nat.mod_eq_of_lt hfits]
  · simp [hi]

/-- One count grows by one if it cannot wrap around, and all others stay. -/
theorem count_add {h : Histogram} {id : Nat} (hfits : h.count id + 1 < 2 ^ 32) (i : Nat) :
    (h.add id).count i = h.count i + if id = i then 1 else 0 := by
  rw [← add_padded, count_add_of_lt (h.lt_alphabetSize_padded id) (by rwa [count_padded]),
    count_padded]

/-- Counting ids extends the alphabet to the largest of them. -/
theorem alphabetSize_foldl_add_le_iff {h : Histogram} {ids : List Nat} {n : Nat} :
    (ids.foldl add h).alphabetSize ≤ n ↔ h.alphabetSize ≤ n ∧ ∀ id ∈ ids, id < n := by
  induction ids generalizing h with
  | nil => simp
  | cons id ids ih =>
    rw [List.foldl_cons, ih, alphabetSize_add, List.forall_mem_cons, Nat.max_le, and_assoc,
      Nat.succ_le_iff]

/-- Counting ids one after another adds their number to the total. -/
theorem total_foldl_add {h : Histogram} {ids : List Nat} (hfits : h.total + ids.length < 2 ^ 32) :
    (ids.foldl add h).total = h.total + ids.length := by
  -- The bound is on what the total becomes, so it passes from each histogram to the next.
  induction ids generalizing h with
  | nil => rfl
  | cons id ids ih =>
    rw [List.length_cons] at hfits
    have htotal := total_add id (h := h) (by omega)
    rw [List.foldl_cons, ih (by omega), htotal, List.length_cons]
    omega

/-- Counting ids one after another adds their occurrences to the counts. -/
theorem count_foldl_add {h : Histogram} {ids : List Nat}
    (hfits : ∀ i, h.count i + ids.length < 2 ^ 32) (i : Nat) :
    (ids.foldl add h).count i = h.count i + ids.count i := by
  induction ids generalizing h with
  | nil => rfl
  | cons id ids ih =>
    simp only [List.length_cons] at hfits
    have hid : h.count id + 1 < 2 ^ 32 := by
      have := hfits id
      omega
    -- What is left is the bound for the histogram with `id` counted.
    rw [List.foldl_cons, ih fun j => ?_, count_add hid, List.count_cons]
    · simp only [beq_iff_eq]
      omega
    · rw [count_add hid]
      have := hfits j
      split <;> omega

/-! ### Sequences of bytes -/

/-- Bytes are counted from zeros, as the ids that they are. -/
theorem ofBytes_eq_foldl (bytes : List UInt8) :
    ofBytes bytes = (bytes.map UInt8.toNat).foldl add ⟨Array.replicate 256 0⟩ := by
  rw [ofBytes, List.foldl_map]

/-- Counts of zero have the total zero. -/
theorem total_replicate (n : Nat) : (Histogram.mk (Array.replicate n 0)).total = 0 := by
  rw [total_eq_sum, Array.toList_replicate, List.map_replicate, List.sum_replicate,
    UInt32.toNat_zero, nsmul_zero]

/-- In counts of zero no id occurs. -/
theorem count_replicate (n id : Nat) : (Histogram.mk (Array.replicate n 0)).count id = 0 := by
  simp only [count, Array.getD_eq_getD_getElem?, Array.getElem?_replicate]
  split <;> rfl

/-- The alphabet of a sequence of bytes is all of them. -/
theorem alphabetSize_ofBytes (bytes : List UInt8) : (ofBytes bytes).alphabetSize = 256 := by
  -- No byte extends the 256 ids that the counting starts with.
  have hle (n : Nat) : (ofBytes bytes).alphabetSize ≤ n ↔ 256 ≤ n := by
    rw [ofBytes_eq_foldl, alphabetSize_foldl_add_le_iff, alphabetSize, Array.size_replicate]
    refine and_iff_left_of_imp fun hn id hid => ?_
    obtain ⟨b, -, rfl⟩ := List.mem_map.1 hid
    exact Nat.lt_of_lt_of_le b.toNat_lt hn
  exact eq_of_forall_ge_iff hle

/-- Counting fewer than `2 ^ 32` bytes counts each of them. -/
theorem total_ofBytes {bytes : List UInt8} (hlen : bytes.length < 2 ^ 32) :
    (ofBytes bytes).total = bytes.length := by
  rw [ofBytes_eq_foldl, total_foldl_add (by rw [total_replicate, List.length_map]; omega),
    total_replicate, List.length_map, Nat.zero_add]

/-- Counting fewer than `2 ^ 32` bytes says how often each of them occurs. -/
theorem count_ofBytes {bytes : List UInt8} (hlen : bytes.length < 2 ^ 32) (id : Nat) :
    (ofBytes bytes).count id = (bytes.map UInt8.toNat).count id := by
  rw [ofBytes_eq_foldl,
    count_foldl_add fun i => by rw [count_replicate, List.length_map]; omega,
    count_replicate, Nat.zero_add]

/-! ### Trimming -/

/-- The array is trimmed as a list is, from its end. -/
theorem trimmed_eq (h : Histogram) :
    h.trimmed = ⟨(h.counts.toList.reverse.dropWhile (· = 0)).reverse.toArray⟩ := by
  obtain ⟨⟨counts⟩⟩ := h
  rw [trimmed, List.popWhile_toArray]

/-- Counts of zero at the front add nothing to a sum. -/
theorem sum_dropWhile_eq_zero (counts : List UInt32) :
    ((counts.dropWhile (· = 0)).map UInt32.toNat).sum = (counts.map UInt32.toNat).sum := by
  induction counts with
  | nil => rfl
  | cons c counts ih =>
    rw [List.dropWhile_cons]
    split
    · next hc =>
      obtain rfl : c = 0 := of_decide_eq_true hc
      simp [ih]
    · rfl

/-- Trimming drops only counts of zero. -/
theorem total_trimmed (h : Histogram) : h.trimmed.total = h.total := by
  rw [trimmed_eq, total_eq_sum, List.map_reverse, List.sum_reverse, sum_dropWhile_eq_zero,
    List.map_reverse, List.sum_reverse, total_eq_sum]

/-- Trimming makes no alphabet larger. -/
theorem alphabetSize_trimmed_le (h : Histogram) : h.trimmed.alphabetSize ≤ h.alphabetSize := by
  have hle := (List.dropWhile_sublist (· = 0) (l := h.counts.toList.reverse)).length_le
  rw [trimmed_eq]
  simpa [alphabetSize] using hle

/-- What trimming takes away are ids that do not occur. -/
theorem exists_padded_trimmed (h : Histogram) : ∃ n, h.trimmed.padded n = h := by
  -- The counts are those that stay and those taken off the end, which are zeros.
  have hsplit : h.counts.toList.rdropWhile (· = 0) ++ h.counts.toList.rtakeWhile (· = 0) =
      h.counts.toList := List.rdropWhile_append_rtakeWhile
  have hzeros : ∀ c ∈ h.counts.toList.rtakeWhile (· = 0), c = 0 := fun c hc => by
    simpa using List.mem_rtakeWhile_imp hc
  rw [List.eq_replicate_of_mem hzeros] at hsplit
  refine ⟨(h.counts.toList.rtakeWhile (· = 0)).length,
    congrArg Histogram.mk (Array.toList_inj.1 ?_)⟩
  rw [trimmed_eq, Array.toList_append, Array.toList_replicate]
  exact hsplit

/-- Trimming changes no count. -/
theorem count_trimmed (h : Histogram) (id : Nat) : h.trimmed.count id = h.count id := by
  obtain ⟨n, hn⟩ := h.exists_padded_trimmed
  rw [← count_padded h.trimmed n, hn]

end Histogram

end Tans
