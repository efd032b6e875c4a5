import Mathlib.Algebra.Order.BigOperators.Group.List
import Mathlib.Algebra.Order.Ring.Nat
import Tans.Proofs.ForStd
import Tans.Weights.Normalize

/-!
# Normalization ends with nothing left over

A repair stops early only when no id can give a state any more. Then every id that occurs has one
state and no other id has any, which is not more than the table has to offer. A state that is
missing goes to the most frequent id, which is never given up. So the repair always settles the
deficit.

* `Repair.Supported.step`, `Repair.supported_run_start`: exactly the ids that occur have states.
* `Repair.deficit_run_start`: the repair of a histogram that fits the table leaves no deficit.
* `Weights.exists_ofHistogram`, `Weights.ofHistogram_eq_error`: when normalization succeeds, and
  what it reports otherwise.
* `Weights.weight_pos_iff_of_ofHistogram`: which ids have states then.
* `Weights.ofHistogram_normalizes`: what is known of the weights.
-/

namespace Tans

namespace Histogram

/-- The sum of the counts is that of the library. -/
theorem sum_eq_sum (xs : List Nat) : Tans.sum xs = xs.sum := rfl

/-- Only ids of the alphabet occur. -/
theorem lt_alphabetSize {h : Histogram} {id : Nat} (hid : 0 < h.count id) :
    id < h.alphabetSize := by
  by_contra hge
  have hge : h.counts.size ≤ id := Nat.le_of_not_lt hge
  simp [count, hge] at hid

/-- The present ids are those that occur, since outside of the alphabet none does. -/
theorem mem_present {h : Histogram} {id : Nat} : id ∈ h.present ↔ 0 < h.count id := by
  rw [present, List.mem_filter, List.mem_range, decide_eq_true_eq]
  exact and_iff_right_of_imp lt_alphabetSize

/-- Some id occurs if the total is positive. -/
theorem exists_count_pos {h : Histogram} (htotal : 0 < h.total) : ∃ id, 0 < h.count id := by
  by_contra hnone
  -- Every count is that of an id, so it is zero.
  have hzero : ∀ n ∈ h.counts.toList.map UInt32.toNat, n = 0 := by
    intro n hn
    obtain ⟨c, hc, rfl⟩ := List.mem_map.1 hn
    obtain ⟨id, hid, rfl⟩ := List.getElem_of_mem hc
    by_contra hpos
    refine hnone ⟨id, ?_⟩
    have hid : id < h.counts.size := hid
    simpa [count, hid] using Nat.pos_of_ne_zero hpos
  rw [total, sum_eq_sum, List.sum_eq_zero hzero] at htotal
  exact Nat.lt_irrefl 0 htotal

/-- The ids that occur are counted by the counts that are not zero. -/
theorem length_present (h : Histogram) :
    h.present.length = h.counts.toList.countP (· ≠ 0) := by
  rw [h.counts.toList_eq_map_range 0, List.countP_map, present, ← List.countP_eq_length_filter]
  apply List.countP_congr
  intro id _
  simp only [count, Function.comp_apply, decide_eq_true_eq, Nat.pos_iff_ne_zero, ne_eq]
  rw [← UInt32.toNat_inj]
  rfl

/-! ### The order of repair -/

/-- The queue of a repair starts with all ids of the alphabet. -/
theorem mem_byCount {h : Histogram} {id : Nat} : id ∈ h.byCount ↔ id < h.alphabetSize := by
  simp [byCount]

/-- The queue descends by count. -/
theorem pairwise_byCount (h : Histogram) :
    h.byCount.Pairwise fun a b => h.count b ≤ h.count a := by
  -- Sorting needs an order that is transitive and total; the ids are compared by count alone.
  have hsorted : h.byCount.Pairwise fun a b => decide (h.count b ≤ h.count a) :=
    List.pairwise_mergeSort (fun a b c hab hbc => by simp at *; omega)
      (fun a b => by simp; omega) _
  simpa using hsorted

/-- The first id to repair occurs, if any does. -/
theorem exists_byCount_eq_cons {h : Histogram} (htotal : 0 < h.total) :
    ∃ id rest, h.byCount = id :: rest ∧ 0 < h.count id := by
  obtain ⟨most, hmost⟩ := exists_count_pos htotal
  have hmem := mem_byCount.2 (lt_alphabetSize hmost)
  have hsorted := h.pairwise_byCount
  cases hq : h.byCount with
  | nil => simp [hq] at hmem
  | cons id rest =>
    refine ⟨id, rest, rfl, ?_⟩
    rw [hq] at hmem hsorted
    -- An id that occurs is the head, or behind one with at least its count.
    rcases List.mem_cons.1 hmem with rfl | hmem
    · exact hmost
    · exact Nat.lt_of_lt_of_le hmost ((List.pairwise_cons.1 hsorted).1 most hmem)

end Histogram

namespace Repair

/-! ### Which ids have states -/

/-- Exactly the ids that occur have states, those that left the queue have at most one, and the
next one to receive a state occurs. -/
structure Supported (h : Histogram) (r : Repair) : Prop where
  weight_pos_iff : ∀ id, 0 < r.weights.getD id 0 ↔ 0 < h.count id
  weight_le_one : ∀ id ∉ r.queue, r.weights.getD id 0 ≤ 1
  head_pos : 0 < r.deficit → ∃ id rest, r.queue = id :: rest ∧ 0 < h.count id

/-- An id that has states may get more of them, or fewer as long as it keeps one. -/
theorem Supported.modify {h : Histogram} {weights : Array Nat} {id : Nat} {rest : List Nat}
    {deficit : Int} (hr : Supported h ⟨weights, id :: rest, deficit⟩) {f : Nat → Nat}
    (hid : 0 < weights.getD id 0) (hf : 0 < f (weights.getD id 0)) (deficit' : Int) :
    Supported h ⟨weights.modify id f, id :: rest, deficit'⟩ := by
  obtain ⟨hpos, hone, -⟩ := hr
  have hcount : 0 < h.count id := (hpos id).1 hid
  have hlt : id < weights.size := by
    by_contra hge
    simp [Nat.le_of_not_lt hge] at hid
  have hmod := Array.getD_modify weights f hlt 0
  refine ⟨fun i => ?_, fun i hi => ?_, fun _ => ⟨id, rest, rfl, hcount⟩⟩
  · show 0 < (weights.modify id f).getD i 0 ↔ _
    by_cases heq : i = id
    · rw [hmod, if_pos heq, heq]
      exact iff_of_true hf hcount
    · rw [hmod, if_neg heq]
      exact hpos i
  · -- The head is in the queue, so an id outside of it keeps its states.
    have hne : i ≠ id := fun heq => hi (heq ▸ List.mem_cons_self)
    show (weights.modify id f).getD i 0 ≤ 1
    rw [hmod, if_neg hne]
    exact hone i hi

/-- A unit moves from or to an id that keeps a state, so the same ids have states afterwards. -/
theorem Supported.step {h : Histogram} {r : Repair} (hr : r.Supported h) :
    r.step.value.Supported h := by
  obtain ⟨weights, queue, deficit⟩ := r
  -- An empty queue ends the repair; otherwise the head decides.
  cases queue with
  | nil =>
    simp only [Repair.step]
    split <;> exact hr
  | cons id rest =>
    simp only [Repair.step]
    split
    · exact hr
    split
    · -- The head occurs, so it has a state already.
      next hmissing =>
      obtain ⟨_, _, hcons, hcount⟩ := hr.head_pos hmissing
      cases hcons
      exact hr.modify ((hr.weight_pos_iff id).2 hcount) (Nat.succ_pos _) _
    split
    · -- The head keeps a state when it gives one away.
      next hexcess hmany =>
      have hkeeps : 0 < weights.getD id 0 - 1 := Nat.sub_pos_of_lt hmany
      exact hr.modify (Nat.lt_of_succ_lt hmany) hkeeps _
    · -- The head leaves the queue because it has no more than one state.
      next hexcess hfew =>
      refine ⟨hr.weight_pos_iff, fun i hi => ?_, fun h => absurd h hexcess⟩
      by_cases heq : i = id
      · subst heq
        exact Nat.le_of_not_lt hfew
      · exact hr.weight_le_one i (fun hmem => (List.mem_cons.1 hmem).elim heq hi)

/-- An id gets a share exactly when it occurs, however small its part of the total. -/
theorem share_pos_iff (tableSize total count : Nat) :
    0 < Weights.share tableSize total count ↔ 0 < count := by
  unfold Weights.share
  split <;> omega

/-- A repair starts with one weight for each id. -/
theorem size_weights_start (h : Histogram) (tableSize : Nat) :
    (start h tableSize).weights.size = h.alphabetSize := by
  simp [start, Histogram.alphabetSize]

/-- A repair starts with the shares, which are zero outside of the alphabet. -/
theorem getD_weights_start (h : Histogram) (tableSize id : Nat) :
    (start h tableSize).weights.getD id 0 = Weights.share tableSize h.total (h.count id) := by
  by_cases hid : id < h.counts.size
  · simp [start, Histogram.count, hid]
  · simp [start, Histogram.count, hid, Weights.share]

/-- A share is positive exactly for the ids that occur, and all ids are in the queue. -/
theorem supported_start {h : Histogram} (htotal : 0 < h.total) (tableSize : Nat) :
    (start h tableSize).Supported h := by
  refine ⟨fun id => ?_, fun id hid => ?_, fun _ => Histogram.exists_byCount_eq_cons htotal⟩
  · rw [getD_weights_start, share_pos_iff]
  · have hge : ¬ id < h.counts.size := fun hlt => hid (Histogram.mem_byCount.2 hlt)
    simp [start, hge]

/-- At the end of a repair, exactly the ids that occur have states. -/
theorem supported_run_start {h : Histogram} (htotal : 0 < h.total) (tableSize : Nat) :
    (start h tableSize).run.Supported h :=
  run_induction (fun _ => Supported.step) _ (supported_start htotal tableSize)

/-! ### The end of a repair -/

/-- A repair that is done changes nothing, as there is nothing to move or no id to move it. -/
theorem eq_of_step_eq_done {r r' : Repair} (h : r.step = .done r') :
    r' = r ∧ (r.deficit = 0 ∨ r.queue = []) := by
  obtain ⟨weights, queue, deficit⟩ := r
  cases queue <;> grind [Repair.step]

/-- A repair ends when nothing is left to move, or no id is left to move it. -/
theorem deficit_or_queue_run (r : Repair) : r.run.deficit = 0 ∨ r.run.queue = [] := by
  fun_induction run r with
  | case1 r r' hr =>
    obtain ⟨rfl, hend⟩ := eq_of_step_eq_done hr
    exact hend
  | case2 r r' hr ih => exact ih

/-- Numbers that are at most one, and zero outside of `p`, sum to no more than there are in `p`. -/
theorem sum_le_length_filter {p : Nat → Bool} {f : Nat → Nat} (ids : List Nat)
    (h : ∀ id, f id ≤ if p id then 1 else 0) : (ids.map f).sum ≤ (ids.filter p).length := by
  induction ids with
  | nil => simp
  | cons id ids ih =>
    have hid := h id
    rw [List.map_cons, List.sum_cons, List.filter_cons]
    by_cases hp : p id
    · rw [if_pos hp] at hid ⊢
      rw [List.length_cons]
      omega
    · rw [if_neg hp] at hid ⊢
      omega

/-- Nothing is left over if the ids that occur are not more than the states. -/
theorem deficit_run_start {h : Histogram} {tableSize : Nat} (htotal : 0 < h.total)
    (hpresent : h.present.length ≤ tableSize) : (start h tableSize).run.deficit = 0 := by
  have hr := supported_run_start htotal tableSize
  have hsum := (balanced_start h tableSize).run.sum_add_deficit
  have hsize := size_run_start h tableSize
  rcases deficit_or_queue_run (start h tableSize) with hzero | hqueue
  · exact hzero
  · -- No id is left, so there is one state for each id that occurs.
    have hle : ∀ id, (start h tableSize).run.weights.getD id 0 ≤
        if 0 < h.count id then 1 else 0 := fun id => by
      have hone := hr.weight_le_one id (by simp [hqueue])
      have hpos := hr.weight_pos_iff id
      split <;> omega
    have hsum_le : sum (start h tableSize).run.weights.toList ≤ h.present.length := by
      rw [Histogram.sum_eq_sum, Array.toList_eq_map_range _ 0, hsize]
      exact sum_le_length_filter _ (by simpa using hle)
    -- A missing state would still have someone to receive it.
    have hnone : ¬ 0 < (start h tableSize).run.deficit := fun hmissing => by
      obtain ⟨id, rest, hcons, -⟩ := hr.head_pos hmissing
      simp [hqueue] at hcons
    omega

end Repair

/-! ### Normalization -/

/-- A histogram describes a distribution over the states of a table: its ids have sixteen bits,
something occurs, and each id that occurs can have a state of its own. -/
structure Histogram.Fits (h : Histogram) (tableLog : Nat) : Prop where
  alphabetSize_le : h.alphabetSize ≤ maxAlphabetSize
  total_pos : 0 < h.total
  present_le : h.present.length ≤ 2 ^ tableLog

namespace Weights

/-- A histogram that describes a distribution is normalized. -/
theorem exists_ofHistogram {h : Histogram} {tableLog : Nat} (hlog : TableLogInRange tableLog)
    (hfits : h.Fits tableLog) : ∃ w, ofHistogram h tableLog = .ok w ∧ w.tableLog = tableLog := by
  obtain ⟨hsize, htotal, hpresent⟩ := hfits
  rw [← Nat.one_shiftLeft] at hpresent
  -- None of the four tests refuses it, and the repair leaves no deficit.
  rw [ofHistogram, dif_neg (not_not.2 hlog), dif_neg (Nat.not_lt.2 hsize),
    if_neg (Nat.ne_of_gt htotal), if_neg (Nat.not_lt.2 hpresent),
    dif_pos (Repair.deficit_run_start htotal hpresent)]
  exact ⟨_, rfl, rfl⟩

/-- Normalization returns the repaired shares. -/
theorem values_of_ofHistogram {h : Histogram} {tableLog : Nat} {w : Weights}
    (hw : ofHistogram h tableLog = .ok w) :
    w.values = (Repair.start h (1 <<< tableLog)).run.weights ∧ w.tableLog = tableLog := by
  -- Only the last branch returns weights.
  unfold ofHistogram at hw
  split at hw
  · exact nomatch hw
  split at hw
  · exact nomatch hw
  split at hw
  · exact nomatch hw
  split at hw
  · exact nomatch hw
  simp only at hw
  split at hw
  · cases hw
    exact ⟨rfl, rfl⟩
  · exact nomatch hw

/-- Normalization keeps the alphabet. -/
theorem alphabetSize_of_ofHistogram {h : Histogram} {tableLog : Nat} {w : Weights}
    (hw : ofHistogram h tableLog = .ok w) : w.alphabetSize = h.alphabetSize := by
  rw [alphabetSize, (values_of_ofHistogram hw).1, Repair.size_run_start]

/-- A histogram that describes no distribution is refused by one of the tests before the repair. -/
theorem ofHistogram_eq_error {h : Histogram} {tableLog : Nat} (hlog : TableLogInRange tableLog)
    (hfits : ¬ h.Fits tableLog) :
    ∃ fault, ofHistogram h tableLog = .error (.distribution fault) ∧
      ∀ left, fault ≠ .unreconciled left := by
  rw [ofHistogram, dif_neg (not_not.2 hlog)]
  split
  · exact ⟨_, rfl, nofun⟩
  split
  · exact ⟨_, rfl, nofun⟩
  split
  · exact ⟨_, rfl, nofun⟩
  -- It passes all the tests only if it describes a distribution.
  · next hsize htotal hpresent =>
    refine absurd ⟨Nat.le_of_not_lt hsize, Nat.pos_of_ne_zero htotal, ?_⟩ hfits
    rw [← Nat.one_shiftLeft]
    exact Nat.le_of_not_lt hpresent

/-- Only a histogram that describes a distribution is normalized. -/
theorem fits_of_ofHistogram {h : Histogram} {tableLog : Nat} {w : Weights}
    (hw : ofHistogram h tableLog = .ok w) : h.Fits tableLog := by
  by_contra hnot
  have hlog := (values_of_ofHistogram hw).2 ▸ w.tableLog_inRange
  obtain ⟨fault, hfault, -⟩ := ofHistogram_eq_error hlog hnot
  exact nomatch hw.symm.trans hfault

/-- Exactly the ids that occur have states. -/
theorem weight_pos_iff_of_ofHistogram {h : Histogram} {tableLog : Nat} {w : Weights}
    (hw : ofHistogram h tableLog = .ok w) (id : Nat) : 0 < w.weight id ↔ 0 < h.count id := by
  have htotal := (fits_of_ofHistogram hw).total_pos
  rw [weight, (values_of_ofHistogram hw).1]
  exact (Repair.supported_run_start htotal _).weight_pos_iff id

/-- What is reported of a histogram whose ids have sixteen bits. -/
theorem ofHistogram_eq_error_iff {h : Histogram} {tableLog : Nat} {e : SetupError}
    (hsize : h.alphabetSize ≤ maxAlphabetSize) :
    ofHistogram h tableLog = .error e ↔
      ¬ TableLogInRange tableLog ∧ e = .tableLog tableLog maxTableLog ∨
      TableLogInRange tableLog ∧ h.total = 0 ∧ e = .distribution .zeroTotal ∨
      TableLogInRange tableLog ∧ 0 < h.total ∧ 1 <<< tableLog < h.present.length ∧
        e = .distribution (.tooManyPresent h.present.length (1 <<< tableLog)) := by
  rw [ofHistogram]
  -- The tests are made in this order, so each error presumes that those before it passed.
  by_cases hlog : TableLogInRange tableLog
  · rw [dif_neg (not_not.2 hlog), dif_neg (Nat.not_lt.2 hsize)]
    by_cases htotal : h.total = 0
    · rw [if_pos htotal]
      simp [hlog, htotal, eq_comm]
    · have hpos := Nat.pos_of_ne_zero htotal
      rw [if_neg htotal]
      by_cases hmany : 1 <<< tableLog < h.present.length
      · rw [if_pos hmany]
        simp [hlog, hpos, htotal, hmany, eq_comm]
      · have hdeficit := Repair.deficit_run_start hpos (Nat.le_of_not_lt hmany)
        rw [if_neg hmany]
        simp [hlog, htotal, hmany, hdeficit]
  · rw [dif_pos hlog]
    simp [hlog, eq_comm]

/-- Normalization always settles the deficit. -/
theorem ofHistogram_ne_unreconciled (h : Histogram) (tableLog : Nat) (left : Int) :
    ofHistogram h tableLog ≠ .error (.distribution (.unreconciled left)) := by
  intro heq
  -- Either it is normalized, or a test before the repair refuses it.
  by_cases hlog : TableLogInRange tableLog
  · by_cases hfits : h.Fits tableLog
    · obtain ⟨w, hw, -⟩ := exists_ofHistogram hlog hfits
      simp [hw] at heq
    · obtain ⟨fault, hfault, hne⟩ := ofHistogram_eq_error hlog hfits
      simp [hfault, hne] at heq
  · simp [ofHistogram, hlog] at heq

/-- A histogram that describes a distribution over the states of a table is normalized: over the
same alphabet, the weights sum to the table size, and exactly the ids that occur have any. -/
theorem ofHistogram_normalizes {h : Histogram} {tableLog : Nat}
    (hlog : 1 ≤ tableLog ∧ tableLog ≤ 15) (hsize : h.counts.size ≤ 65536) (htotal : 0 < h.total)
    (hpresent : h.counts.toList.countP (· ≠ 0) ≤ 2 ^ tableLog) :
    ∃ w, ofHistogram h tableLog = .ok w ∧ w.tableLog = tableLog ∧
      w.values.size = h.counts.size ∧ w.values.toList.sum = 2 ^ tableLog ∧
      ∀ id, (0 < h.count id → 1 ≤ w.weight id) ∧ (h.count id = 0 → w.weight id = 0) := by
  have hfits : h.Fits tableLog := ⟨hsize, htotal, h.length_present ▸ hpresent⟩
  obtain ⟨w, hw, hwlog⟩ := exists_ofHistogram hlog hfits
  refine ⟨w, hw, hwlog, alphabetSize_of_ofHistogram hw, ?_, fun id => ?_⟩
  · rw [← Histogram.sum_eq_sum, w.sum_eq, hwlog, Nat.one_shiftLeft]
  · have hpos := weight_pos_iff_of_ofHistogram hw id
    exact ⟨hpos.2, fun hzero => Nat.eq_zero_of_not_pos fun h => Nat.ne_of_gt (hpos.1 h) hzero⟩

/-- A rare id keeps a state beside one with the largest count there is. -/
theorem ofHistogram_normalizes_rare :
    ∃ w, ofHistogram ⟨#[1, 0xFFFFFFFF, 0]⟩ 1 = .ok w ∧ w.values.toList.sum = 2 ∧
      1 ≤ w.weight 0 ∧ 1 ≤ w.weight 1 ∧ w.weight 2 = 0 := by
  obtain ⟨w, hw, -, -, hsum, hweight⟩ :=
    @ofHistogram_normalizes ⟨#[1, 0xFFFFFFFF, 0]⟩ 1 (by decide) (by decide) (by decide) (by decide)
  exact ⟨w, hw, hsum, (hweight 0).1 (by decide), (hweight 1).1 (by decide),
    (hweight 2).2 (by decide)⟩

end Weights

end Tans
