import Tans.Proofs.Construction
import Tans.Proofs.Histogram
import Tans.Proofs.Repair

/-!
# Renamed ids

Ids that do not occur take up numbers and nothing else. So if the ids of an alphabet get new numbers
in the same order, and the numbers in between are left unused, every id keeps its weight. The order
of repair is the same up to the numbers, so two repairs go side by side and always move a state to
or from the same id.

* `Renames.filter_range`: the numbers in use are those of the ids in use.
* `Histogram.Renames.ranking_eq`: the ids that occur are repaired in the same order.
* `Repair.Renames.step`, `Repair.Renames.run`: two repairs side by side.
* `Weights.renames_of_ofHistogram`, `Weights.ofHistogram_eq_error_of_renames`: normalization.
-/

namespace Tans

/-- The ids below `n` get numbers below `n'`, in the same order. What `f` is for an id, `f'` is for
its number, and `f'` is zero for all numbers that no id has. -/
structure Renames (φ : Nat → Nat) (n n' : Nat) (f f' : Nat → Nat) : Prop where
  lt_of_lt : ∀ a b, a < b → b < n → φ a < φ b
  lt_size : ∀ a < n, φ a < n'
  eq : ∀ a < n, f' (φ a) = f a
  eq_zero : ∀ b < n', (∀ a < n, φ a ≠ b) → f' b = 0

namespace Renames

variable {φ : Nat → Nat} {n n' : Nat} {f f' : Nat → Nat}

/-- Ids that are not renamed, with unused ones behind them. -/
theorem of_le (hle : n ≤ n') (heq : ∀ a < n, f' a = f a) (hzero : ∀ b, n ≤ b → f' b = 0) :
    Renames id n n' f f' where
  lt_of_lt _ _ hlt _ := hlt
  lt_size _ ha := Nat.lt_of_lt_of_le ha hle
  eq := heq
  eq_zero b _ hnone := hzero b (Nat.le_of_not_lt fun hlt => hnone b hlt rfl)

variable (h : Renames φ n n' f f')
include h

/-- Numbers are in the order of their ids. -/
theorem lt_iff {a b : Nat} (ha : a < n) (hb : b < n) : φ a < φ b ↔ a < b := by
  constructor
  · intro hlt
    by_contra hge
    rcases Nat.lt_or_eq_of_le (Nat.le_of_not_lt hge) with hgt | heq
    · exact Nat.lt_asymm hlt (h.lt_of_lt b a hgt ha)
    · rw [heq] at hlt
      exact Nat.lt_irrefl _ hlt
  · intro hlt
    exact h.lt_of_lt a b hlt hb

/-- Different ids have different numbers. -/
theorem inj {a b : Nat} (ha : a < n) (hb : b < n) (heq : φ a = φ b) : a = b := by
  have hab := h.lt_iff ha hb
  have hba := h.lt_iff hb ha
  omega

/-- Only the numbers of ids are used. -/
theorem exists_of_pos {b : Nat} (hb : b < n') (hpos : 0 < f' b) : ∃ a < n, φ a = b := by
  -- A number that no id has stands for nothing.
  by_contra hnone
  push Not at hnone
  rw [h.eq_zero b hb hnone] at hpos
  exact Nat.lt_irrefl 0 hpos

/-- New numbers are not smaller than the old ones. -/
theorem le_apply {a : Nat} (ha : a < n) : a ≤ φ a := by
  induction a with
  | zero => exact Nat.zero_le _
  | succ a ih =>
    have hlt := h.lt_of_lt a (a + 1) (Nat.lt_succ_self a) ha
    have hle := ih (Nat.lt_of_succ_lt ha)
    omega

/-- There are at least as many numbers as ids. -/
theorem size_le : n ≤ n' := by
  cases n with
  | zero => exact Nat.zero_le _
  | succ n =>
    have hle := h.le_apply (Nat.lt_succ_self n)
    have hlt := h.lt_size n (Nat.lt_succ_self n)
    omega

/-- The same for the ids in front of one of them. -/
theorem below {a : Nat} (ha : a < n) : Renames φ a (φ a) f f' where
  lt_of_lt b c hlt hc := h.lt_of_lt b c hlt (Nat.lt_trans hc ha)
  lt_size b hb := h.lt_of_lt b a hb ha
  eq b hb := h.eq b (Nat.lt_trans hb ha)
  eq_zero b hb hnone := by
    refine h.eq_zero b (Nat.lt_trans hb (h.lt_size a ha)) fun c hc heq => ?_
    rw [← heq, h.lt_iff hc ha] at hb
    exact hnone c hb heq

/-- The same for what is computed from `f` and is zero where `f` is. -/
theorem map {g : Nat → Nat} (hg : g 0 = 0) : Renames φ n n' (g ∘ f) (g ∘ f') where
  lt_of_lt := h.lt_of_lt
  lt_size := h.lt_size
  eq a ha := by rw [Function.comp_apply, h.eq a ha, Function.comp_apply]
  eq_zero b hb hnone := by rw [Function.comp_apply, h.eq_zero b hb hnone, hg]

/-- The numbers in use are those of the ids in use, in the same order. -/
theorem filter_range :
    (List.range n').filter (0 < f' ·) = ((List.range n).filter (0 < f ·)).map φ := by
  have hsorted : ((List.range n').filter (0 < f' ·)).SortedLT :=
    (List.pairwise_lt_range.filter _).sortedLT
  have hsorted' : (((List.range n).filter (0 < f ·)).map φ).SortedLT := by
    apply List.Pairwise.sortedLT
    rw [List.pairwise_map]
    refine (List.pairwise_lt_range.filter _).imp_of_mem fun {a b} _ hb hlt => ?_
    exact h.lt_of_lt a b hlt (List.mem_range.1 (List.mem_filter.1 hb).1)
  -- Both lists ascend, so it is enough that they have the same members.
  refine hsorted.eq_of_mem_iff hsorted' fun b => ?_
  simp only [List.mem_filter, List.mem_map, List.mem_range, decide_eq_true_eq]
  constructor
  · intro ⟨hb, hpos⟩
    obtain ⟨a, ha, rfl⟩ := h.exists_of_pos hb hpos
    exact ⟨a, ⟨ha, h.eq a ha ▸ hpos⟩, rfl⟩
  · intro ⟨a, ⟨ha, hpos⟩, heq⟩
    subst heq
    exact ⟨h.lt_size a ha, (h.eq a ha).symm ▸ hpos⟩

/-- The numbers, each as often as `f'` says, are those of the ids, each as often as `f` says. -/
theorem flatMap_range : ((List.range n').flatMap fun b => List.replicate (f' b) b) =
    ((List.range n).flatMap fun a => List.replicate (f a) a).map φ := by
  -- What occurs not once can be left out on both sides.
  have hdrop (f : Nat → Nat) (n : Nat) :
      (List.range n).flatMap (fun a => List.replicate (f a) a) =
        ((List.range n).filter (0 < f ·)).flatMap fun a => List.replicate (f a) a := by
    refine (List.flatMap_filter_of_eq_nil fun a _ ha => ?_).symm
    rw [Nat.eq_zero_of_not_pos (of_decide_eq_false ha), List.replicate_zero]
  rw [hdrop f, hdrop f', h.filter_range, List.flatMap_map, List.map_flatMap]
  apply List.flatMap_congr
  intro a ha
  rw [List.map_replicate, h.eq a (List.mem_range.1 (List.mem_filter.1 ha).1)]

/-- Numbers that no id has add nothing to the sum. -/
theorem sum_range : ((List.range n').map f').sum = ((List.range n).map f).sum := by
  simpa [List.length_flatMap] using congrArg List.length h.flatMap_range

end Renames

/-! ### Histograms -/

namespace Histogram

/-- Two histograms of the same ids, which have other numbers in the second one. -/
def Renames (φ : Nat → Nat) (h h' : Histogram) : Prop :=
  Tans.Renames φ h.alphabetSize h'.alphabetSize h.count h'.count

/-- The total is the sum of the counts of all ids. -/
theorem total_eq_sum_range (h : Histogram) :
    h.total = ((List.range h.alphabetSize).map h.count).sum := by
  rw [total, h.counts.toList_eq_map_range 0, List.map_map, sum_eq_sum]
  rfl

variable {φ : Nat → Nat} {h h' : Histogram}

/-- Renamed ids have the same total. -/
theorem Renames.total_eq (hφ : Renames φ h h') : h'.total = h.total := by
  rw [total_eq_sum_range, total_eq_sum_range, hφ.sum_range]

/-- The numbers that occur are those of the ids that occur. -/
theorem Renames.present_eq (hφ : Renames φ h h') : h'.present = h.present.map φ :=
  hφ.filter_range

/-- One id comes before another one in a repair when its number does. -/
theorem Renames.precedes (hφ : Renames φ h h') {a b : Nat} (ha : a < h.alphabetSize)
    (hb : b < h.alphabetSize) (hab : h.Precedes a b) : h'.Precedes (φ a) (φ b) := by
  unfold Precedes at hab ⊢
  rw [hφ.eq a ha, hφ.eq b hb, hφ.lt_iff ha hb]
  exact hab

/-- The ids that occur are repaired in the same order. -/
theorem Renames.ranking_eq (hφ : Renames φ h h') : h'.ranking = h.ranking.map φ := by
  have hsame : h'.ranking.Perm (h.ranking.map φ) := by
    refine h'.ranking_perm.trans ?_
    rw [hφ.present_eq]
    exact (h.ranking_perm.map φ).symm
  have hmapped : (h.ranking.map φ).Pairwise h'.Precedes := by
    rw [List.pairwise_map]
    refine h.pairwise_ranking.imp_of_mem fun {a b} ha hb hab => ?_
    exact hφ.precedes (mem_byCount.1 (List.mem_filter.1 ha).1)
      (mem_byCount.1 (List.mem_filter.1 hb).1) hab
  -- The order of repair is strict, so there is only one arrangement that respects it.
  exact hsame.eq_of_pairwise (fun a b _ _ => Precedes.antisymm) h'.pairwise_ranking hmapped

/-- Ids that do not occur can be added behind all others. -/
theorem renames_padded (h : Histogram) (n : Nat) : h.Renames id (h.padded n) := by
  refine .of_le ?_ (fun a _ => h.count_padded n a) fun b hb => ?_
  · rw [alphabetSize_padded]
    exact Nat.le_add_right _ _
  · rw [count_padded]
    exact Nat.eq_zero_of_not_pos fun hpos => Nat.not_lt.2 hb (lt_alphabetSize hpos)

end Histogram

/-! ### Repairs -/

namespace Repair

/-- Two repairs side by side. -/
structure Renames (φ : Nat → Nat) (r r' : Repair) : Prop where
  weights : Tans.Renames φ r.weights.size r'.weights.size (r.weights.getD · 0) (r'.weights.getD · 0)
  queue_lt : ∀ id ∈ r.queue, id < r.weights.size
  queue_eq : r'.queue = r.queue.map φ
  deficit_eq : r'.deficit = r.deficit

variable {φ : Nat → Nat}

/-- The same change of one weight on both sides. -/
theorem renames_modify {weights weights' : Array Nat} {id : Nat} (f : Nat → Nat)
    (h : Tans.Renames φ weights.size weights'.size (weights.getD · 0) (weights'.getD · 0))
    (hid : id < weights.size) :
    Tans.Renames φ (weights.modify id f).size (weights'.modify (φ id) f).size
      ((weights.modify id f).getD · 0) ((weights'.modify (φ id) f).getD · 0) := by
  have hmod := Array.getD_modify weights f hid 0
  have hmod' := Array.getD_modify weights' f (h.lt_size id hid) 0
  rw [Array.size_modify, Array.size_modify]
  refine ⟨h.lt_of_lt, h.lt_size, fun a ha => ?_, fun b hb hnone => ?_⟩
  -- The id that is changed, or another one with another number.
  · by_cases heq : a = id
    · subst heq
      rw [hmod, hmod', if_pos rfl, if_pos rfl, h.eq a ha]
    · have hne : φ a ≠ φ id := fun hφ => heq (h.inj ha hid hφ)
      rw [hmod, hmod', if_neg heq, if_neg hne, h.eq a ha]
  -- A number that no id has is not the one that is changed.
  · rw [hmod', if_neg fun heq => hnone id hid heq.symm]
    exact h.eq_zero b hb hnone

/-- Two repairs take their steps together. -/
theorem Renames.step {r r' r₁ : Repair} (h : Renames φ r r') (hstep : r.step = .yield r₁) :
    ∃ r₁', r'.step = .yield r₁' ∧ Renames φ r₁ r₁' := by
  obtain ⟨id, rest, hqueue, hcases⟩ := step_cases hstep
  obtain ⟨weights', queue', deficit'⟩ := r'
  obtain ⟨hweights, hlt, rfl, rfl⟩ := h
  rw [hqueue] at hlt hcases ⊢
  obtain ⟨hid, hrest⟩ := List.forall_mem_cons.1 hlt
  -- Which branch is taken depends on the deficit and on the weight of the head, and both agree.
  have heq := hweights.eq id hid
  rcases hcases with ⟨hpos, rfl⟩ | ⟨hneg, hmany, rfl⟩ | ⟨hneg, hfew, rfl⟩
  · refine ⟨_, step_of_pos hpos, renames_modify _ hweights hid, ?_, rfl, rfl⟩
    simpa using hlt
  · rw [← heq] at hmany
    refine ⟨_, step_of_neg hneg hmany, renames_modify _ hweights hid, ?_, rfl, rfl⟩
    simpa using hlt
  · rw [← heq] at hfew
    exact ⟨_, step_of_le_one hneg hfew, hweights, hrest, rfl, rfl⟩

/-- Two repairs come to their ends together. -/
theorem Renames.run {r r' : Repair} (h : Renames φ r r') : Renames φ r.run r'.run := by
  -- By induction on the first run. The second one goes on exactly where the first one does.
  fun_induction Repair.run r generalizing r' with
  | case1 r r₁ hdone =>
    obtain ⟨rfl, hend⟩ := eq_of_step_eq_done hdone
    have hend' : r'.deficit = 0 ∨ r'.queue = [] := by
      rw [h.deficit_eq, h.queue_eq, List.map_eq_nil_iff]
      exact hend
    rw [run_of_step_eq_done (step_of_done hend')]
    exact h
  | case2 r r₁ hyield ih =>
    obtain ⟨r₁', hstep', h₁⟩ := h.step hyield
    rw [run_of_step_eq_yield hstep']
    exact ih h₁

/-- Two repairs start side by side, if the ids that do not occur are left out. -/
theorem renames_start {h h' : Histogram} (hφ : h.Renames φ h') (tableSize : Nat) :
    Renames φ ((start h tableSize).restrict h) ((start h' tableSize).restrict h') := by
  have hweights : Tans.Renames φ (start h tableSize).weights.size (start h' tableSize).weights.size
      ((start h tableSize).weights.getD · 0) ((start h' tableSize).weights.getD · 0) := by
    simp only [size_weights_start, getD_weights_start, hφ.total_eq]
    exact hφ.map (g := Weights.share tableSize h.total) rfl
  refine ⟨hweights, fun id hid => ?_, hφ.ranking_eq, ?_⟩
  · rw [restrict, size_weights_start]
    exact Histogram.mem_byCount.1 (List.mem_filter.1 hid).1
  · -- Both have as many states to move, since their weights have the same sum.
    have hsum := hweights.sum_range
    simp only [start, restrict, Histogram.sum_eq_sum, Array.toList_eq_map_range _ 0] at hsum ⊢
    rw [hsum]

end Repair

/-! ### Normalization -/

namespace Weights

/-- Weights of the same ids, which have other numbers in the second ones. -/
structure Renames (φ : Nat → Nat) (w w' : Weights) : Prop where
  weights : Tans.Renames φ w.alphabetSize w'.alphabetSize w.weight w'.weight
  tableLog_eq : w'.tableLog = w.tableLog

variable {φ : Nat → Nat} {h h' : Histogram} {tableLog : Nat}

/-- Renamed ids keep their weights. -/
theorem renames_of_ofHistogram {w w' : Weights} (hφ : h.Renames φ h')
    (hw : ofHistogram h tableLog = .ok w) (hw' : ofHistogram h' tableLog = .ok w') :
    Renames φ w w' := by
  -- The queues agree only without the ids that do not occur, and these make no difference.
  have hrun := (Repair.renames_start hφ (1 <<< tableLog)).run.weights
  rw [← values_eq_run_restrict hw, ← values_eq_run_restrict hw'] at hrun
  exact ⟨hrun, (values_of_ofHistogram hw').2.trans (values_of_ofHistogram hw).2.symm⟩

/-- Renamed ids change nothing about what is reported. -/
theorem ofHistogram_eq_error_of_renames {e : SetupError} (hφ : h.Renames φ h')
    (hsize : h'.alphabetSize ≤ maxAlphabetSize) :
    ofHistogram h' tableLog = .error e ↔ ofHistogram h tableLog = .error e := by
  rw [ofHistogram_eq_error_iff hsize, ofHistogram_eq_error_iff (Nat.le_trans hφ.size_le hsize),
    hφ.total_eq, hφ.present_eq, List.length_map]

end Weights

end Tans
