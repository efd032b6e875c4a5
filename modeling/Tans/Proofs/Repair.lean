import Mathlib.Data.List.Sort
import Tans.Proofs.Normalize

/-!
# The steps of a repair

A repair asks the ids in a fixed order: by descending count, and in ascending order among ids of the
same count. Each step moves one state to or from the next id, or passes on to the one after it. Ids
that do not occur come last in this order and never have a state to give, so a repair goes the same
way without them.

* `Histogram.pairwise_byCount_precedes`: the order of repair.
* `Repair.step_cases`: all that a step can do.
* `Repair.Supported.run_restrict`, `Weights.values_eq_run_restrict`: the ids that do not occur make
  no difference.
-/

namespace Tans

/-! ### The order of repair -/

namespace Histogram

/-- An id comes before another one in a repair. -/
def Precedes (h : Histogram) (a b : Nat) : Prop :=
  h.count b < h.count a ∨ h.count a = h.count b ∧ a < b

instance (h : Histogram) (a b : Nat) : Decidable (h.Precedes a b) :=
  inferInstanceAs (Decidable (_ ∨ _))

/-- No two ids come before each other. -/
theorem Precedes.antisymm {h : Histogram} {a b : Nat} (hab : h.Precedes a b)
    (hba : h.Precedes b a) : a = b := by
  unfold Precedes at hab hba
  omega

/-- Sorting leaves the ids of one count in ascending order. -/
theorem filter_byCount (h : Histogram) (n : Nat) :
    h.byCount.filter (h.count · = n) = (List.range h.alphabetSize).filter (h.count · = n) := by
  -- All of these ids have the same count.
  have hsorted : ((List.range h.alphabetSize).filter (h.count · = n)).Pairwise fun a b =>
      decide (h.count b ≤ h.count a) = true := by
    apply List.pairwise_of_forall_mem_list
    intro a ha b hb
    have ha := of_decide_eq_true (List.mem_filter.1 ha).2
    have hb := of_decide_eq_true (List.mem_filter.1 hb).2
    rw [ha, hb]
    exact decide_eq_true (Nat.le_refl n)
  -- They are in order already, so sorting keeps them as they stand.
  have hsub : ((List.range h.alphabetSize).filter (h.count · = n)).Sublist h.byCount :=
    List.sublist_mergeSort (fun a b c hab hbc => by simp at *; omega) (fun a b => by simp; omega)
      hsorted List.filter_sublist
  have hsub := hsub.filter (h.count · = n)
  simp only [List.filter_filter, Bool.and_self] at hsub
  exact (hsub.eq_of_length ((List.mergeSort_perm _ _).filter _).length_eq.symm).symm

/-- The queue of a repair is in the order of repair. -/
theorem pairwise_byCount_precedes (h : Histogram) : h.byCount.Pairwise h.Precedes := by
  rw [List.pairwise_iff_forall_sublist]
  intro a b hab
  have hle : h.count b ≤ h.count a :=
    List.pairwise_iff_forall_sublist.1 h.pairwise_byCount hab
  rcases Nat.lt_or_eq_of_le hle with hlt | heq
  · exact .inl hlt
  -- Ids of one count stand in the queue as they do in the alphabet, in ascending order.
  · have htied := hab.filter (h.count · = h.count b)
    rw [filter_byCount, List.filter_cons_of_pos (by simpa using heq.symm),
      List.filter_cons_of_pos (by simp), List.filter_nil] at htied
    have hascending := (List.pairwise_lt_range (n := h.alphabetSize)).filter
      (h.count · = h.count b)
    exact .inr ⟨heq.symm, List.pairwise_iff_forall_sublist.1 hascending htied⟩

/-- The ids that occur, in the order of repair. -/
def ranking (h : Histogram) : List Nat := h.byCount.filter (0 < h.count ·)

/-- The ranking lists the ids that occur. -/
theorem ranking_perm (h : Histogram) : h.ranking.Perm h.present :=
  (List.mergeSort_perm _ _).filter _

/-- The ranking is in the order of repair too. -/
theorem pairwise_ranking (h : Histogram) : h.ranking.Pairwise h.Precedes :=
  h.pairwise_byCount_precedes.filter _

end Histogram

namespace Repair

/-! ### What a step does -/

section

variable {weights : Array Nat} {id : Nat} {rest : List Nat} {deficit : Int}

/-- A state that is missing goes to the next id. -/
theorem step_of_pos (h : 0 < deficit) : step ⟨weights, id :: rest, deficit⟩ =
    .yield ⟨weights.modify id (· + 1), id :: rest, deficit - 1⟩ := by
  simp [step, h, Int.ne_of_gt h]

/-- A state too many is taken from the next id if it has more than one. -/
theorem step_of_neg (h : deficit < 0) (hmany : 1 < weights.getD id 0) :
    step ⟨weights, id :: rest, deficit⟩ =
      .yield ⟨weights.modify id (· - 1), id :: rest, deficit + 1⟩ := by
  simp only [step, if_neg (Int.ne_of_lt h), if_neg (Int.not_lt.2 (Int.le_of_lt h)), if_pos hmany]

/-- An id that has no state to give is passed over. -/
theorem step_of_le_one (h : deficit < 0) (hfew : weights.getD id 0 ≤ 1) :
    step ⟨weights, id :: rest, deficit⟩ = .yield ⟨weights, rest, deficit⟩ := by
  simp only [step, if_neg (Int.ne_of_lt h), if_neg (Int.not_lt.2 (Int.le_of_lt h)),
    if_neg (Nat.not_lt.2 hfew)]

end

/-- A step that goes on gives a state to the next id, takes one from it, or passes it over. -/
theorem step_cases {r r' : Repair} (h : r.step = .yield r') :
    ∃ id rest, r.queue = id :: rest ∧
      ((0 < r.deficit ∧ r' = ⟨r.weights.modify id (· + 1), r.queue, r.deficit - 1⟩) ∨
        (r.deficit < 0 ∧ 1 < r.weights.getD id 0 ∧
          r' = ⟨r.weights.modify id (· - 1), r.queue, r.deficit + 1⟩) ∨
        (r.deficit < 0 ∧ r.weights.getD id 0 ≤ 1 ∧ r' = ⟨r.weights, rest, r.deficit⟩)) := by
  obtain ⟨weights, queue, deficit⟩ := r
  cases queue with
  | nil => simp [step] at h
  | cons id rest =>
    refine ⟨id, rest, rfl, ?_⟩
    dsimp only
    -- Too many states, none to move, or some missing.
    rcases Int.lt_trichotomy deficit 0 with hneg | hzero | hpos
    · right
      by_cases hmany : 1 < weights.getD id 0
      · rw [step_of_neg hneg hmany] at h
        exact .inl ⟨hneg, hmany, (ForInStep.yield.inj h).symm⟩
      · rw [step_of_le_one hneg (Nat.le_of_not_lt hmany)] at h
        exact .inr ⟨hneg, Nat.le_of_not_lt hmany, (ForInStep.yield.inj h).symm⟩
    · simp [step, hzero] at h
    · rw [step_of_pos hpos] at h
      exact .inl ⟨hpos, (ForInStep.yield.inj h).symm⟩

/-- With nothing to move or no id to move it, a repair is done. -/
theorem step_of_done {r : Repair} (h : r.deficit = 0 ∨ r.queue = []) : r.step = .done r := by
  obtain ⟨weights, queue, deficit⟩ := r
  cases queue <;> grind [step]

/-- A repair that is done has run. -/
theorem run_of_step_eq_done {r r' : Repair} (h : r.step = .done r') : r.run = r' := by
  rw [run]
  split
  · next r₁ hr => exact ForInStep.done.inj (hr.symm.trans h)
  · next r₁ hr => cases hr.symm.trans h

/-- A run goes on from where the first step leads. -/
theorem run_of_step_eq_yield {r r' : Repair} (h : r.step = .yield r') : r.run = r'.run := by
  rw [run]
  split
  · next r₁ hr => cases hr.symm.trans h
  · next r₁ hr => rw [ForInStep.yield.inj (hr.symm.trans h)]

/-! ### Ids that do not occur -/

/-- The repair without the ids that do not occur. -/
def restrict (h : Histogram) (r : Repair) : Repair :=
  ⟨r.weights, r.queue.filter (0 < h.count ·), r.deficit⟩

/-- The weights are those of all ids. -/
@[simp]
theorem weights_restrict (h : Histogram) (r : Repair) : (r.restrict h).weights = r.weights := rfl

/-- The deficit is that of all ids. -/
@[simp]
theorem deficit_restrict (h : Histogram) (r : Repair) : (r.restrict h).deficit = r.deficit := rfl

/-- The queue starts with the ids that occur. -/
@[simp]
theorem queue_restrict_start (h : Histogram) (tableSize : Nat) :
    ((start h tableSize).restrict h).queue = h.ranking := rfl

/-- Exactly the ids that occur have states after a step that goes on. -/
theorem Supported.yield {h : Histogram} {r r' : Repair} (hr : r.Supported h)
    (hstep : r.step = .yield r') : r'.Supported h := by
  simpa [hstep, ForInStep.value] using hr.step

/-- A step is the same without the ids that do not occur, or it passes over one of them. -/
theorem Supported.step_restrict {h : Histogram} {r r' : Repair} (hr : r.Supported h)
    (hstep : r.step = .yield r') :
    (r.restrict h).step = .yield (r'.restrict h) ∨ r'.restrict h = r.restrict h := by
  obtain ⟨weights, queue, deficit⟩ := r
  obtain ⟨id, rest, rfl, hcases⟩ := step_cases hstep
  dsimp only at hcases
  by_cases hid : 0 < h.count id
  · left
    have hqueue : (id :: rest).filter (0 < h.count ·) = id :: rest.filter (0 < h.count ·) :=
      List.filter_cons_of_pos (by simpa using hid)
    simp only [restrict, hqueue]
    rcases hcases with ⟨hpos, rfl⟩ | ⟨hneg, hmany, rfl⟩ | ⟨hneg, hfew, rfl⟩
    · rw [hqueue, step_of_pos hpos]
    · rw [hqueue, step_of_neg hneg hmany]
    · rw [step_of_le_one hneg hfew]
  · -- Such an id has no state, so it neither gives nor receives one.
    right
    have hqueue : (id :: rest).filter (0 < h.count ·) = rest.filter (0 < h.count ·) :=
      List.filter_cons_of_neg (by simpa using hid)
    have hzero := mt (hr.weight_pos_iff id).1 hid
    dsimp only at hzero
    rcases hcases with ⟨hpos, rfl⟩ | ⟨hneg, hmany, rfl⟩ | ⟨hneg, hfew, rfl⟩
    · obtain ⟨_, _, hcons, hcount⟩ := hr.head_pos hpos
      cases hcons
      exact absurd hcount hid
    · omega
    · simp only [restrict, hqueue]

/-- A repair goes the same way without the ids that do not occur. -/
theorem Supported.run_restrict {h : Histogram} {r : Repair} (hr : r.Supported h) :
    (r.restrict h).run = r.run.restrict h := by
  -- By induction on the run: a step that passes over an absent id is none of the restricted run.
  fun_induction run r with
  | case1 r r' hdone =>
    obtain ⟨rfl, hend⟩ := eq_of_step_eq_done hdone
    refine run_of_step_eq_done (step_of_done ?_)
    exact hend.imp_right fun hnil => by simp [restrict, hnil]
  | case2 r r' hyield ih =>
    rw [← ih (hr.yield hyield)]
    rcases hr.step_restrict hyield with hstep | heq
    · exact run_of_step_eq_yield hstep
    · rw [heq]

end Repair

/-- Normalization does without the ids that do not occur. -/
theorem Weights.values_eq_run_restrict {h : Histogram} {tableLog : Nat} {w : Weights}
    (hw : ofHistogram h tableLog = .ok w) :
    w.values = ((Repair.start h (1 <<< tableLog)).restrict h).run.weights := by
  have hr := Repair.supported_start (fits_of_ofHistogram hw).total_pos (1 <<< tableLog)
  rw [(values_of_ofHistogram hw).1, hr.run_restrict]
  rfl

end Tans
