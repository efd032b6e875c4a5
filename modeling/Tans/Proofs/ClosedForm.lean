import Tans.Proofs.Repair
import Tans.Proofs.Shares

/-!
# What a repair comes to

A repair moves one state at a time, but its end can be told from its start. A table that is not
full gives all that is left to the most frequent id. From a table that is too full each id in turn,
the most frequent one first, takes as much as it can until enough is taken: so in the order of
repair the ids up to some point are left with one state, and those behind it with their share.

* `Repair.reduce`, `Repair.outcome`: the end of a repair in closed form.
* `Repair.outcome_step`, `Repair.getD_run`: a step does not change it, so a run arrives there.
* `Repair.exists_steps_run`: the number of steps.
* `Weights.ofHistogram_closedForm`: the weights of a histogram.
-/

namespace Tans

namespace Repair

/-! ### Steps -/

/-- A repair gets from one state to another in a number of steps. -/
inductive Steps : Nat → Repair → Repair → Prop
  | refl (r : Repair) : Steps 0 r r
  | head {n : Nat} {r r' r'' : Repair} :
      r.step = .yield r' → Steps n r' r'' → Steps (n + 1) r r''

/-- A run ends where no step goes on. -/
theorem step_run (r : Repair) : r.run.step = .done r.run := by
  fun_induction run r with
  | case1 r r' hdone =>
    obtain ⟨rfl, -⟩ := eq_of_step_eq_done hdone
    exact hdone
  | case2 r r' hyield ih => exact ih

/-- A run is a number of steps, for which its measure leaves room. -/
theorem exists_steps_run (r : Repair) : ∃ n ≤ r.stepsLeft, Steps n r r.run := by
  fun_induction run r with
  | case1 r r' hdone =>
    obtain ⟨rfl, -⟩ := eq_of_step_eq_done hdone
    exact ⟨0, Nat.zero_le _, .refl r'⟩
  | case2 r r' hyield ih =>
    obtain ⟨n, hn, hsteps⟩ := ih
    exact ⟨n + 1, Nat.lt_of_le_of_lt hn (stepsLeft_lt_of_step hyield), .head hyield hsteps⟩

/-- There is a step for each state to move, and one for each id to pass over. -/
theorem stepsLeft_le (r : Repair) : r.stepsLeft ≤ r.deficit.natAbs + r.queue.length := by
  unfold stepsLeft
  split <;> omega

/-! ### Taking states from ids in turn -/

/-- The weights after `excess` states were taken from ids in turn, from each of them as many as it
has but one, until nothing was left to take. -/
def reduce (weights : Nat → Nat) : (excess : Nat) → (ids : List Nat) → Nat → Nat
  | _, [], i => weights i
  | excess, id :: rest, i =>
    let taken := min (weights id - 1) excess
    if i = id then weights id - taken else reduce weights (excess - taken) rest i

variable {weights weights' : Nat → Nat} {excess : Nat} {ids : List Nat}

@[simp]
theorem reduce_nil (i : Nat) : reduce weights excess [] i = weights i := rfl

/-- The first id gives what it can, or all that is to be taken. -/
theorem reduce_cons_self (id : Nat) (rest : List Nat) :
    reduce weights excess (id :: rest) id = weights id - min (weights id - 1) excess := by
  rw [reduce, if_pos rfl]

/-- The ids behind the first one are asked for what is left to take. -/
theorem reduce_cons_of_ne {i id : Nat} (h : i ≠ id) (rest : List Nat) :
    reduce weights excess (id :: rest) i =
      reduce weights (excess - min (weights id - 1) excess) rest i := by
  rw [reduce, if_neg h]

/-- Ids that are not asked keep their weights. -/
theorem reduce_of_notMem {i : Nat} (h : i ∉ ids) : reduce weights excess ids i = weights i := by
  -- What is left to take differs from id to id, so the induction is for all amounts.
  induction ids generalizing excess with
  | nil => rfl
  | cons id rest ih =>
    rw [List.mem_cons, not_or] at h
    rw [reduce_cons_of_ne h.1, ih h.2]

/-- If nothing is to be taken, all ids keep their weights. -/
theorem reduce_zero (i : Nat) : reduce weights 0 ids i = weights i := by
  induction ids with
  | nil => rfl
  | cons id rest ih =>
    by_cases h : i = id
    · subst h
      rw [reduce_cons_self, Nat.min_zero, Nat.sub_zero]
    · rw [reduce_cons_of_ne h, Nat.zero_sub, ih]

/-- What is taken depends on the weights of the ids that are asked, and on no others. -/
theorem reduce_congr {i : Nat} (hi : weights i = weights' i)
    (h : ∀ id ∈ ids, weights id = weights' id) :
    reduce weights excess ids i = reduce weights' excess ids i := by
  induction ids generalizing excess with
  | nil => exact hi
  | cons id rest ih =>
    obtain ⟨hid, hrest⟩ := List.forall_mem_cons.1 h
    by_cases heq : i = id
    · subst heq
      rw [reduce_cons_self, reduce_cons_self, hi]
    · rw [reduce_cons_of_ne heq, reduce_cons_of_ne heq, hid, ih hrest]

/-- An id behind others is asked for what they leave to take. -/
theorem reduce_append_cons {front back : List Nat} {id : Nat} (h : id ∉ front) :
    reduce weights excess (front ++ id :: back) id =
      weights id - min (weights id - 1) (excess - (front.map (weights · - 1)).sum) := by
  induction front generalizing excess with
  | nil => rw [List.nil_append, reduce_cons_self, List.map_nil, List.sum_nil, Nat.sub_zero]
  | cons a front ih =>
    rw [List.mem_cons, not_or] at h
    rw [List.cons_append, reduce_cons_of_ne h.1, ih h.2, List.map_cons, List.sum_cons]
    -- What the first id gives and what the others give are subtracted one after the other.
    congr 2
    omega

/-- The ids are asked up to some point, and those in front of it give all they can. -/
theorem exists_reduce_eq {id : Nat} {rest : List Nat} (hnodup : (id :: rest).Nodup)
    (hpos : ∀ i ∈ id :: rest, 0 < weights i) :
    ∃ front point back, id :: rest = front ++ point :: back ∧
      (∀ a ∈ front, reduce weights excess (id :: rest) a = 1) ∧
      ∀ b ∈ back, reduce weights excess (id :: rest) b = weights b := by
  -- Induction on the ids behind the first one; the point is there, or further back.
  induction rest generalizing id excess with
  | nil => exact ⟨[], id, [], rfl, nofun, nofun⟩
  | cons id' rest ih =>
    obtain ⟨hid, hpos⟩ := List.forall_mem_cons.1 hpos
    obtain ⟨hnotMem, hnodup⟩ := List.nodup_cons.1 hnodup
    have hbehind : ∀ i ∈ id' :: rest, reduce weights excess (id :: id' :: rest) i =
        reduce weights (excess - min (weights id - 1) excess) (id' :: rest) i :=
      fun i hi => reduce_cons_of_ne (ne_of_mem_of_not_mem hi hnotMem) _
    by_cases hlast : excess ≤ weights id - 1
    · -- The first id has enough to give, so nothing is left to take from the others.
      refine ⟨[], id, id' :: rest, rfl, nofun, fun b hb => ?_⟩
      rw [hbehind b hb, Nat.min_eq_right hlast, Nat.sub_self, reduce_zero]
    -- The first id gives all it can, and the rest of the ids are asked for what is left.
    · obtain ⟨front, point, back, hsplit, hfront, hback⟩ := ih hnodup hpos
      have hmem : ∀ i, i ∈ front ∨ i ∈ back → i ∈ id' :: rest := fun i hi => by
        rw [hsplit, List.mem_append, List.mem_cons]
        tauto
      refine ⟨id :: front, point, back, congrArg (id :: ·) hsplit, ?_, fun b hb => ?_⟩
      · refine List.forall_mem_cons.2 ⟨?_, fun a ha => ?_⟩
        · rw [reduce_cons_self]
          omega
        · rw [hbehind a (hmem a (.inl ha)), hfront a ha]
      · rw [hbehind b (hmem b (.inr hb)), hback b hb]

/-! ### The end of a repair -/

/-- The weights that a repair comes to: the first id receives all that is missing, or the ids in
turn give what is too much. -/
def outcome (r : Repair) (i : Nat) : Nat :=
  if 0 < r.deficit then
    r.weights.getD i 0 + if r.queue.head? = some i then r.deficit.toNat else 0
  else reduce (r.weights.getD · 0) r.deficit.natAbs r.queue i

/-- As long as no state is too many, the first id receives all that is missing, if any is. -/
theorem outcome_of_nonneg {r : Repair} (h : 0 ≤ r.deficit) (i : Nat) :
    r.outcome i = r.weights.getD i 0 + if r.queue.head? = some i then r.deficit.toNat else 0 := by
  unfold outcome
  split
  · rfl
  · have hzero : r.deficit = 0 := by omega
    simp only [hzero, Int.natAbs_zero, reduce_zero, Int.toNat_zero, ite_self, Nat.add_zero]

/-- As long as no state is missing, the ids give what is too much, if anything is. -/
theorem outcome_of_nonpos {r : Repair} (h : r.deficit ≤ 0) (i : Nat) :
    r.outcome i = reduce (r.weights.getD · 0) r.deficit.natAbs r.queue i := by
  rw [outcome, if_neg (by omega)]

/-- The ids of the queue differ and have weights. -/
structure Orderly (r : Repair) : Prop where
  nodup : r.queue.Nodup
  queue_lt : ∀ id ∈ r.queue, id < r.weights.size

/-- A step leaves the queue as it is, or drops the first id, and does not change its size. -/
theorem Orderly.step {r r' : Repair} (hr : r.Orderly) (h : r.step = .yield r') : r'.Orderly := by
  obtain ⟨weights, queue, deficit⟩ := r
  obtain ⟨hnodup, hlt⟩ := hr
  obtain ⟨id, rest, rfl, hcases⟩ := step_cases h
  -- A state given, a state taken, an id passed over.
  rcases hcases with ⟨-, rfl⟩ | ⟨-, -, rfl⟩ | ⟨-, -, rfl⟩
  · exact ⟨hnodup, by simpa using hlt⟩
  · exact ⟨hnodup, by simpa using hlt⟩
  · exact ⟨(List.nodup_cons.1 hnodup).2, (List.forall_mem_cons.1 hlt).2⟩

/-- A step does not change what a repair comes to. -/
theorem outcome_step {r r' : Repair} (hr : r.Orderly) (h : r.step = .yield r') (i : Nat) :
    r'.outcome i = r.outcome i := by
  obtain ⟨weights, queue, deficit⟩ := r
  obtain ⟨hnodup, hlt⟩ := hr
  obtain ⟨id, rest, rfl, hcases⟩ := step_cases h
  dsimp only at hnodup hlt hcases
  obtain ⟨hnotMem, -⟩ := List.nodup_cons.1 hnodup
  have hid : id < weights.size := hlt id List.mem_cons_self
  rcases hcases with ⟨hpos, rfl⟩ | ⟨hneg, hmany, rfl⟩ | ⟨hneg, hfew, rfl⟩
  · -- The first id has one state more, and one less is missing.
    rw [outcome_of_nonneg (by dsimp only; omega), outcome_of_nonneg hpos.le]
    simp only [Array.getD_modify weights _ hid, List.head?_cons, Option.some.injEq]
    by_cases heq : i = id
    · subst heq
      simp only [if_true]
      omega
    · simp only [if_neg heq, if_neg (Ne.symm heq)]
  · -- The first id has one state less, and one less is to be taken from it.
    rw [outcome_of_nonpos (by dsimp only; omega), outcome_of_nonpos hneg.le]
    dsimp only
    by_cases heq : i = id
    · subst heq
      simp only [reduce_cons_self, Array.getD_modify weights _ hid, if_true]
      omega
    · rw [reduce_cons_of_ne heq, reduce_cons_of_ne heq]
      simp only [Array.getD_modify weights _ hid, if_true]
      rw [show (deficit + 1).natAbs - min (weights.getD id 0 - 1 - 1) (deficit + 1).natAbs =
        deficit.natAbs - min (weights.getD id 0 - 1) deficit.natAbs by omega]
      refine reduce_congr (if_neg heq) fun j hj => if_neg ?_
      exact ne_of_mem_of_not_mem hj hnotMem
  · -- The first id has nothing to give.
    rw [outcome_of_nonpos hneg.le, outcome_of_nonpos hneg.le]
    dsimp only
    have hnone : min (weights.getD id 0 - 1) deficit.natAbs = 0 := by omega
    by_cases heq : i = id
    · subst heq
      rw [reduce_of_notMem hnotMem, reduce_cons_self, hnone, Nat.sub_zero]
    · rw [reduce_cons_of_ne heq, hnone, Nat.sub_zero]

/-- A repair that is done has come to its end. -/
theorem outcome_of_done {r : Repair} (h : r.deficit = 0 ∨ r.queue = []) (i : Nat) :
    r.outcome i = r.weights.getD i 0 := by
  rcases h with hzero | hnil
  · rw [outcome_of_nonpos hzero.le, hzero, Int.natAbs_zero, reduce_zero]
  · unfold outcome
    simp [hnil]

/-- A run arrives at what the repair comes to. -/
theorem getD_run {r : Repair} (hr : r.Orderly) (i : Nat) :
    r.run.weights.getD i 0 = r.outcome i := by
  -- By induction on the run. No step changes the outcome, and at the end the weights are it.
  fun_induction run r with
  | case1 r r' hdone =>
    obtain ⟨rfl, hend⟩ := eq_of_step_eq_done hdone
    exact (outcome_of_done hend i).symm
  | case2 r r' hyield ih =>
    rw [ih (hr.step hyield), outcome_step hr hyield]

end Repair

namespace Histogram

variable {h : Histogram}

/-- The lowest id among those of the largest count. -/
structure IsMostFrequent (h : Histogram) (id : Nat) : Prop where
  count_le : ∀ i, h.count i ≤ h.count id
  le_of_count_eq : ∀ i, h.count i = h.count id → id ≤ i

/-- The ids that occur are ranked. -/
theorem mem_ranking {id : Nat} : id ∈ h.ranking ↔ 0 < h.count id := by
  rw [ranking, List.mem_filter, mem_byCount, decide_eq_true_eq]
  exact ⟨fun hid => hid.2, fun hid => ⟨lt_alphabetSize hid, hid⟩⟩

/-- An id is ranked once, since it does not come before itself. -/
theorem nodup_ranking (h : Histogram) : h.ranking.Nodup := by
  refine h.pairwise_ranking.imp fun {a b} hab heq => ?_
  subst heq
  unfold Precedes at hab
  omega

/-- The ranking starts with the most frequent id. -/
theorem isMostFrequent_of_ranking {id : Nat} {rest : List Nat} (h' : h.ranking = id :: rest) :
    h.IsMostFrequent id := by
  have hid : 0 < h.count id := mem_ranking.1 (by simp [h'])
  have hrest : ∀ i ∈ rest, h.Precedes id i := (List.pairwise_cons.1 (h' ▸ h.pairwise_ranking)).1
  -- Any other id does not occur, or is ranked behind the first.
  have hcases (i : Nat) : h.count i = 0 ∨ i = id ∨ h.Precedes id i := by
    rcases Nat.eq_zero_or_pos (h.count i) with hzero | hpos
    · exact .inl hzero
    · have hmem := mem_ranking.2 hpos
      rw [h', List.mem_cons] at hmem
      exact .inr (hmem.imp_right (hrest i))
  unfold Precedes at hcases
  constructor
  · intro i
    rcases hcases i with hzero | rfl | hprec <;> omega
  · intro i heq
    rcases hcases i with hzero | rfl | hprec <;> omega

/-- Some id is ranked if the total is positive. -/
theorem exists_ranking_eq_cons (htotal : 0 < h.total) : ∃ id rest, h.ranking = id :: rest := by
  obtain ⟨id, hid⟩ := exists_count_pos htotal
  exact List.exists_cons_of_ne_nil (List.ne_nil_of_mem (mem_ranking.2 hid))

end Histogram

/-! ### Normalization -/

namespace Weights

variable {h : Histogram} {tableLog : Nat} {w : Weights}

/-- The weights of a histogram are what the repair of its shares comes to. -/
theorem weight_eq_outcome (hw : ofHistogram h tableLog = .ok w) (id : Nat) :
    w.weight id = ((Repair.start h (2 ^ tableLog)).restrict h).outcome id := by
  have horderly : ((Repair.start h (2 ^ tableLog)).restrict h).Orderly := by
    refine ⟨h.nodup_ranking, fun id hid => ?_⟩
    rw [Repair.weights_restrict, Repair.size_weights_start]
    exact Histogram.lt_alphabetSize (Histogram.mem_ranking.1 hid)
  rw [weight, values_eq_run_restrict hw, Nat.one_shiftLeft, Repair.getD_run horderly]

/-- Missing states go to the most frequent id. -/
theorem weight_of_demand_le (hw : ofHistogram h tableLog = .ok w)
    (hle : h.demand (2 ^ tableLog) ≤ 2 ^ tableLog) :
    ∃ most, h.IsMostFrequent most ∧ ∀ id, w.weight id = h.share (2 ^ tableLog) id +
      if id = most then 2 ^ tableLog - h.demand (2 ^ tableLog) else 0 := by
  obtain ⟨most, rest, hranking⟩ :=
    Histogram.exists_ranking_eq_cons (fits_of_ofHistogram hw).total_pos
  refine ⟨most, Histogram.isMostFrequent_of_ranking hranking, fun id => ?_⟩
  have hdeficit := Histogram.deficit_start h (2 ^ tableLog)
  -- The deficit is what the shares leave of the table, and the head of the queue is `most`.
  rw [weight_eq_outcome hw, Repair.outcome_of_nonneg (by rw [Repair.deficit_restrict]; omega)]
  simp only [Repair.weights_restrict, Repair.deficit_restrict, Repair.queue_restrict_start,
    Histogram.getD_weights_start, hranking, List.head?_cons, Option.some.injEq, hdeficit, eq_comm]
  split <;> omega

/-- States too many are taken from the ids that occur, in their order of repair. -/
theorem weight_of_lt_demand (hw : ofHistogram h tableLog = .ok w)
    (hlt : 2 ^ tableLog < h.demand (2 ^ tableLog)) (id : Nat) :
    w.weight id = Repair.reduce (h.share (2 ^ tableLog))
      (h.demand (2 ^ tableLog) - 2 ^ tableLog) h.ranking id := by
  have hdeficit := Histogram.deficit_start h (2 ^ tableLog)
  have hexcess : (Repair.start h (2 ^ tableLog)).deficit.natAbs =
      h.demand (2 ^ tableLog) - 2 ^ tableLog := by omega
  rw [weight_eq_outcome hw, Repair.outcome_of_nonpos (by rw [Repair.deficit_restrict]; omega)]
  simp only [Repair.weights_restrict, Repair.deficit_restrict, Repair.queue_restrict_start,
    Histogram.getD_weights_start, hexcess]

/-- The weights of a histogram in closed form. Each id starts with its share, which is its
proportion of the states, rounded, and at least one if it occurs. If the shares do not fill the
table, the most frequent id receives all that is missing. If they are too many, the ids that occur
are asked by descending count, and ids of the same count in ascending order, and each gives as many
states as it has but one, until enough are given: ids in front of some point are left with one
state, and ids behind it with their share. Moving one state at a time gets there in no more steps
than there are states to move and ids in the alphabet. -/
theorem ofHistogram_closedForm {h : Histogram} {tableLog : Nat} (hlog : TableLogInRange tableLog)
    (hfits : h.Fits tableLog) :
    ∃ w, ofHistogram h tableLog = .ok w ∧
      (∀ id, IsShare (2 ^ tableLog) h.total (h.count id) (h.share (2 ^ tableLog) id)) ∧
      (h.demand (2 ^ tableLog) ≤ 2 ^ tableLog →
        ∃ most, h.IsMostFrequent most ∧ ∀ id, w.weight id = h.share (2 ^ tableLog) id +
          if id = most then 2 ^ tableLog - h.demand (2 ^ tableLog) else 0) ∧
      (2 ^ tableLog < h.demand (2 ^ tableLog) →
        ∃ order : List Nat, order.Perm h.present ∧ order.Pairwise h.Precedes ∧
          (∀ id, w.weight id = Repair.reduce (h.share (2 ^ tableLog))
            (h.demand (2 ^ tableLog) - 2 ^ tableLog) order id) ∧
          ∃ front point back, order = front ++ point :: back ∧
            (∀ a ∈ front, w.weight a = 1) ∧
            ∀ b ∈ back, w.weight b = h.share (2 ^ tableLog) b) ∧
      ∃ n r, Repair.Steps n (.start h (2 ^ tableLog)) r ∧ r.step = .done r ∧
        w.values = r.weights ∧
        n ≤ ((2 ^ tableLog : Nat) - (h.demand (2 ^ tableLog) : Int)).natAbs + h.alphabetSize := by
  obtain ⟨w, hw, -⟩ := exists_ofHistogram hlog hfits
  refine ⟨w, hw, Histogram.isShare hfits.total_pos, weight_of_demand_le hw, fun hlt => ?_, ?_⟩
  -- Too many states are taken in the order of the ranking.
  · have hweight := weight_of_lt_demand hw hlt
    obtain ⟨id, rest, hranking⟩ := Histogram.exists_ranking_eq_cons hfits.total_pos
    refine ⟨h.ranking, h.ranking_perm, h.pairwise_ranking, hweight, ?_⟩
    have hpos : ∀ i ∈ h.ranking, 0 < h.share (2 ^ tableLog) i := fun i hi =>
      Histogram.share_pos_iff.2 (Histogram.mem_ranking.1 hi)
    simp only [hweight]
    rw [hranking] at hpos ⊢
    exact Repair.exists_reduce_eq (hranking ▸ h.nodup_ranking) hpos
  -- The steps are those of the run, and the measure at the start bounds their number.
  · obtain ⟨n, hn, hsteps⟩ := (Repair.start h (2 ^ tableLog)).exists_steps_run
    refine ⟨n, _, hsteps, Repair.step_run _, ?_, ?_⟩
    · rw [(values_of_ofHistogram hw).1, Nat.one_shiftLeft]
    · have hleft := (Repair.start h (2 ^ tableLog)).stepsLeft_le
      have hqueue : (Repair.start h (2 ^ tableLog)).queue.length = h.alphabetSize := by
        simp [Repair.start, Histogram.byCount]
      rw [Histogram.deficit_start, hqueue] at hleft
      exact Nat.le_trans hn hleft

/-- Five ids of the same count in a table that they do not fill, and ids that ask for too much. -/
theorem ofHistogram_closedForm_five :
    (TableLogInRange 4 ∧ Histogram.Fits ⟨#[1, 1, 1, 1, 1]⟩ 4 ∧
      ∃ w, ofHistogram ⟨#[1, 1, 1, 1, 1]⟩ 4 = .ok w ∧ w.weight 0 = 4 ∧ w.weight 4 = 3) ∧
    (TableLogInRange 2 ∧ Histogram.Fits ⟨#[1, 40, 0, 1]⟩ 2 ∧
      ∃ w, ofHistogram ⟨#[1, 40, 0, 1]⟩ 2 = .ok w ∧ w.weight 0 = 1 ∧ w.weight 1 = 2 ∧
        w.weight 2 = 0) := by
  have hfits : Histogram.Fits ⟨#[1, 1, 1, 1, 1]⟩ 4 := ⟨by decide, by decide, by decide⟩
  have hfits' : Histogram.Fits ⟨#[1, 40, 0, 1]⟩ 2 := ⟨by decide, by decide, by decide⟩
  obtain ⟨w, hw, -, hmissing, -, -⟩ := ofHistogram_closedForm (by decide) hfits
  obtain ⟨w', hw', -, -, hexcess, -⟩ := ofHistogram_closedForm (by decide) hfits'
  refine ⟨⟨by decide, hfits, w, hw, ?_⟩, by decide, hfits', w', hw', ?_⟩
  · obtain ⟨most, hmost, hweight⟩ := hmissing (by decide)
    -- All counts are the same, so the most frequent id is the lowest.
    have hsame : ∀ id < 5, Histogram.count ⟨#[1, 1, 1, 1, 1]⟩ 0 =
        Histogram.count ⟨#[1, 1, 1, 1, 1]⟩ id := by decide
    have hlt : most < 5 :=
      Histogram.lt_alphabetSize (Nat.lt_of_lt_of_le (by decide) (hmost.count_le 0))
    have hzero : most = 0 := Nat.le_zero.1 (hmost.le_of_count_eq 0 (hsame most hlt))
    rw [hweight, hweight, hzero]
    decide
  · obtain ⟨order, hperm, hsorted, hweight, -⟩ := hexcess (by decide)
    -- There is only one order of repair.
    have hpresent : Histogram.present ⟨#[1, 40, 0, 1]⟩ = [0, 1, 3] := by decide
    have horder : order = [1, 0, 3] := by
      refine List.Perm.eq_of_pairwise (fun a b _ _ => Histogram.Precedes.antisymm) hsorted
        (by decide) (hperm.trans ?_)
      rw [hpresent]
      decide
    rw [hweight, hweight, hweight, horder]
    decide

end Weights

end Tans
