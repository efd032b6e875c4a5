import Tans.Weights

/-!
# Normalization

Weights from a histogram. Each id gets its proportional share of the states, rounded to the
nearest number with ties to even, and at least one state if it occurs at all. What the rounded
shares are short of the table size, or above it, is then settled one state at a time with the most
frequent ids first: a missing state goes to the most frequent id, and a state too many is taken
from the most frequent id that has more than one.

* `Repair.Balanced.run`: a repair only moves states between the weights and the deficit.
* `Repair.size_run`: a repair keeps the alphabet.
* `Repair.sum_run_start`: when nothing is left to move, the weights sum to the table size.
-/

namespace Tans

/-- The number nearest to `num / den`, the even one of two that are equally near. -/
def roundDiv (num den : Nat) : Nat :=
  let q := num / den
  let r := num % den
  -- On a tie, `q % 2` is what makes the quotient even.
  if 2 * r < den then q else if den < 2 * r then q + 1 else q + q % 2

/-- The states that a count asks for out of `tableSize`, as a share of the total count. -/
def Weights.share (tableSize total count : Nat) : Nat :=
  if count = 0 then 0 else max 1 (roundDiv (count * tableSize) total)

/-- The ids of a histogram by descending count, ids of the same count in ascending order. -/
def Histogram.byCount (h : Histogram) : List Nat :=
  (List.range h.alphabetSize).mergeSort fun a b => h.count b ≤ h.count a

/-- A repair of weights under way. -/
structure Repair where
  weights : Array Nat
  /-- The ids that may still give or receive states; the head is next. -/
  queue : List Nat
  /-- The table size less the sum of the weights. -/
  deficit : Int

namespace Repair

/-- Moves one state, or drops the head of the queue if it cannot give one. The repair is done when
nothing is missing and nothing is too much, or when the queue is empty. -/
def step : Repair → ForInStep Repair
  | ⟨weights, queue, deficit⟩ =>
    if deficit = 0 then .done ⟨weights, queue, deficit⟩
    else
      match queue with
      | [] => .done ⟨weights, [], deficit⟩
      | id :: rest =>
        -- The head may receive any number of states, but it gives none of its last one away.
        if 0 < deficit then .yield ⟨weights.modify id (· + 1), id :: rest, deficit - 1⟩
        else if 1 < weights.getD id 0 then
          .yield ⟨weights.modify id (· - 1), id :: rest, deficit + 1⟩
        else .yield ⟨weights, rest, deficit⟩

/-- The number of steps that a repair can still take, at most. -/
def stepsLeft (r : Repair) : Nat :=
  if r.deficit = 0 then 0 else r.deficit.natAbs + r.queue.length

/-- Each step moves a state or drops an id, so a repair ends. -/
theorem stepsLeft_lt_of_step {r r' : Repair} (h : r.step = .yield r') :
    r'.stepsLeft < r.stepsLeft := by
  obtain ⟨weights, queue, deficit⟩ := r
  simp only [step] at h
  split at h
  · exact nomatch h
  · cases queue with
    | nil => exact nomatch h
    | cons id rest =>
      simp only at h
      split at h
      · cases h; grind [stepsLeft]
      · split at h
        · cases h; grind [stepsLeft]
        · cases h; grind [stepsLeft]

/-- Repeats the step until it is done. -/
def run (r : Repair) : Repair :=
  match _h : r.step with
  | .done r' => r'
  | .yield r' => run r'
termination_by r.stepsLeft
decreasing_by exact stepsLeft_lt_of_step _h

/-- The repair of the rounded shares of a histogram, before its first step. -/
def start (h : Histogram) (tableSize : Nat) : Repair :=
  let total := h.total
  let weights := h.counts.map fun c => Weights.share tableSize total c.toNat
  ⟨weights, h.byCount, tableSize - sum weights.toList⟩

/-! ### What a repair keeps -/

/-- The weights and the deficit sum to the table size, and the queue holds ids of the alphabet. -/
structure Balanced (tableSize : Nat) (r : Repair) : Prop where
  sum_add_deficit : sum r.weights.toList + r.deficit = tableSize
  queue_lt : ∀ id ∈ r.queue, id < r.weights.size

/-- Changing one number changes the sum by as much. -/
theorem sum_modify (xs : List Nat) (i : Nat) (f : Nat → Nat) (h : i < xs.length) :
    sum (xs.modify i f) + xs[i] = sum xs + f xs[i] := by
  induction xs generalizing i with
  | nil => exact absurd h (Nat.not_lt_zero i)
  | cons x xs ih =>
    cases i with
    | zero => simp [sum_cons]; omega
    | succ i =>
      have := ih i (by simpa using h)
      simp only [List.modify_succ_cons, sum_cons, List.getElem_cons_succ]
      omega

/-- A step keeps the alphabet. -/
theorem size_step (r : Repair) : r.step.value.weights.size = r.weights.size := by
  obtain ⟨weights, queue, deficit⟩ := r
  cases queue <;> grind [step, ForInStep.value]

/-- A state moved to or from a weight is one less or one more to move. -/
theorem Balanced.step {tableSize : Nat} {r : Repair} (h : r.Balanced tableSize) :
    r.step.value.Balanced tableSize := by
  obtain ⟨weights, queue, deficit⟩ := r
  obtain ⟨hsum, hlt⟩ := h
  dsimp only at hsum hlt
  simp only [Repair.step]
  split
  · exact ⟨hsum, hlt⟩
  · cases queue with
    | nil => exact ⟨hsum, hlt⟩
    | cons id rest =>
      have hid : id < weights.size := hlt id (by simp)
      have hmod (f : Nat → Nat) := sum_modify weights.toList id f (by simpa using hid)
      dsimp only
      -- A state is given, a state is taken, or the head is dropped.
      split
      · have := hmod (· + 1)
        refine ⟨?_, by simpa using hlt⟩
        simp only [ForInStep.value, Array.toList_modify]
        omega
      · split
        · next hone =>
          have := hmod (· - 1)
          have hone : 1 < weights[id] := by simpa [hid] using hone
          refine ⟨?_, by simpa using hlt⟩
          simp only [Array.getElem_toList] at this
          simp only [ForInStep.value, Array.toList_modify]
          omega
        · exact ⟨hsum, fun i hi => hlt i (List.mem_cons_of_mem id hi)⟩

/-- What a step keeps, a run keeps. -/
theorem run_induction {P : Repair → Prop} (hstep : ∀ r, P r → P r.step.value) (r : Repair)
    (h : P r) : P r.run := by
  fun_induction run r with
  | case1 r r' hr => simpa [hr, ForInStep.value] using hstep r h
  | case2 r r' hr ih => exact ih (by simpa [hr, ForInStep.value] using hstep r h)

/-- A run keeps the balance. -/
theorem Balanced.run {tableSize : Nat} {r : Repair} (h : r.Balanced tableSize) :
    r.run.Balanced tableSize :=
  run_induction (fun _ => Balanced.step) r h

/-- A run keeps the alphabet. -/
theorem size_run (r : Repair) : r.run.weights.size = r.weights.size :=
  run_induction (P := fun r' => r'.weights.size = r.weights.size)
    (fun r' h => (size_step r').trans h) r rfl

/-- The deficit starts as what makes up the balance. -/
theorem balanced_start (h : Histogram) (tableSize : Nat) :
    (start h tableSize).Balanced tableSize := by
  refine ⟨by simp only [start]; omega, fun id hid => ?_⟩
  simpa [start, Histogram.byCount, Histogram.alphabetSize] using hid

/-- There is one repaired weight for each id. -/
theorem size_run_start (h : Histogram) (tableSize : Nat) :
    (start h tableSize).run.weights.size = h.alphabetSize := by
  simp [size_run, start, Histogram.alphabetSize]

/-- Weights of a repair that leaves no deficit sum to the table size. -/
theorem sum_run_start {h : Histogram} {tableSize : Nat}
    (hd : (start h tableSize).run.deficit = 0) :
    sum (start h tableSize).run.weights.toList = tableSize := by
  have := (balanced_start h tableSize).run.sum_add_deficit
  omega

end Repair

/-- The weights of a histogram for a table of `2 ^ tableLog` states. -/
def Weights.ofHistogram (h : Histogram) (tableLog : Nat) : Except SetupError Weights :=
  if hlog : ¬ TableLogInRange tableLog then .error (.tableLog tableLog maxTableLog)
  else if hsize : maxAlphabetSize < h.alphabetSize then
    .error (.distribution (.alphabetTooLarge h.alphabetSize))
  else if h.total = 0 then .error (.distribution .zeroTotal)
  else if 1 <<< tableLog < h.present.length then
    .error (.distribution (.tooManyPresent h.present.length (1 <<< tableLog)))
  else
    let repaired := (Repair.start h (1 <<< tableLog)).run
    if hd : repaired.deficit = 0 then
      .ok {
        values := repaired.weights
        tableLog
        tableLog_inRange := .of_not_not hlog
        size_le := Nat.le_trans (Nat.le_of_eq (Repair.size_run_start h _)) (Nat.le_of_not_lt hsize)
        sum_eq := Repair.sum_run_start hd }
    else .error (.distribution (.unreconciled repaired.deficit))

end Tans
