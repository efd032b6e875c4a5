import Tans.Histogram

/-!
# Weights

The number of states that each symbol id gets in a table. Weights are normalized: they sum to the
table size, which the type records.
-/

namespace Tans

/-- Weights of symbol ids that sum to a table size. -/
structure Weights where
  /-- The weight of each id of the alphabet. -/
  values : Array Nat
  /-- The weights sum to two to this power. -/
  tableLog : Nat
  tableLog_inRange : TableLogInRange tableLog
  size_le : values.size ≤ maxAlphabetSize
  sum_eq : sum values.toList = 1 <<< tableLog
deriving DecidableEq, Repr

namespace Weights

/-- Accepts values that are normalized already. -/
def ofValues (values : Array Nat) (tableLog : Nat) : Except SetupError Weights :=
  if hlog : ¬ TableLogInRange tableLog then .error (.tableLog tableLog maxTableLog)
  else if hsize : maxAlphabetSize < values.size then
    .error (.distribution (.alphabetTooLarge values.size))
  else if hsum : sum values.toList = 1 <<< tableLog then
    .ok ⟨values, tableLog, .of_not_not hlog, Nat.le_of_not_lt hsize, hsum⟩
  else .error (.distribution (.weightSum (sum values.toList) (1 <<< tableLog)))

/-- The weight of an id, zero outside the alphabet. -/
def weight (w : Weights) (id : Nat) : Nat := w.values.getD id 0

/-- The number of states that the weights share out. -/
def tableSize (w : Weights) : Nat := 1 <<< w.tableLog

/-- The number of ids in the alphabet, those of weight zero included. -/
def alphabetSize (w : Weights) : Nat := w.values.size

/-- The ids in ascending order, each as often as its weight says. -/
def runs (w : Weights) : List Nat :=
  (List.range w.alphabetSize).flatMap fun id => List.replicate (w.weight id) id

end Weights

end Tans
