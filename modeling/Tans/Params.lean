import Tans.Error

/-!
# Parameters

The two numbers that an encoder and a decoder have to agree on: the logarithm of the number of
states, and the width of the field that holds the length of a block.

* `Params.check_eq_ok_iff`: the check passes exactly when both numbers are in range.
-/

namespace Tans

/-- The smallest logarithm of a table size. -/
def minTableLog : Nat := 1

/-- The largest logarithm of a table size: encoder states below `2 ^ 16` fit sixteen bits. -/
def maxTableLog : Nat := 15

/-- The widest length field of a block. -/
def maxLengthBits : Nat := 32

/-- The number of ids that sixteen bits can name. -/
def maxAlphabetSize : Nat := 65536

/-- The parameters of a coding session. -/
structure Params where
  /-- The number of states is two to this power. -/
  tableLog : Nat := 12
  /-- The width in bits of the length field in front of each block. -/
  lengthBits : Nat := 32
deriving DecidableEq, Repr

/-- The logarithm of a table size is supported. -/
def TableLogInRange (tableLog : Nat) : Prop := minTableLog ≤ tableLog ∧ tableLog ≤ maxTableLog

instance (tableLog : Nat) : Decidable (TableLogInRange tableLog) :=
  inferInstanceAs (Decidable (_ ∧ _))

theorem TableLogInRange.of_not_not {tableLog : Nat} (h : ¬ ¬ TableLogInRange tableLog) :
    TableLogInRange tableLog :=
  Decidable.not_not.1 h

namespace Params

/-- The number of states, two to the power of its logarithm. -/
def tableSize (p : Params) : Nat := 1 <<< p.tableLog

/-- The largest length that the length field can hold. -/
def maxBlockLen (p : Params) : Nat := (1 <<< p.lengthBits) - 1

/-- Both numbers are in range. -/
def Valid (p : Params) : Prop :=
  TableLogInRange p.tableLog ∧ 1 ≤ p.lengthBits ∧ p.lengthBits ≤ maxLengthBits

instance (p : Params) : Decidable p.Valid := inferInstanceAs (Decidable (_ ∧ _))

/-- Refuses numbers out of range, the logarithm of the table size first. -/
def check (p : Params) : Except SetupError Unit :=
  if ¬ TableLogInRange p.tableLog then .error (.tableLog p.tableLog maxTableLog)
  else if p.lengthBits = 0 ∨ maxLengthBits < p.lengthBits then .error (.lengthBits p.lengthBits)
  else .ok ()

/-- The check accepts the parameters that are in range, and no others. -/
theorem check_eq_ok_iff (p : Params) : p.check = .ok () ↔ p.Valid := by
  unfold check Valid
  split
  · next h => simp [h]
  · next h =>
    split
    · next h' => simp; omega
    · next h' => simp; exact ⟨.of_not_not h, by omega, by omega⟩

end Params

end Tans
