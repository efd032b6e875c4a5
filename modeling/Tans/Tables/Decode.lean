import Tans.Spread

/-!
# Decode table

One entry for each decoder state. The states of a symbol of weight `w` stand, in ascending order,
for the sub-states `w, w + 1, …, 2 * w - 1`. An entry says which symbol the state emits, and how
many bits have to follow its sub-state to make it an encoder state again.
-/

namespace Tans

/-- What a decoder does in one state. -/
structure DecodeEntry where
  /-- The next state is this plus the number that is read. -/
  base : UInt16
  /-- The width of the number to read. -/
  width : UInt8
  symbol : UInt16
deriving DecidableEq, Repr

namespace DecodeEntry

/-- The bits that a sub-state lacks to reach `[2 ^ tableLog, 2 ^ (tableLog + 1))`. -/
def missingBits (tableLog subState : Nat) : Nat := tableLog - subState.log2

/-- The entry of a state of a table of `tableSize = 2 ^ tableLog` states, from its symbol and
sub-state. -/
def ofSubState (tableLog tableSize : Nat) (symbol : UInt16) (subState : Nat) : DecodeEntry :=
  let width := missingBits tableLog subState
  { base := UInt16.ofNat ((subState <<< width) - tableSize)
    width := UInt8.ofNat width
    symbol }

end DecodeEntry

/-- The sub-state of each state: the weight of its symbol, plus the number of earlier states of
the same symbol. -/
def Spread.subStates (s : Spread) (w : Weights) : List Nat := number w.values s.symbols.toList

/-- The decode table of a spread, by state. -/
def Spread.decodeTable (s : Spread) (w : Weights) : Array DecodeEntry :=
  let entry := DecodeEntry.ofSubState w.tableLog w.tableSize
  (List.zipWith entry s.symbols.toList (s.subStates w)).toArray

end Tans
