import Tans.Spread

/-!
# Encode tables

The next-state table lists the states of the first symbol, then those of the second, and so on,
each in ascending order. A transform for each symbol turns an encoder state into the number of bits
to flush and an index of that table.
-/

namespace Tans

/-- For each weight, the sum of those before it. -/
def Weights.starts (w : Weights) : Array Nat :=
  (w.values.foldl (fun (starts, sum) weight => (starts.push sum, sum + weight)) (#[], 0)).1

/-- The place of each state in the next-state table: where the states of its symbol start, plus the
number of earlier states of the same symbol. -/
def Spread.ranks (s : Spread) (w : Weights) : List Nat := number w.starts s.symbols.toList

/-- The next-state table of a spread. It holds encoder states, which lie in
`[tableSize, 2 * tableSize)`. -/
def Spread.nextStates (s : Spread) (w : Weights) : Array UInt16 :=
  let tableSize := w.tableSize
  ((s.ranks w).zipIdx tableSize).foldl
    (fun table (rank, state) => table.setIfInBounds rank (UInt16.ofNat state))
    (Array.replicate tableSize 0)

/-- How a symbol is encoded. -/
structure Transform where
  /-- Added to an encoder state, this leaves the number of bits to flush above bit sixteen. -/
  widthBias : UInt32
  /-- Added to a flushed encoder state, this gives the place of the new state in the next-state
  table. -/
  rankOffset : Int
deriving DecidableEq, Repr

namespace Transform

/-- The transform of a symbol from its weight and where its states start. The bias is computed in
32 bits. A symbol of weight zero has a transform like any other, which is not used. -/
def ofWeight (tableLog weight start : Nat) : Transform :=
  if weight = 0 then
    { widthBias := UInt32.ofNat ((tableLog + 1) <<< 16) - UInt32.ofNat (1 <<< tableLog)
      rankOffset := 0 }
  else
    let maxWidth := if weight = 1 then tableLog else tableLog - (weight - 1).log2
    { widthBias := UInt32.ofNat (maxWidth <<< 16) - UInt32.ofNat (weight <<< maxWidth)
      rankOffset := start - weight }

end Transform

/-- The transform of each symbol id. -/
def Weights.transforms (w : Weights) : Array Transform :=
  Array.zipWith (Transform.ofWeight w.tableLog) w.values w.starts

end Tans
