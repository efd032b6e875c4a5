import Mathlib.Data.List.Perm.Subperm
import Tans.Proofs.Words

/-!
# The next-state table

The next-state table holds every encoder state once, sorted by symbol: the states of a symbol stand
together, from the sum of the weights of the symbols before it on, and in ascending order. So the
place of a state among them is its number among the states of the symbol, which also is what the
sub-state in its decode entry exceeds the weight by. The two tables are filled by separate walks over
the spread, with counters that start from different numbers, and agree on this number for every state.

* `Spread.encoderStates_perm`: all encoder states are there.
* `Spread.pairwise_statesOf`, `Spread.mem_statesOf_iff`: those of a symbol.
* `Spread.nextStates_ordered`: the table as a whole, and the decode table beside it.
-/

namespace Tans.Spread

variable {w : Weights} {s : Spread} {symbol : UInt16}

/-! ### All states -/

/-- The next-state table as a list of numbers. -/
def encoderStates (s : Spread) (w : Weights) : List Nat :=
  (s.nextStates w).toList.map UInt16.toNat

/-- The table has a place for each state. -/
theorem length_encoderStates (s : Spread) (w : Weights) :
    (s.encoderStates w).length = w.tableSize := by
  rw [encoderStates, List.length_map, Array.length_toList, nextStates,
    Array.size_foldl_setIfInBounds, Array.size_replicate]

/-- The `j`-th state of a symbol stands `j` places behind the start of the symbol. -/
theorem toNat_getElem?_nextStates {j u : Nat} (hs : ofWeights w = .ok s) (h : s.Nth symbol j u) :
    (s.nextStates w)[w.start symbol.toNat + j]?.map UInt16.toNat = some (w.tableSize + u) := by
  obtain ⟨x, hnext, hx⟩ := Weights.exists_exact_nextState hs h
  rw [hnext, Option.map_some, hx]

/-- In the list of numbers, the `j`-th state of a symbol stands at the same place. -/
theorem getElem?_encoderStates {j u : Nat} (hs : ofWeights w = .ok s) (h : s.Nth symbol j u) :
    (s.encoderStates w)[w.start symbol.toNat + j]? = some (w.tableSize + u) := by
  rw [encoderStates, List.getElem?_map, Array.getElem?_toList, toNat_getElem?_nextStates hs h]

/-- Every encoder state is in the table, once. -/
theorem encoderStates_perm (hs : ofWeights w = .ok s) :
    (s.encoderStates w).Perm (List.range' w.tableSize w.tableSize) := by
  -- An encoder state is that of a slot, and the slot has a symbol and a number.
  have hsubset : List.range' w.tableSize w.tableSize ⊆ s.encoderStates w := by
    intro x hx
    obtain ⟨hle, hlt⟩ := List.mem_range'_1.1 hx
    obtain ⟨symbol, j, hn⟩ := exists_nth_of_lt (u := x - w.tableSize) hs (by omega)
    have hget := getElem?_encoderStates hs hn
    rw [Nat.add_sub_cancel' hle] at hget
    exact List.mem_of_getElem? hget
  -- The table has no more places than there are states, so none of them stands there twice.
  have hsubperm := List.subperm_of_subset List.nodup_range' hsubset
  exact (hsubperm.perm_of_length_le (by rw [length_encoderStates, List.length_range'])).symm

/-! ### The states of a symbol -/

/-- The stretch of the next-state table that belongs to a symbol. -/
def statesOf (s : Spread) (w : Weights) (symbol : UInt16) : List Nat :=
  ((s.encoderStates w).drop (w.start symbol.toNat)).take (w.weight symbol.toNat)

/-- The stretch of a symbol has a place for each of its states. -/
theorem length_statesOf (s : Spread) (w : Weights) (symbol : UInt16) :
    (s.statesOf w symbol).length = w.weight symbol.toNat := by
  have hle := w.start_add_weight_le symbol.toNat
  rw [statesOf, List.length_take, List.length_drop, length_encoderStates]
  omega

/-- The `j`-th state of a symbol is the `j`-th of its stretch. -/
theorem getElem?_statesOf {j u : Nat} (hs : ofWeights w = .ok s) (h : s.Nth symbol j u) :
    (s.statesOf w symbol)[j]? = some (w.tableSize + u) := by
  rw [statesOf, List.getElem?_take_of_lt (h.lt_weight hs), List.getElem?_drop,
    getElem?_encoderStates hs h]

/-- What stands in the stretch of a symbol is a state of the symbol, by its number. -/
theorem exists_nth_of_getElem?_statesOf {j x : Nat} (hs : ofWeights w = .ok s)
    (h : (s.statesOf w symbol)[j]? = some x) : ∃ u, s.Nth symbol j u ∧ x = w.tableSize + u := by
  obtain ⟨hj, -⟩ := List.getElem?_eq_some_iff.1 h
  rw [length_statesOf] at hj
  obtain ⟨u, hn⟩ := exists_nth hs hj
  exact ⟨u, hn, Option.some.inj (h.symm.trans (getElem?_statesOf hs hn))⟩

/-- Of two states of a symbol the one with the smaller number comes first. -/
theorem Nth.lt_of_lt {j j' u u' : Nat} (h : s.Nth symbol j u) (h' : s.Nth symbol j' u')
    (hlt : j < j') : u < u' := by
  by_contra hge
  -- The number of a state is how often its symbol came before, which does not drop.
  have hle : (s.symbols.toList.take u').count symbol ≤ (s.symbols.toList.take u).count symbol :=
    List.count_take_le (Nat.le_of_not_lt hge)
  rw [h.count_eq, h'.count_eq] at hle
  omega

/-- The stretch of a symbol ascends. -/
theorem pairwise_statesOf (hs : ofWeights w = .ok s) (symbol : UInt16) :
    (s.statesOf w symbol).Pairwise (· < ·) := by
  rw [List.pairwise_iff_getElem]
  intro j j' hj hj' hlt
  -- Two places of the stretch are two numbers of states.
  obtain ⟨u, hn, hu⟩ := exists_nth_of_getElem?_statesOf hs (List.getElem?_eq_getElem hj)
  obtain ⟨u', hn', hu'⟩ := exists_nth_of_getElem?_statesOf hs (List.getElem?_eq_getElem hj')
  rw [hu, hu']
  exact Nat.add_lt_add_left (hn.lt_of_lt hn' hlt) _

/-- The stretch of a symbol holds the states whose slots have the symbol. -/
theorem mem_statesOf_iff (hs : ofWeights w = .ok s) {x : Nat} :
    x ∈ s.statesOf w symbol ↔ ∃ u : Nat, s.symbols[u]? = some symbol ∧ x = w.tableSize + u := by
  rw [List.mem_iff_getElem?]
  constructor
  · intro h
    obtain ⟨j, hj⟩ := h
    obtain ⟨u, hn, hx⟩ := exists_nth_of_getElem?_statesOf hs hj
    exact ⟨u, by rw [← Array.getElem?_toList, hn.symbol_eq], hx⟩
  · intro h
    obtain ⟨u, hu, rfl⟩ := h
    exact ⟨_, getElem?_statesOf hs ⟨by rw [Array.getElem?_toList, hu], rfl⟩⟩

/-- The next-state table of any weights is the encoder states in some order: each symbol has a
stretch of them, which starts at the sum of the weights before it, is as long as its weight, ascends,
and consists of the states whose slots the spread gave to the symbol. The `j`-th of these states,
counted from zero, stands at place `j` of the stretch, and its slot has the sub-state `weight + j`,
for which its decode entry is made. -/
theorem nextStates_ordered (w : Weights) :
    ∃ s, ofWeights w = .ok s ∧
      ((s.nextStates w).toList.map UInt16.toNat).Perm (List.range' w.tableSize w.tableSize) ∧
      w.starts.toList = (List.range w.alphabetSize).map w.start ∧
      ∀ symbol : UInt16,
        (s.statesOf w symbol).length = w.weight symbol.toNat ∧
        (s.statesOf w symbol).Pairwise (· < ·) ∧
        (∀ x, x ∈ s.statesOf w symbol ↔
          ∃ u : Nat, s.symbols[u]? = some symbol ∧ x = w.tableSize + u) ∧
        ∀ j u, s.Nth symbol j u →
          (s.subStates w)[u]? = some (w.weight symbol.toNat + j) ∧
          (s.decodeTable w)[u]? =
            some (.ofSubState w.tableLog w.tableSize symbol (w.weight symbol.toNat + j)) ∧
          (s.nextStates w)[w.start symbol.toNat + j]?.map UInt16.toNat =
            some (w.tableSize + u) := by
  obtain ⟨s, hs⟩ := exists_ofWeights w
  refine ⟨s, hs, encoderStates_perm hs, w.toList_starts, fun symbol => ⟨length_statesOf s w symbol,
    pairwise_statesOf hs symbol, fun x => mem_statesOf_iff hs, fun j u h => ?_⟩⟩
  exact ⟨getElem?_subStates hs h, getElem?_decodeTable hs h, toNat_getElem?_nextStates hs h⟩

/-- The third of the six states of a symbol, counted from zero: state eight. -/
theorem nextStates_ordered_sixteen :
    ∃ s, ofWeights Tables.sixteen.weights = .ok s ∧ s.Nth 1 2 8 ∧
      s.statesOf Tables.sixteen.weights 1 = [18, 21, 24, 27, 30, 31] ∧
      (s.statesOf Tables.sixteen.weights 1).Pairwise (· < ·) ∧
      (s.subStates Tables.sixteen.weights)[8]? = some (6 + 2) ∧
      (s.decodeTable Tables.sixteen.weights)[8]? = some (.ofSubState 4 16 1 (6 + 2)) ∧
      (s.nextStates Tables.sixteen.weights)[6 + 2]?.map UInt16.toNat = some (16 + 8) := by
  obtain ⟨s, hs, -, -, hsymbols⟩ := nextStates_ordered Tables.sixteen.weights
  -- There is one spread of these weights.
  obtain rfl : Tables.sixteen.spread = s := Except.ok.inj (Tables.sixteen.spread_eq.symm.trans hs)
  have hn : Tables.sixteen.spread.Nth 1 2 8 := ⟨by decide, by decide⟩
  obtain ⟨-, hpairwise, -, hplaces⟩ := hsymbols 1
  exact ⟨_, hs, hn, by decide, hpairwise, hplaces 2 8 hn⟩

end Tans.Spread
