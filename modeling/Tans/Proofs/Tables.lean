import Mathlib.Algebra.BigOperators.Group.List.Basic
import Mathlib.Algebra.Order.Ring.Nat
import Mathlib.Data.List.Nodup
import Tans.Proofs.Spread
import Tans.Tables

/-!
# Contents of the tables

The states of a symbol are numbered from zero in ascending order. Each table is described by these
numbers: the decode entry of the `j`-th state of a symbol is built from the sub-state `weight + j`,
and the next-state table holds that state at `start + j`. So the two tables, which are filled by
separate walks over the spread, agree on every state.

* `Spread.exists_nth`, `Spread.Nth.inj`: states and their numbers determine each other.
* `Spread.getElem?_decodeTable`, `Spread.getElem?_nextStates`: the two tables.
-/

namespace Tans

/-! ### Prefix sums -/

namespace Weights

/-- Where the states of an id start in the next-state table. -/
def start (w : Weights) (id : Nat) : Nat := (w.values.toList.take id).sum

/-- Adding up weights, each prefix sum is recorded before its weight is added. -/
theorem foldl_starts (xs : List Nat) (acc : Array Nat) (n : Nat) :
    (xs.foldl (fun (starts, sum) weight => (starts.push sum, sum + weight)) (acc, n)).1.toList =
      acc.toList ++ (List.range xs.length).map fun i => n + (xs.take i).sum := by
  induction xs generalizing acc n with
  | nil => simp
  | cons x xs ih =>
    rw [List.foldl_cons, ih, List.length_cons, List.range_succ_eq_map]
    simp [Nat.add_assoc]

/-- The recorded prefix sums are where the states of the ids start. -/
theorem toList_starts (w : Weights) :
    w.starts.toList = (List.range w.alphabetSize).map w.start := by
  rw [starts, ← Array.foldl_toList, foldl_starts]
  simp [alphabetSize, start]

/-- There is one start for each id. -/
theorem size_starts (w : Weights) : w.starts.size = w.alphabetSize := by
  rw [← Array.length_toList, toList_starts, List.length_map, List.length_range]

/-- The start of an id is found under the id. -/
theorem getElem?_starts {w : Weights} {id : Nat} (h : id < w.alphabetSize) :
    w.starts[id]? = some (w.start id) := by
  rw [← Array.getElem?_toList, toList_starts]
  simp [h]

/-- The states of an id end where those of the next one start. -/
theorem start_succ (w : Weights) (id : Nat) : w.start (id + 1) = w.start id + w.weight id := by
  rw [start, List.take_add_one, List.sum_append, start, weight, Array.getD_eq_getD_getElem?,
    Array.getElem?_toList]
  cases w.values[id]? <;> simp

/-- Starts ascend with the ids. -/
theorem start_le_start {w : Weights} {id id' : Nat} (h : id ≤ id') : w.start id ≤ w.start id' := by
  induction h with
  | refl => exact Nat.le_refl _
  | step _ ih => rw [Nat.succ_eq_add_one, start_succ]; omega

/-- Behind the alphabet, all states of the table have been counted. -/
theorem start_of_alphabetSize_le {w : Weights} {id : Nat} (h : w.alphabetSize ≤ id) :
    w.start id = w.tableSize := by
  have hlen : w.values.toList.length ≤ id := h
  rw [start, List.take_of_length_le hlen]
  exact w.sum_eq

/-- The states of an id end inside of the next-state table. -/
theorem start_add_weight_le (w : Weights) (id : Nat) :
    w.start id + w.weight id ≤ w.tableSize := by
  rw [← start_succ]
  -- The start behind the last id is the table size, and starts ascend.
  rcases Nat.le_total (id + 1) w.alphabetSize with hle | hge
  · rw [← start_of_alphabetSize_le (Nat.le_refl w.alphabetSize)]
    exact start_le_start hle
  · exact Nat.le_of_eq (start_of_alphabetSize_le hge)

/-- No id has more states than the table. -/
theorem weight_le (w : Weights) (id : Nat) : w.weight id ≤ w.tableSize :=
  Nat.le_trans (Nat.le_add_left _ _) (start_add_weight_le w id)

/-- The transform of an id is made from its weight and its start. -/
theorem getElem?_transforms {w : Weights} {id : Nat} (h : id < w.alphabetSize) :
    w.transforms[id]? = some (Transform.ofWeight w.tableLog (w.weight id) (w.start id)) := by
  have hid : id < w.values.size := h
  rw [transforms, Array.getElem?_zipWith, getElem?_starts h]
  simp [weight, hid]

end Weights

/-! ### The numbers of states -/

namespace Spread

/-- State `u` is the `j`-th state of a symbol, counted from zero. -/
structure Nth (s : Spread) (symbol : UInt16) (j u : Nat) : Prop where
  symbol_eq : s.symbols.toList[u]? = some symbol
  count_eq : (s.symbols.toList.take u).count symbol = j

/-- No two states of a symbol have the same number. -/
theorem Nth.inj {s : Spread} {symbol : UInt16} {j u u' : Nat} (h : s.Nth symbol j u)
    (h' : s.Nth symbol j u') : u = u' :=
  List.eq_of_count_take_eq h.symbol_eq h'.symbol_eq (h.count_eq.trans h'.count_eq.symm)

variable {w : Weights} {s : Spread}

/-- The states of a symbol are as many as its weight, so their numbers are below it. -/
theorem Nth.lt_weight {symbol : UInt16} {j u : Nat} (hs : ofWeights w = .ok s)
    (h : s.Nth symbol j u) : j < w.weight symbol.toNat := by
  rw [← count_of_ofWeights hs, ← h.count_eq]
  exact List.count_take_lt h.symbol_eq

/-- A numbered state is one of the table. -/
theorem Nth.lt_tableSize {symbol : UInt16} {j u : Nat} (hs : ofWeights w = .ok s)
    (h : s.Nth symbol j u) : u < w.tableSize := by
  obtain ⟨hu, -⟩ := List.getElem?_eq_some_iff.1 h.symbol_eq
  rwa [Array.length_toList, size_of_ofWeights hs] at hu

/-- A symbol of weight `n` has a `j`-th state for each `j` below `n`. -/
theorem exists_nth {symbol : UInt16} {j : Nat} (hs : ofWeights w = .ok s)
    (h : j < w.weight symbol.toNat) : ∃ u, s.Nth symbol j u := by
  rw [← count_of_ofWeights hs] at h
  obtain ⟨u, hu, hcount⟩ := List.exists_getElem?_eq_and_count_take h
  exact ⟨u, hu, hcount⟩

/-- Each state has a symbol, and a number among the states of that symbol. -/
theorem exists_nth_of_lt {u : Nat} (hs : ofWeights w = .ok s) (h : u < w.tableSize) :
    ∃ symbol j, s.Nth symbol j u := by
  have hu : u < s.symbols.toList.length := by rwa [Array.length_toList, size_of_ofWeights hs]
  exact ⟨s.symbols.toList[u], _, List.getElem?_eq_getElem hu, rfl⟩

/-- The spread holds symbols of the alphabet only. -/
theorem toNat_lt_of_mem {symbol : UInt16} (hs : ofWeights w = .ok s)
    (h : symbol ∈ s.symbols.toList) : symbol.toNat < w.alphabetSize := by
  -- It occurs in the spread as often as its weight says, which is not zero.
  have hpos : 0 < s.symbols.toList.count symbol := List.count_pos_iff.2 h
  rw [count_of_ofWeights hs] at hpos
  exact Weights.lt_alphabetSize hpos

/-- Numbering the states gives the `j`-th state of a symbol the symbol's counter plus `j`. -/
theorem getElem?_number_of_nth {counters : Array Nat} {symbol : UInt16} {j u : Nat}
    (hs : ofWeights w = .ok s) (hsize : counters.size = w.alphabetSize) (h : s.Nth symbol j u) :
    (number counters s.symbols.toList)[u]? = some (counters.getD symbol.toNat 0 + j) := by
  rw [getElem?_number _ _ _ fun s hmem => hsize ▸ toNat_lt_of_mem hs hmem, h.symbol_eq,
    Option.map_some, h.count_eq]

/-! ### The decode table -/

/-- The sub-states of a symbol are counted from its weight on. -/
theorem getElem?_subStates {symbol : UInt16} {j u : Nat} (hs : ofWeights w = .ok s)
    (h : s.Nth symbol j u) : (s.subStates w)[u]? = some (w.weight symbol.toNat + j) :=
  getElem?_number_of_nth hs rfl h

/-- The entry of a slot is made for its symbol and its sub-state. -/
theorem getElem?_decodeTable {symbol : UInt16} {j u : Nat} (hs : ofWeights w = .ok s)
    (h : s.Nth symbol j u) :
    (s.decodeTable w)[u]? =
      some (.ofSubState w.tableLog w.tableSize symbol (w.weight symbol.toNat + j)) := by
  rw [decodeTable, List.getElem?_toArray, List.getElem?_zipWith, h.symbol_eq,
    getElem?_subStates hs h]

/-- The decode table has an entry for each state. -/
theorem size_decodeTable (hs : ofWeights w = .ok s) : (s.decodeTable w).size = w.tableSize := by
  simp [decodeTable, subStates, size_of_ofWeights hs]

/-! ### The next-state table -/

/-- The place of a state is that of its number among the places of its symbol. -/
theorem getElem?_ranks {symbol : UInt16} {j u : Nat} (hs : ofWeights w = .ok s)
    (h : s.Nth symbol j u) : (s.ranks w)[u]? = some (w.start symbol.toNat + j) := by
  have hlt := toNat_lt_of_mem hs (List.mem_of_getElem? h.symbol_eq)
  rw [ranks, getElem?_number_of_nth hs (Weights.size_starts w) h,
    Array.getD_eq_getD_getElem?, Weights.getElem?_starts hlt, Option.getD_some]

/-- The states of different symbols stand at different places. -/
theorem symbol_le_of_start_add {symbol symbol' : UInt16} {j j' : Nat}
    (hj' : j' < w.weight symbol'.toNat)
    (h : w.start symbol.toNat + j = w.start symbol'.toNat + j') :
    symbol.toNat ≤ symbol'.toNat := by
  -- A smaller symbol would end its places before the larger one starts.
  by_contra hlt
  have hle : w.start (symbol'.toNat + 1) ≤ w.start symbol.toNat :=
    Weights.start_le_start (by omega)
  rw [Weights.start_succ] at hle
  omega

/-- No two states have the same place. -/
theorem nodup_ranks (hs : ofWeights w = .ok s) : (s.ranks w).Nodup := by
  apply List.nodup_iff_getElem?_ne_getElem?.2
  intro u u' hlt hu'
  have hsize : (s.ranks w).length = w.tableSize := by
    rw [ranks, length_number, Array.length_toList, size_of_ofWeights hs]
  obtain ⟨symbol, j, hn⟩ := exists_nth_of_lt (u := u) hs (by omega)
  obtain ⟨symbol', j', hn'⟩ := exists_nth_of_lt (u := u') hs (by omega)
  rw [getElem?_ranks hs hn, getElem?_ranks hs hn', ne_eq, Option.some.injEq]
  intro heq
  -- Equal ranks belong to one symbol and one number of it, hence to one state.
  have hle := symbol_le_of_start_add (hn'.lt_weight hs) heq
  have hge := symbol_le_of_start_add (hn.lt_weight hs) heq.symm
  obtain rfl : symbol = symbol' := UInt16.toNat_inj.1 (Nat.le_antisymm hle hge)
  obtain rfl : j = j' := Nat.add_left_cancel heq
  exact Nat.ne_of_lt hlt (hn.inj hn')

/-- The `j`-th state of a symbol stands at the `j`-th place of the symbol. -/
theorem getElem?_nextStates {symbol : UInt16} {j u : Nat} (hs : ofWeights w = .ok s)
    (h : s.Nth symbol j u) :
    (s.nextStates w)[w.start symbol.toNat + j]? = some (UInt16.ofNat (w.tableSize + u)) := by
  -- State `u` is set at its rank, and nothing is set there again since ranks differ.
  have hmem : (w.start symbol.toNat + j, w.tableSize + u) ∈ (s.ranks w).zipIdx w.tableSize := by
    rw [List.mem_zipIdx_iff_le_and_getElem?_sub]
    exact ⟨Nat.le_add_right _ _, by simpa using getElem?_ranks hs h⟩
  have hle := Weights.start_add_weight_le w symbol.toNat
  have hj := h.lt_weight hs
  rw [nextStates]
  refine Array.getElem?_foldl_setIfInBounds UInt16.ofNat hmem ?_ (by simp; omega)
  rw [List.zipIdx_map_fst]
  exact nodup_ranks hs

end Spread

namespace Tables

/-- A table set is the one that its weights and parameters build. -/
theorem ofWeights_eq_ok (t : Tables) : ofWeights t.weights t.params = .ok t := by
  obtain ⟨params, w, spread, decodeTable, nextStates, transforms, hcheck, hlog, hspread, rfl, rfl,
    rfl⟩ := t
  -- The fields of the structure say what each step of the construction gives.
  unfold ofWeights
  split
  · next e he => exact nomatch hcheck.symm.trans he
  · rw [dif_pos hlog]
    split
    · next e he => exact nomatch hspread.symm.trans he
    · next spread' hs =>
      obtain rfl : spread = spread' := Except.ok.inj (hspread.symm.trans hs)
      rfl

/-- The tables of the weights 6, 6 and 4, over sixteen states. -/
def sixteen : Tables :=
  let weights : Weights := ⟨#[6, 6, 4], 4, by decide, by decide, by decide⟩
  let spread : Spread := ⟨#[0, 0, 1, 2, 0, 1, 2, 0, 1, 2, 0, 1, 2, 0, 1, 1]⟩
  { params := { tableLog := 4 }
    weights
    spread
    decodeTable := spread.decodeTable weights
    nextStates := spread.nextStates weights
    transforms := weights.transforms
    check_eq := rfl
    tableLog_eq := rfl
    spread_eq := by decide
    decodeTable_eq := rfl
    nextStates_eq := rfl
    transforms_eq := rfl }

end Tables

end Tans
