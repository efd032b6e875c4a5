import Mathlib.Data.Finset.Union
import Mathlib.Order.Interval.Finset.Nat
import Tans.Proofs.Step

/-!
# Where the states of a symbol lead

A decoder goes from a state to one of an interval of states, as many as there are numbers of the
width that it reads. The intervals of a symbol's states tile the table: a state that follows the
symbol follows exactly one of its states. That is why an encoder, which goes the other way, always
has one state to go to.

* `Tables.entriesOf_eq`: the entries of a symbol are those of its sub-states, in order.
* `Tables.mem_targets_iff`: the intervals in terms of steps.
* `Tables.Step.eq_of_eq`: steps of a symbol that lead to the same state start from the same one.
* `Tables.targets_tile`: the tiling.
-/

namespace Tans

/-- The entries of one symbol, among those of a list of symbols, belong to consecutive sub-states.
The first of them is the symbol's counter. -/
theorem Spread.filter_zipWith_number (tableLog tableSize : Nat) {counters : Array Nat}
    {symbol : UInt16} (h : symbol.toNat < counters.size) (symbols : List UInt16) :
    (List.zipWith (DecodeEntry.ofSubState tableLog tableSize) symbols
        (number counters symbols)).filter (·.symbol = symbol) =
      (List.range' (counters.getD symbol.toNat 0) (symbols.count symbol)).map
        (DecodeEntry.ofSubState tableLog tableSize symbol) := by
  induction symbols generalizing counters with
  | nil => rfl
  | cons s symbols ih =>
    have hmod := @ih (counters.modify s.toNat (· + 1)) (by simpa using h)
    rw [number, List.zipWith_cons_cons, List.filter_cons, hmod]
    -- An entry in front of the others moves the counter of its own symbol and no other.
    by_cases hs : s = symbol
    · subst hs
      rw [Array.getD_modify counters _ h, if_pos rfl, List.count_cons_self, List.range'_succ]
      simp [DecodeEntry.ofSubState]
    · have hne : s.toNat ≠ symbol.toNat := fun hn => hs (UInt16.toNat_inj.1 hn)
      rw [List.count_cons_of_ne hs]
      simp [DecodeEntry.ofSubState, hs, hne, Array.getElem?_modify]

/-- The states that an entry leads to. -/
def DecodeEntry.targets (entry : DecodeEntry) : Finset Nat :=
  Finset.Ico entry.base.toNat (entry.base.toNat + 2 ^ entry.width.toNat)

namespace Tables

variable {t : Tables}

/-! ### The entries of a symbol -/

/-- The decode entries of a symbol, in the order of their states. -/
def entriesOf (t : Tables) (symbol : UInt16) : List DecodeEntry :=
  t.decodeTable.toList.filter (·.symbol = symbol)

/-- The entries of a symbol are those of the states that emit it. -/
theorem mem_entriesOf_iff {symbol : UInt16} {entry : DecodeEntry} :
    entry ∈ t.entriesOf symbol ↔
      ∃ u : Nat, t.decodeTable[u]? = some entry ∧ entry.symbol = symbol := by
  rw [entriesOf, List.mem_filter, decide_eq_true_iff, List.mem_iff_getElem?]
  simp

/-- The entries of a symbol are those of its sub-states, in ascending order. -/
theorem entriesOf_eq {symbol : UInt16} (hpos : 0 < t.weights.weight symbol.toNat) :
    t.entriesOf symbol =
      (List.range' (t.weights.weight symbol.toNat) (t.weights.weight symbol.toNat)).map
        (DecodeEntry.ofSubState t.params.tableLog t.tableSize symbol) := by
  have hlt : symbol.toNat < t.weights.values.size := Weights.lt_alphabetSize hpos
  rw [entriesOf, t.decodeTable_eq, Spread.decodeTable, Spread.subStates,
    Spread.filter_zipWith_number _ _ hlt, Spread.count_of_ofWeights t.spread_eq, t.tableLog_eq,
    tableSize_weights]
  rfl

/-- There are as many entries as states, which the weight counts. -/
theorem length_entriesOf {symbol : UInt16} (hpos : 0 < t.weights.weight symbol.toNat) :
    (t.entriesOf symbol).length = t.weights.weight symbol.toNat := by
  rw [entriesOf_eq hpos, List.length_map, List.length_range']

/-- The symbols of the entries are those of the spread. -/
theorem map_symbol_decodeTable (t : Tables) :
    t.decodeTable.map DecodeEntry.symbol = t.spread.symbols := by
  apply Array.ext_getElem?
  intro u
  by_cases hu : u < t.weights.tableSize
  · obtain ⟨symbol, j, hn⟩ := Spread.exists_nth_of_lt t.spread_eq hu
    obtain ⟨entry, hentry, hsymbol, -⟩ := exists_entry_of_nth hn
    rw [Array.getElem?_map, hentry, ← Array.getElem?_toList, hn.symbol_eq, ← hsymbol]
    rfl
  · -- Both arrays end with the last state.
    have hspread := Spread.size_of_ofWeights t.spread_eq
    have hdecode := t.size_decodeTable
    rw [← tableSize_weights] at hdecode
    rw [Array.getElem?_eq_none (by simp; omega), Array.getElem?_eq_none (by omega)]

/-! ### Where they lead -/

/-- An entry leads where the steps of its state lead. -/
theorem mem_targets_iff {u x : Nat} {entry : DecodeEntry} (h : t.decodeTable[u]? = some entry) :
    x ∈ entry.targets ↔ ∃ field, t.Step u entry.symbol field x := by
  rw [DecodeEntry.targets, Finset.mem_Ico]
  constructor
  · intro ⟨hle, hlt⟩
    exact ⟨⟨x - entry.base.toNat, entry.width.toNat⟩, entry, h, rfl, rfl,
      Nat.sub_lt_left_of_lt_add hle hlt, Nat.add_sub_cancel' hle⟩
  · intro ⟨field, entry', h', _, hwidth, hvalue, hx⟩
    obtain rfl : entry = entry' := Option.some.inj (h.symm.trans h')
    rw [hwidth]
    omega

/-- A state that follows a symbol tells the state before, since encoding goes back there. -/
theorem Step.eq_of_eq {u u' x : Nat} {symbol : UInt16} {field field' : Bits.Field}
    (h : t.Step u symbol field x) (h' : t.Step u' symbol field' x) : u = u' := by
  -- Encoding the symbol from that state undoes both steps, and has one outcome.
  have heq := h.encodeSymbol.symm.trans h'.encodeSymbol
  simp only [Except.ok.injEq, Prod.mk.injEq] at heq
  omega

/-- Different states of a symbol lead to different states. -/
theorem disjoint_targets {u u' : Nat} {entry entry' : DecodeEntry}
    (h : t.decodeTable[u]? = some entry) (h' : t.decodeTable[u']? = some entry')
    (hsymbol : entry.symbol = entry'.symbol) (hne : u ≠ u') :
    Disjoint entry.targets entry'.targets := by
  rw [Finset.disjoint_left]
  intro x hx hx'
  obtain ⟨field, hstep⟩ := (mem_targets_iff h).1 hx
  obtain ⟨field', hstep'⟩ := (mem_targets_iff h').1 hx'
  exact hne (hstep.eq_of_eq (hsymbol ▸ hstep'))

theorem pairwise_disjoint_targets (t : Tables) (symbol : UInt16) :
    (t.entriesOf symbol).Pairwise fun e e' => Disjoint e.targets e'.targets := by
  rw [entriesOf, List.pairwise_filter, List.pairwise_iff_getElem]
  intro u u' hu hu' hlt hsymbol hsymbol'
  rw [decide_eq_true_iff] at hsymbol hsymbol'
  have hentry : t.decodeTable[u]? = some t.decodeTable.toList[u] := by
    rw [← Array.getElem?_toList, List.getElem?_eq_getElem hu]
  have hentry' : t.decodeTable[u']? = some t.decodeTable.toList[u'] := by
    rw [← Array.getElem?_toList, List.getElem?_eq_getElem hu']
  exact disjoint_targets hentry hentry' (hsymbol.trans hsymbol'.symm) (Nat.ne_of_lt hlt)

theorem targets_subset {symbol : UInt16} {entry : DecodeEntry} (h : entry ∈ t.entriesOf symbol) :
    entry.targets ⊆ Finset.range t.tableSize := by
  obtain ⟨u, hentry, -⟩ := mem_entriesOf_iff.1 h
  intro x hx
  obtain ⟨field, hstep⟩ := (mem_targets_iff hentry).1 hx
  exact Finset.mem_range.2 hstep.lt_tableSize

/-- Every state follows each symbol that has states. -/
theorem exists_mem_targets {symbol : UInt16} (hpos : 0 < t.weights.weight symbol.toNat) {x : Nat}
    (hx : x < t.tableSize) : ∃ entry ∈ t.entriesOf symbol, x ∈ entry.targets := by
  obtain ⟨u, field, hstep⟩ := exists_step_to hx hpos
  -- The state that the step starts from has an entry, which makes this step among others.
  have ⟨entry, hentry, hsymbol, _⟩ := hstep
  refine ⟨entry, mem_entriesOf_iff.2 ⟨u, hentry, hsymbol⟩, ?_⟩
  exact (mem_targets_iff hentry).2 ⟨field, hsymbol ▸ hstep⟩

/-- The states of a symbol tile the table: the intervals that their entries lead to are disjoint,
lie in the table and together are the table. The entry of a state has the symbol that the spread
gave to the state. -/
theorem targets_tile (t : Tables) :
    (∀ symbol : UInt16, 0 < t.weights.weight symbol.toNat →
      (t.entriesOf symbol).Pairwise (fun e e' => Disjoint e.targets e'.targets) ∧
      (∀ entry ∈ t.entriesOf symbol, entry.targets ⊆ Finset.range t.tableSize) ∧
      (t.entriesOf symbol).toFinset.biUnion DecodeEntry.targets = Finset.range t.tableSize) ∧
    t.decodeTable.map DecodeEntry.symbol = t.spread.symbols := by
  refine ⟨fun symbol hpos => ⟨t.pairwise_disjoint_targets symbol, fun entry h => targets_subset h,
    ?_⟩, t.map_symbol_decodeTable⟩
  -- No entry leads out of the table, and each state is led to by some entry.
  apply Finset.Subset.antisymm
  · rw [Finset.biUnion_subset]
    intro entry h
    exact targets_subset (List.mem_toFinset.1 h)
  · intro x hx
    obtain ⟨entry, hentry, hmem⟩ := exists_mem_targets hpos (Finset.mem_range.1 hx)
    exact Finset.mem_biUnion.2 ⟨entry, List.mem_toFinset.2 hentry, hmem⟩

/-- The six intervals of a symbol of weight six, of which the last four are only half as long. -/
theorem targets_tile_sixteen :
    0 < sixteen.weights.weight 0 ∧
    (sixteen.entriesOf 0).map (fun e => (e.base.toNat, e.base.toNat + 2 ^ e.width.toNat)) =
      [(8, 12), (12, 16), (0, 2), (2, 4), (4, 6), (6, 8)] ∧
    (sixteen.entriesOf 0).Pairwise (fun e e' => Disjoint e.targets e'.targets) ∧
    (∀ entry ∈ sixteen.entriesOf 0, entry.targets ⊆ Finset.range 16) ∧
    (sixteen.entriesOf 0).toFinset.biUnion DecodeEntry.targets = Finset.range 16 :=
  ⟨by decide, by decide, (targets_tile sixteen).1 0 (by decide)⟩

end Tables

end Tans
