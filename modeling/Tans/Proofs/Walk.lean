import Mathlib.Data.Fintype.EquivFin
import Mathlib.Data.Int.ModEq
import Mathlib.Data.Nat.Prime.Basic
import Tans.Proofs.Tables

/-!
# The walk over the slots

The step between slots is odd and the number of slots a power of two, so the walk meets every slot
before it is back where it began. Hence the slot to try next is free as long as any slot is, and no
probe ever moves on: the `j`-th symbol lands in the `j`-th slot of the walk. Weights sum to the
table size, so in the end no slot is left over.

* `Layout.slotOf_inj`, `Layout.exists_slotOf_eq`: the walk meets every slot once.
* `Layout.Walked.place`, `Layout.Walked.foldlM_place`: one placement, and a sequence of them.
* `Spread.exists_ofWeights`: all weights can be spread.
* `Spread.getElem?_slotOf`, `Spread.ofWeights_closedForm`: which symbol each slot gets.
-/

namespace Tans

/-! ### The order of the slots -/

/-- The last bit of the step is set, so the step is odd. -/
theorem spreadStep_mod_two (tableSize : Nat) : spreadStep tableSize % 2 = 1 := by
  simp [spreadStep]

/-- The step shares no divisor with the number of slots. -/
theorem coprime_spreadStep (tableLog : Nat) :
    Nat.Coprime (spreadStep (2 ^ tableLog)) (2 ^ tableLog) := by
  apply Nat.Coprime.pow_right
  rw [Nat.coprime_two_right]
  exact Nat.odd_iff.2 (spreadStep_mod_two _)

namespace Layout

/-- The `j`-th slot of the walk. -/
def slotOf (size j : Nat) : Nat := j * spreadStep size % size

/-- The walk stays in the table. -/
theorem slotOf_lt {size : Nat} (h : 0 < size) (j : Nat) : slotOf size j < size :=
  Nat.mod_lt _ h

/-- The walk starts at the first slot. -/
theorem slotOf_zero (size : Nat) : slotOf size 0 = 0 := by
  simp [slotOf]

/-- The walk moves on by the step. -/
theorem slotOf_succ (size j : Nat) :
    slotOf size (j + 1) = (slotOf size j + spreadStep size) % size := by
  simp [slotOf, Nat.add_mul]

/-- The walk meets no slot twice. -/
theorem slotOf_inj {tableLog i j : Nat} (hi : i < 2 ^ tableLog) (hj : j < 2 ^ tableLog)
    (h : slotOf (2 ^ tableLog) i = slotOf (2 ^ tableLog) j) : i = j := by
  -- The step has an inverse modulo the number of slots, so it can be cancelled.
  have hmod : i ≡ j [MOD 2 ^ tableLog] :=
    Nat.ModEq.cancel_right_of_coprime (coprime_spreadStep tableLog).symm h
  exact hmod.eq_of_lt_of_lt hi hj

/-- The walk meets every slot. -/
theorem exists_slotOf_eq {tableLog i : Nat} (hi : i < 2 ^ tableLog) :
    ∃ j < 2 ^ tableLog, slotOf (2 ^ tableLog) j = i := by
  -- A walk of as many slots as there are, none of them met twice, leaves none out.
  let walk (j : Fin (2 ^ tableLog)) : Fin (2 ^ tableLog) :=
    ⟨slotOf (2 ^ tableLog) j, slotOf_lt (Nat.two_pow_pos _) j⟩
  have hinj : Function.Injective walk := fun j k h =>
    Fin.ext (slotOf_inj j.isLt k.isLt (Fin.mk.inj h))
  obtain ⟨j, hj⟩ := Finite.injective_iff_surjective.1 hinj ⟨i, hi⟩
  exact ⟨j, j.isLt, congrArg Fin.val hj⟩

/-! ### Placements -/

/-- The given symbols were placed, each of them in its slot of the walk, and all other slots are
free. -/
structure Walked (tableLog : Nat) (symbols : List UInt16) (l : Layout) : Prop where
  size_eq : l.slots.size = 2 ^ tableLog
  cursor_eq : l.cursor = slotOf (2 ^ tableLog) symbols.length
  placed_eq : l.placed = symbols.length
  getElem?_slots : ∀ j < 2 ^ tableLog, l.slots[slotOf (2 ^ tableLog) j]? = some symbols[j]?

/-- Before anything is placed, all slots are free. -/
theorem walked_empty (tableLog : Nat) : Walked tableLog [] (empty (2 ^ tableLog)) where
  size_eq := by simp [empty]
  cursor_eq := by simp [empty, slotOf_zero]
  placed_eq := rfl
  getElem?_slots j _ := by simp [empty, Array.getElem?_replicate, slotOf_lt]

variable {tableLog : Nat} {symbols : List UInt16} {l : Layout}

/-- The slot to try next is free, as long as any slot is. -/
theorem Walked.getElem?_cursor (h : l.Walked tableLog symbols)
    (hlt : symbols.length < 2 ^ tableLog) : l.slots[l.cursor]? = some none := by
  rw [h.cursor_eq, h.getElem?_slots _ hlt]
  simp

/-- Probing ends where it starts. -/
theorem Walked.probe (h : l.Walked tableLog symbols) (hlt : symbols.length < 2 ^ tableLog) :
    l.probe l.slots.size l.cursor = some l.cursor := by
  have hfree : l.slots.getD l.cursor none = none := by
    rw [Array.getD_eq_getD_getElem?, h.getElem?_cursor hlt]
    rfl
  -- A probe of at least one slot looks at the cursor first.
  obtain ⟨n, hn⟩ : ∃ n, l.slots.size = n + 1 := ⟨l.slots.size - 1, by have := h.size_eq; omega⟩
  simp only [hn, Layout.probe, hfree]

/-- A symbol is placed where the cursor stands, if any slot is free. -/
theorem Walked.place_eq (h : l.Walked tableLog symbols) (hlt : symbols.length < 2 ^ tableLog)
    {symbol : Nat} (hsymbol : symbol < maxAlphabetSize) :
    l.place symbol = .ok ⟨l.slots.setIfInBounds l.cursor (some (UInt16.ofNat symbol)),
      l.after l.cursor, l.placed + 1⟩ := by
  rw [Layout.place, if_neg (Nat.not_le.2 hsymbol), h.probe hlt]

/-- A symbol is placed in the next slot of the walk, if there is one. -/
theorem Walked.place (h : l.Walked tableLog symbols) (hlt : symbols.length < 2 ^ tableLog)
    {symbol : Nat} (hsymbol : symbol < maxAlphabetSize) :
    ∃ l', l.place symbol = .ok l' ∧ l'.Walked tableLog (symbols ++ [UInt16.ofNat symbol]) := by
  have hplace := h.place_eq hlt hsymbol
  obtain ⟨hsize, hcursor, hplaced, hslots⟩ := h
  refine ⟨_, hplace, by simpa using hsize, ?_, by simp [hplaced], fun j hj => ?_⟩
  · simp [after, hsize, hcursor, slotOf_succ]
  · simp only [hcursor, Array.getElem?_setIfInBounds]
    -- The slot that is filled now, or one of the others.
    by_cases heq : j = symbols.length
    · subst heq
      simp [hsize, slotOf_lt]
    · -- No other slot of the walk is this one, so it holds what it held before.
      have hne : slotOf (2 ^ tableLog) symbols.length ≠ slotOf (2 ^ tableLog) j :=
        fun h => heq (slotOf_inj hlt hj h).symm
      rw [if_neg hne, hslots j hj, List.getElem?_append]
      split
      · rfl
      · have : j - symbols.length ≠ 0 := by omega
        simp [this]
        omega

/-- Symbols are placed one after the other, as long as there are slots for all of them. -/
theorem Walked.foldlM_place (h : l.Walked tableLog symbols) {ids : List Nat}
    (hlen : symbols.length + ids.length ≤ 2 ^ tableLog) (hids : ∀ id ∈ ids, id < maxAlphabetSize) :
    ∃ l', ids.foldlM Layout.place l = .ok l' ∧
      l'.Walked tableLog (symbols ++ ids.map UInt16.ofNat) := by
  induction ids generalizing l symbols with
  | nil => exact ⟨l, rfl, by simpa using h⟩
  | cons id ids ih =>
    -- The first id lands in the slot that the invariant names, the others behind it.
    rw [List.length_cons] at hlen
    obtain ⟨hid, hids⟩ := List.forall_mem_cons.1 hids
    obtain ⟨l₁, hplace, h₁⟩ := h.place (by omega) hid
    obtain ⟨l', hfold, h'⟩ := ih h₁ (by simp; omega) hids
    refine ⟨l', ?_, by simpa using h'⟩
    rw [List.foldlM_cons]
    exact Except.bind_eq_ok_iff.2 ⟨l₁, hplace, hfold⟩

/-- When as many symbols were placed as there are slots, none is free. -/
theorem Walked.exists_symbolsFrom (h : l.Walked tableLog symbols)
    (hlen : symbols.length = 2 ^ tableLog) :
    ∃ placed, symbolsFrom 0 l.slots.toList = .ok placed := by
  have hfull : ∀ slot ∈ l.slots.toList, some (slot.getD 0) = slot := by
    intro slot hslot
    obtain ⟨i, hi, rfl⟩ := List.getElem_of_mem hslot
    have hi : i < l.slots.size := hi
    -- The walk meets this slot at some point, and a symbol was placed then.
    obtain ⟨j, hj, rfl⟩ := exists_slotOf_eq (h.size_eq ▸ hi)
    have hslot := h.getElem?_slots j hj
    rw [List.getElem?_eq_getElem (hlen ▸ hj), Array.getElem?_eq_getElem hi] at hslot
    rw [Array.getElem_toList, Option.some.inj hslot]
    rfl
  refine ⟨l.slots.toList.map (·.getD 0), symbolsFrom_eq_ok_iff.2 ?_⟩
  rw [List.map_map]
  calc l.slots.toList = l.slots.toList.map id := (List.map_id _).symm
    _ = l.slots.toList.map (some ∘ (·.getD 0)) := (List.map_congr_left hfull).symm

end Layout

/-! ### Spreading -/

namespace Weights

/-- The weights of all ids sum to the table size. -/
theorem sum_map_weight (w : Weights) :
    ((List.range w.alphabetSize).map w.weight).sum = w.tableSize := by
  have hvalues : w.values.toList = (List.range w.alphabetSize).map w.weight :=
    w.values.toList_eq_map_range 0
  rw [← hvalues]
  exact w.sum_eq

/-- There is a symbol to place for each state. -/
theorem length_runs (w : Weights) : w.runs.length = w.tableSize := by
  simp [runs, List.length_flatMap, sum_map_weight]

/-- The number of states is a power of two. -/
theorem tableSize_eq_two_pow (w : Weights) : w.tableSize = 2 ^ w.tableLog := by
  simp [tableSize, Nat.shiftLeft_eq]

/-- What was placed and what is still to be placed are as many as the slots. -/
theorem length_add_length_of_runs {w : Weights} {ids rest : List Nat} (h : w.runs = ids ++ rest) :
    ids.length + rest.length = 2 ^ w.tableLog := by
  rw [← w.tableSize_eq_two_pow, ← w.length_runs, h, List.length_append]

/-- Symbols are placed in ascending order. -/
theorem pairwise_runs (w : Weights) : w.runs.Pairwise (· ≤ ·) := by
  rw [runs, List.pairwise_flatMap]
  constructor
  · intro id _
    exact List.pairwise_replicate.2 (.inr (Nat.le_refl id))
  · -- The run of an id holds this id only, so runs are in the order of their ids.
    apply List.pairwise_lt_range.imp
    intro id id' hlt a ha b hb
    rw [List.eq_of_mem_replicate ha, List.eq_of_mem_replicate hb]
    omega

end Weights

/-- Placing all ids but the last few puts each of them in its slot of the walk. -/
theorem Layout.exists_walked (w : Weights) {ids rest : List Nat} (h : w.runs = ids ++ rest) :
    ∃ l, ids.foldlM Layout.place (.empty w.tableSize) = .ok l ∧
      l.Walked w.tableLog (ids.map UInt16.ofNat) := by
  have hlen := Weights.length_add_length_of_runs h
  have hids : ∀ id ∈ ids, id < maxAlphabetSize := fun id hid =>
    Weights.lt_of_mem_runs (h ▸ List.mem_append_left rest hid)
  rw [w.tableSize_eq_two_pow]
  exact (walked_empty w.tableLog).foldlM_place (by rw [List.length_nil]; omega) hids

/-- Each placement finds the slot free that the cursor stands at, and puts its symbol there. -/
theorem Layout.exists_place_eq (w : Weights) {ids rest : List Nat} {id : Nat}
    (h : w.runs = ids ++ id :: rest) :
    ∃ l, ids.foldlM Layout.place (.empty w.tableSize) = .ok l ∧
      l.cursor = slotOf w.tableSize ids.length ∧ l.slots[l.cursor]? = some none ∧
      l.place id = .ok ⟨l.slots.setIfInBounds l.cursor (some (UInt16.ofNat id)),
        l.after l.cursor, l.placed + 1⟩ := by
  obtain ⟨l, hfold, hl⟩ := exists_walked w h
  have hlt : (ids.map UInt16.ofNat).length < 2 ^ w.tableLog := by
    rw [List.length_map, ← Weights.length_add_length_of_runs h, List.length_cons]
    omega
  have hmem : id ∈ w.runs := by simp [h]
  refine ⟨l, hfold, ?_, hl.getElem?_cursor hlt, hl.place_eq hlt (Weights.lt_of_mem_runs hmem)⟩
  rw [hl.cursor_eq, List.length_map, w.tableSize_eq_two_pow]

namespace Spread

/-- All weights can be spread over the states: no symbol is refused, and no state is left over. -/
theorem exists_ofWeights (w : Weights) : ∃ s, ofWeights w = .ok s := by
  obtain ⟨l, hfold, hl⟩ := Layout.exists_walked w (List.append_nil w.runs).symm
  have hlen : (w.runs.map UInt16.ofNat).length = 2 ^ w.tableLog := by
    rw [List.length_map, w.length_runs, w.tableSize_eq_two_pow]
  obtain ⟨symbols, hsymbols⟩ := hl.exists_symbolsFrom hlen
  exact ⟨⟨symbols.toArray⟩, Except.bind_eq_ok_iff.2 ⟨l, hfold,
    Except.bind_eq_ok_iff.2 ⟨symbols, hsymbols, rfl⟩⟩⟩

/-- The `i`-th slot of the walk gets the `i`-th of the symbols to place. -/
theorem getElem?_slotOf {w : Weights} {s : Spread} (h : ofWeights w = .ok s) {i : Nat}
    (hi : i < w.tableSize) :
    s.symbols[Layout.slotOf w.tableSize i]? = w.runs[i]?.map UInt16.ofNat := by
  obtain ⟨l, hfold, h⟩ := Except.bind_eq_ok_iff.1 h
  obtain ⟨symbols, hsymbols, h⟩ := Except.bind_eq_ok_iff.1 h
  cases h
  obtain ⟨l', hfold', hl⟩ := Layout.exists_walked w (List.append_nil w.runs).symm
  obtain rfl : l = l' := Except.ok.inj (hfold.symm.trans hfold')
  rw [w.tableSize_eq_two_pow] at hi ⊢
  have hslot := hl.getElem?_slots i hi
  rw [← Array.getElem?_toList, Layout.symbolsFrom_eq_ok_iff.1 hsymbols, List.getElem?_map] at hslot
  -- Every slot holds a symbol, so what the walk left in this one is what was read off.
  cases hsymbol : symbols[Layout.slotOf (2 ^ w.tableLog) i]? with
  | none => simp [hsymbol] at hslot
  | some symbol => simpa [hsymbol] using hslot

/-- The spread in closed form. The symbols to place are the ids in ascending order, each as often as
its weight says, and slot `i * step % tableSize` gets the `i`-th of them. No placement probes a
second slot, and each slot is met once. So all weights can be spread, and an id has as many states
as its weight says. -/
theorem ofWeights_closedForm (w : Weights) :
    (w.runs.Pairwise (· ≤ ·) ∧ ∀ id, w.runs.count id = w.weight id) ∧
    (∀ ids id rest, w.runs = ids ++ id :: rest →
      ∃ l, ids.foldlM Layout.place (.empty w.tableSize) = .ok l ∧
        l.cursor = ids.length * spreadStep w.tableSize % w.tableSize ∧
        l.slots[l.cursor]? = some none ∧
        l.place id = .ok ⟨l.slots.setIfInBounds l.cursor (some (UInt16.ofNat id)),
          l.after l.cursor, l.placed + 1⟩) ∧
    (∀ slot < w.tableSize,
      ∃! i, i < w.tableSize ∧ i * spreadStep w.tableSize % w.tableSize = slot) ∧
    ∃ s, ofWeights w = .ok s ∧ s.size = w.tableSize ∧
      (∀ i < w.tableSize, ∃ id symbol, w.runs[i]? = some id ∧
        s.symbols[i * spreadStep w.tableSize % w.tableSize]? = some symbol ∧
        symbol.toNat = id) ∧
      ∀ symbol, s.occurrences symbol = w.weight symbol.toNat := by
  obtain ⟨s, hs⟩ := exists_ofWeights w
  refine ⟨⟨w.pairwise_runs, w.count_runs⟩, fun ids id rest h => Layout.exists_place_eq w h,
    fun slot hslot => ?_, s, hs, size_of_ofWeights hs, fun i hi => ?_, fun symbol => ?_⟩
  -- Each slot is met, and by one number of steps only.
  · rw [w.tableSize_eq_two_pow] at hslot ⊢
    obtain ⟨i, hi, hslot⟩ := Layout.exists_slotOf_eq hslot
    exact ⟨i, ⟨hi, hslot⟩, fun j ⟨hj, hslot'⟩ => Layout.slotOf_inj hj hi (hslot'.trans hslot.symm)⟩
  · have hi' : i < w.runs.length := by rwa [w.length_runs]
    have hid : w.runs[i] < UInt16.size := Weights.lt_of_mem_runs (List.getElem_mem hi')
    have hslot := getElem?_slotOf hs hi
    rw [List.getElem?_eq_getElem hi'] at hslot ⊢
    exact ⟨w.runs[i], .ofNat w.runs[i], rfl, hslot, UInt16.toNat_ofNat_of_lt' hid⟩
  · rw [← count_of_ofWeights hs, occurrences, Array.count_toList]

/-- Weights over eight states, where the step would be even without its last bit. -/
def eight : Weights := ⟨#[3, 5], 3, by decide, by decide, by decide⟩

/-- With a step of nine, eight states are walked in order. -/
theorem ofWeights_closedForm_eight :
    (eight.runs = [0, 0, 0] ++ 1 :: [1, 1, 1, 1] ∧
      ∃ l, [0, 0, 0].foldlM Layout.place (.empty eight.tableSize) = .ok l ∧
        l.cursor = 3 * spreadStep eight.tableSize % eight.tableSize ∧
        l.slots[l.cursor]? = some none ∧
        l.place 1 = .ok ⟨l.slots.setIfInBounds l.cursor (some 1), l.after l.cursor,
          l.placed + 1⟩) ∧
    (5 < eight.tableSize ∧
      ∃! i, i < eight.tableSize ∧ i * spreadStep eight.tableSize % eight.tableSize = 5) ∧
    (3 < eight.tableSize ∧ 3 * spreadStep eight.tableSize % eight.tableSize = 3 ∧
      ∃ s, ofWeights eight = .ok s ∧ ∃ id symbol, eight.runs[3]? = some id ∧
        s.symbols[3 * spreadStep eight.tableSize % eight.tableSize]? = some symbol ∧
        symbol.toNat = id) := by
  obtain ⟨-, hplace, hwalk, s, hs, -, hslots, -⟩ := ofWeights_closedForm eight
  have hruns : eight.runs = [0, 0, 0] ++ 1 :: [1, 1, 1, 1] := by decide
  exact ⟨⟨hruns, hplace _ _ _ hruns⟩, ⟨by decide, hwalk 5 (by decide)⟩, by decide, by decide, s, hs,
    hslots 3 (by decide)⟩

end Spread

end Tans
