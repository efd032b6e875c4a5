import Tans.Proofs.ForStd
import Tans.Spread

/-!
# Coverage of a spread

However the slots are walked, a layout only ever fills free ones, so a symbol holds as many slots
as it was placed times. A spread has no slot left over, so each symbol gets exactly the states that
its weight asks for. The step between slots plays no part in this.

* `Layout.Holds.place`, `Layout.Holds.foldlM_place`: one placement, and a sequence of them.
* `Spread.size_of_ofWeights`, `Spread.count_of_ofWeights`: what a spread is made of.
-/

namespace Tans

/-! ### The symbols to place -/

namespace Weights

/-- Among the ids below `n`, each is to be placed as often as its weight says. -/
theorem count_runs_aux (w : Weights) (n id : Nat) :
    ((List.range n).flatMap fun i => List.replicate (w.weight i) i).count id =
      if id < n then w.weight id else 0 := by
  induction n with
  | zero => rfl
  | succ n ih =>
    rw [List.range_succ, List.flatMap_append, List.count_append, ih]
    -- The last run is that of `n`, and no other run has this id.
    by_cases hid : id = n
    · subst hid
      simp
    · simp only [List.flatMap_cons, List.flatMap_nil, List.append_nil, List.count_replicate,
        beq_iff_eq, Ne.symm hid, if_false, Nat.add_zero]
      split <;> split <;> omega

/-- Ids outside of the alphabet have no weight. -/
theorem weight_eq_zero {w : Weights} {id : Nat} (h : w.alphabetSize ≤ id) : w.weight id = 0 := by
  have hsize : w.values.size ≤ id := h
  simp [weight, hsize]

/-- Only ids of the alphabet have a weight. -/
theorem lt_alphabetSize {w : Weights} {id : Nat} (h : 0 < w.weight id) : id < w.alphabetSize := by
  by_contra hge
  have := weight_eq_zero (Nat.le_of_not_lt hge)
  omega

/-- Each id is to be placed as often as its weight says. -/
theorem count_runs (w : Weights) (id : Nat) : w.runs.count id = w.weight id := by
  rw [runs, count_runs_aux]
  split
  · rfl
  · next h => exact (weight_eq_zero (Nat.le_of_not_lt h)).symm

/-- All ids to place have sixteen bits. -/
theorem lt_of_mem_runs {w : Weights} {id : Nat} (h : id ∈ w.runs) : id < maxAlphabetSize := by
  -- An id that is placed has a weight, so it belongs to the alphabet.
  have hpos : 0 < w.runs.count id := List.count_pos_iff.2 h
  rw [count_runs] at hpos
  exact Nat.lt_of_lt_of_le (lt_alphabetSize hpos) w.size_le

/-- The same for ids in sixteen bits, which name all ids of an alphabet. -/
theorem count_map_runs (w : Weights) (s : UInt16) :
    (w.runs.map UInt16.ofNat).count s = w.weight s.toNat := by
  rw [← count_runs, List.count, List.countP_map]
  apply List.countP_congr
  intro id hid
  have hlt : id < UInt16.size := lt_of_mem_runs hid
  have hid16 : (UInt16.ofNat id).toNat = id := UInt16.toNat_ofNat_of_lt' hlt
  simp only [Function.comp_apply, beq_iff_eq]
  constructor
  · intro h
    rw [← h, hid16]
  · intro h
    rw [← UInt16.toNat_inj, hid16, h]

end Weights

/-! ### Filling slots -/

namespace Layout

/-- Probing ends at a free slot. -/
theorem getD_eq_none_of_probe {l : Layout} {n slot i : Nat} (h : l.probe n slot = some i) :
    l.slots.getD i none = none := by
  induction n generalizing slot with
  | zero => exact nomatch h
  | succ n ih =>
    simp only [probe] at h
    -- The probe ends at this slot, or goes on from the next one.
    split at h
    · next hfree => cases h; exact hfree
    · exact ih h

/-- The next slot is one of the table. -/
theorem after_lt {l : Layout} (h : 0 < l.slots.size) (slot : Nat) :
    l.after slot < l.slots.size :=
  Nat.mod_lt _ h

/-- Probing from a slot of the table ends at one. -/
theorem lt_of_probe {l : Layout} {n slot i : Nat} (hslot : slot < l.slots.size)
    (h : l.probe n slot = some i) : i < l.slots.size := by
  induction n generalizing slot with
  | zero => exact nomatch h
  | succ n ih =>
    simp only [probe] at h
    split at h
    · cases h; exact hslot
    · exact ih (after_lt (Nat.zero_lt_of_lt hslot) slot) h

/-- A layout of `size` slots, some of which hold the given symbols and no others. -/
structure Holds (size : Nat) (symbols : List UInt16) (l : Layout) : Prop where
  size_eq : l.slots.size = size
  cursor_lt : l.cursor < size
  count_eq : ∀ s, l.slots.toList.count (some s) = symbols.count s

/-- A layout without symbols holds none. -/
theorem holds_empty {size : Nat} (h : 0 < size) : Holds size [] (empty size) where
  size_eq := by simp [empty]
  cursor_lt := h
  count_eq s := by simp [empty, List.count_replicate]

/-- Placing a symbol fills one more slot and empties none. -/
theorem Holds.place {size : Nat} {symbols : List UInt16} {l l' : Layout} {symbol : Nat}
    (hl : l.Holds size symbols) (h : l.place symbol = .ok l') :
    l'.Holds size (symbols ++ [UInt16.ofNat symbol]) := by
  obtain ⟨hsize, hcursor, hcount⟩ := hl
  -- The symbol is in range and a probe has found a slot, or nothing was placed.
  simp only [Layout.place] at h
  split at h
  · exact nomatch h
  · split at h
    · exact nomatch h
    · next slot hprobe =>
      cases h
      have hlt : slot < l.slots.size := lt_of_probe (hsize ▸ hcursor) hprobe
      -- The slot was free, so filling it takes no symbol away.
      have hfree : l.slots[slot] = none := by
        simpa [Array.getD, hlt] using getD_eq_none_of_probe hprobe
      refine ⟨by simpa using hsize, hsize ▸ after_lt (by omega) slot, fun s => ?_⟩
      rw [Array.toList_setIfInBounds, List.count_set (by simpa using hlt), hcount]
      simp only [Array.getElem_toList, hfree, List.count_append, List.count_singleton]
      simp

/-- Placing symbols one after the other fills a slot for each of them. -/
theorem Holds.foldlM_place {size : Nat} {symbols : List UInt16} {l l' : Layout} {ids : List Nat}
    (hl : l.Holds size symbols) (h : ids.foldlM Layout.place l = .ok l') :
    l'.Holds size (symbols ++ ids.map UInt16.ofNat) := by
  induction ids generalizing l symbols with
  | nil =>
    cases h
    simpa using hl
  | cons id ids ih =>
    rw [List.foldlM_cons] at h
    obtain ⟨l₁, h₁, h⟩ := Except.bind_eq_ok_iff.1 h
    have := ih (hl.place h₁) h
    rwa [List.append_assoc, List.singleton_append] at this

/-- Symbols can be read off exactly if no slot is free. -/
theorem symbolsFrom_eq_ok_iff {slot : Nat} {slots : List (Option UInt16)}
    {symbols : List UInt16} :
    symbolsFrom slot slots = .ok symbols ↔ slots = symbols.map some := by
  induction slots generalizing slot symbols with
  | nil => cases symbols <;> simp [symbolsFrom]
  | cons s slots ih =>
    -- A free slot ends the reading with an error, a symbol is read off.
    cases s with
    | none => cases symbols <;> simp [symbolsFrom]
    | some s =>
      rw [symbolsFrom, Except.map_eq_ok_iff]
      constructor
      · intro h
        obtain ⟨rest, hrest, rfl⟩ := h
        rw [ih.1 hrest, List.map_cons]
      · intro h
        cases symbols with
        | nil => exact nomatch h
        | cons s' rest =>
          obtain ⟨hs, hrest⟩ := List.cons_eq_cons.1 h
          cases hs
          exact ⟨rest, ih.2 hrest, rfl⟩

end Layout

namespace Spread

/-- There is at least one state. -/
theorem tableSize_pos (w : Weights) : 0 < w.tableSize := by
  rw [Weights.tableSize, Nat.shiftLeft_eq, Nat.one_mul]
  exact Nat.two_pow_pos _

/-- A spread comes from a layout that holds the runs of its weights and has no free slot. -/
theorem exists_layout_of_ofWeights {w : Weights} {s : Spread} (h : ofWeights w = .ok s) :
    ∃ l : Layout, l.Holds w.tableSize (w.runs.map UInt16.ofNat) ∧
      l.slots.toList = s.symbols.toList.map some := by
  obtain ⟨l, hl, h⟩ := Except.bind_eq_ok_iff.1 h
  obtain ⟨symbols, hsymbols, h⟩ := Except.bind_eq_ok_iff.1 h
  cases h
  exact ⟨l, by simpa using (Layout.holds_empty (tableSize_pos w)).foldlM_place hl,
    by simpa using Layout.symbolsFrom_eq_ok_iff.1 hsymbols⟩

/-- A spread has one symbol for each state. -/
theorem size_of_ofWeights {w : Weights} {s : Spread} (h : ofWeights w = .ok s) :
    s.symbols.size = w.tableSize := by
  obtain ⟨l, hl, hslots⟩ := exists_layout_of_ofWeights h
  have hlen := congrArg List.length hslots
  simp only [Array.length_toList, List.length_map] at hlen
  rw [← hlen, hl.size_eq]

/-- A symbol has as many states as its weight says. -/
theorem count_of_ofWeights {w : Weights} {s : Spread} (h : ofWeights w = .ok s)
    (symbol : UInt16) : s.symbols.toList.count symbol = w.weight symbol.toNat := by
  obtain ⟨l, hl, hslots⟩ := exists_layout_of_ofWeights h
  -- The slots hold the symbol as often as the runs do, and all slots are states.
  have hcount := hl.count_eq symbol
  rw [hslots, Weights.count_map_runs] at hcount
  rw [← hcount, List.count_map_of_injective _ some (fun _ _ => Option.some.inj)]

end Spread

end Tans
