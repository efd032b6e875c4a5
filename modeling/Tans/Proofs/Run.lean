import Tans.Proofs.Reading
import Tans.Proofs.Step

/-!
# Runs of the coder

A run is a sequence of steps, with the fields that they read one after the other. The decoder takes
a run forwards and the encoder takes it backwards, so what one of them does the other undoes.

* `Tables.encodeSymbols_eq_ok_iff`: encoding takes the runs that end in state zero.
* `Tables.decodeSymbols_eq_ok_iff`: decoding takes any run.
-/

namespace Tans

namespace Tables

variable {t : Tables}

/-- A sequence of steps that starts in state `u`, emits the symbols and reads the bits, and ends in
state `u'`. -/
inductive Run (t : Tables) : (u : Nat) → (symbols : List UInt16) → (bits : Bits) → (u' : Nat) → Prop
  | nil (u : Nat) : Run t u [] [] u
  | cons {u u₁ u' : Nat} {symbol : UInt16} {symbols : List UInt16} {field : Bits.Field}
      {bits : Bits} (hstep : t.Step u symbol field u₁) (hrun : Run t u₁ symbols bits u') :
      Run t u (symbol :: symbols) (field.bits ++ bits) u'

/-- A run that ends in a state starts in one. -/
theorem Run.lt_tableSize {u u' : Nat} {symbols : List UInt16} {bits : Bits}
    (h : t.Run u symbols bits u') (hu' : u' < t.tableSize) : u < t.tableSize := by
  cases h with
  | nil => exact hu'
  | cons hstep _ =>
    obtain ⟨entry, hentry, -⟩ := hstep
    exact lt_tableSize_of_getElem? hentry

/-- From each state the symbols that have a state are emitted by some run that ends there. -/
theorem exists_run {symbols : List UInt16} (h : ∀ s ∈ symbols, 0 < t.weights.weight s.toNat)
    {u' : Nat} (hu' : u' < t.tableSize) : ∃ u bits, t.Run u symbols bits u' := by
  induction symbols with
  | nil => exact ⟨u', [], .nil u'⟩
  | cons s symbols ih =>
    -- The rest of the run is found first, and the step that leads to its start after it.
    obtain ⟨u₁, bits, hrun⟩ := ih fun s hs => h s (List.mem_cons_of_mem _ hs)
    obtain ⟨u, field, hstep⟩ := exists_step_to (hrun.lt_tableSize hu') (h s List.mem_cons_self)
    exact ⟨u, field.bits ++ bits, .cons hstep hrun⟩

/-! ### Encoding -/

/-- The first symbol is encoded last, and its field stands in front. -/
theorem encodeSymbols_cons_eq_ok_iff {symbol : Nat} {symbols : List Nat} {r : Nat × Bits} :
    t.encodeSymbols (symbol :: symbols) = .ok r ↔
      ∃ x payload, t.encodeSymbols symbols = .ok (x, payload) ∧
        ∃ x' field, t.encodeSymbol x symbol = .ok (x', field) ∧
          r = (x', field.bits ++ payload) := by
  rw [encodeSymbols, List.foldrM_cons, Except.bind_eq_ok_iff]
  constructor
  · intro h
    obtain ⟨⟨x, payload⟩, hrest, h⟩ := h
    obtain ⟨⟨x', field⟩, hstep, h⟩ := Except.bind_eq_ok_iff.1 h
    cases h
    exact ⟨x, payload, hrest, x', field, hstep, rfl⟩
  · intro h
    obtain ⟨x, payload, hrest, x', field, hstep, rfl⟩ := h
    exact ⟨(x, payload), hrest, Except.bind_eq_ok_iff.2 ⟨(x', field), hstep, rfl⟩⟩

/-- Encoding goes back from state zero. -/
theorem encodeSymbols_eq_ok_iff {symbols : List UInt16} {x : Nat} {payload : Bits} :
    t.encodeSymbols (symbols.map UInt16.toNat) = .ok (x, payload) ↔
      ∃ u, x = t.tableSize + u ∧ t.Run u symbols payload 0 := by
  -- Induction on the symbols: the encoder has dealt with all behind the first one.
  induction symbols generalizing x payload with
  | nil =>
    constructor
    · intro h
      cases h
      exact ⟨0, rfl, .nil 0⟩
    · intro h
      obtain ⟨u, rfl, hrun⟩ := h
      cases hrun
      rfl
  | cons s symbols ih =>
    rw [List.map_cons, encodeSymbols_cons_eq_ok_iff]
    constructor
    · intro h
      obtain ⟨x₁, payload₁, hrest, x', field, hencode, h⟩ := h
      cases h
      obtain ⟨u₁, rfl, hrun⟩ := ih.1 hrest
      obtain ⟨-, u, rfl, hstep⟩ := encodeSymbol_eq_ok_iff.1 hencode
      rw [Nat.add_sub_cancel_left] at hstep
      exact ⟨u, rfl, .cons hstep hrun⟩
    · intro h
      obtain ⟨u, rfl, hrun⟩ := h
      cases hrun with
      | cons hstep hrun => exact ⟨_, _, ih.2 ⟨_, rfl, hrun⟩, _, _, hstep.encodeSymbol, rfl⟩

/-- Only symbols that have a state are encoded. -/
theorem weight_pos_of_encodeSymbols {symbols : List Nat} {r : Nat × Bits}
    (h : t.encodeSymbols symbols = .ok r) : ∀ s ∈ symbols, 0 < t.weights.weight s := by
  induction symbols generalizing r with
  | nil => simp
  | cons symbol symbols ih =>
    obtain ⟨x, payload, hrest, x', field, hstep, -⟩ := encodeSymbols_cons_eq_ok_iff.1 h
    exact List.forall_mem_cons.2 ⟨weight_pos_of_encodeSymbol hstep, ih hrest⟩

/-! ### Decoding -/

/-- Decoding a symbol takes the step of the table, and moves the cursor over its field. -/
theorem decodeSymbol_eq_ok_iff {u u' : Nat} {symbol : UInt16} {c c' : Cursor Bool} :
    t.decodeSymbol u c = .ok (symbol, u') c' ↔
      ∃ field, t.Step u symbol field u' ∧ c.Moved field.bits c' := by
  unfold decodeSymbol
  -- A number without entry is no state, and no step starts from it.
  cases hentry : t.decodeTable[u]? with
  | none =>
    constructor
    · intro h
      exact nomatch h
    · intro h
      obtain ⟨field, ⟨entry, hentry', -⟩, -⟩ := h
      rw [hentry] at hentry'
      exact nomatch hentry'
  | some entry =>
    simp only
    rw [EStateM.bind_eq_ok_iff]
    constructor
    · intro h
      obtain ⟨value, c₁, hread, h⟩ := h
      cases h
      obtain ⟨hlt, hmoved⟩ := Bits.read_eq_ok_iff_moved.1 hread
      exact ⟨⟨value, entry.width.toNat⟩, ⟨entry, hentry, rfl, rfl, hlt, rfl⟩, hmoved⟩
    · intro h
      obtain ⟨⟨value, width⟩, ⟨entry', hentry', rfl, rfl, hlt, rfl⟩, hmoved⟩ := h
      obtain rfl : entry = entry' := Option.some.inj (hentry.symm.trans hentry')
      exact ⟨value, c', Bits.read_eq_ok_iff_moved.2 ⟨hlt, hmoved⟩, rfl⟩

/-- Decoding goes on from any state, for as many symbols as it is asked for. -/
theorem decodeSymbols_eq_ok_iff {n u u' : Nat} {acc acc' : Array UInt16} {c c' : Cursor Bool} :
    t.decodeSymbols n u acc c = .ok (acc', u') c' ↔
      ∃ symbols bits, symbols.length = n ∧ acc'.toList = acc.toList ++ symbols ∧
        t.Run u symbols bits u' ∧ c.Moved bits c' := by
  -- Each step changes state, symbols and cursor, so the induction is for all of them.
  induction n generalizing u acc c with
  | zero =>
    unfold decodeSymbols
    constructor
    · intro h
      cases h
      exact ⟨[], [], rfl, (List.append_nil _).symm, .nil _, Cursor.moved_nil_iff.2 rfl⟩
    · intro h
      obtain ⟨symbols, bits, hlen, hacc, hrun, hmoved⟩ := h
      obtain rfl := List.length_eq_zero_iff.1 hlen
      cases hrun
      rw [List.append_nil, Array.toList_inj] at hacc
      rw [hacc, Cursor.moved_nil_iff.1 hmoved]
      rfl
  | succ n ih =>
    unfold decodeSymbols
    rw [EStateM.bind_eq_ok_iff]
    constructor
    · intro h
      obtain ⟨⟨symbol, u₁⟩, c₁, hstep, h⟩ := h
      obtain ⟨field, hstep, hfield⟩ := decodeSymbol_eq_ok_iff.1 hstep
      obtain ⟨symbols, bits, hlen, hacc, hrun, hbits⟩ := ih.1 h
      refine ⟨symbol :: symbols, field.bits ++ bits, by rw [List.length_cons, hlen], ?_,
        .cons hstep hrun, hfield.append hbits⟩
      rw [hacc, Array.toList_push, List.append_assoc, List.singleton_append]
    · intro h
      obtain ⟨symbols, bits, hlen, hacc, hrun, hmoved⟩ := h
      cases hrun with
      | nil => exact nomatch hlen
      | @cons _ u₁ _ symbol symbols field bits hstep hrun =>
        obtain ⟨c₁, hfield, hbits⟩ := Cursor.moved_append_iff.1 hmoved
        refine ⟨(symbol, u₁), c₁, decodeSymbol_eq_ok_iff.2 ⟨field, hstep, hfield⟩,
          ih.2 ⟨symbols, bits, Nat.succ.inj hlen, ?_, hrun, hbits⟩⟩
        rw [hacc, Array.toList_push, List.append_assoc, List.singleton_append]

end Tables

end Tans
