import Tans.Proofs.EncoderStep
import Tans.Proofs.Exactness
import Tans.Proofs.Stream

/-!
# Refused blocks

A block is refused for its length, and otherwise for a symbol that has no state. As the last symbol
is encoded first, of several such symbols the last one is reported. A state out of range is never
reported, because the steps that are taken before do not leave the range.

* `Tables.mem_range_of_encodeSymbol`, `Tables.mem_range_of_encodeSymbols`: the states after one step
  and after any number of them.
* `Tables.encodeSymbols_eq_error_iff`: which symbol stops the encoder.
* `Tables.encodeBlock_outcome`: blocks.
-/

namespace Tans.Tables

variable {t : Tables}

/-! ### One step -/

/-- A step does not leave the states of an encoder. -/
theorem mem_range_of_encodeSymbol {x symbol x' : Nat} {field : Bits.Field}
    (h : t.encodeSymbol x symbol = .ok (x', field)) :
    t.tableSize ≤ x' ∧ x' < 2 * t.tableSize := by
  obtain ⟨id, rfl⟩ := exists_toNat_eq (weight_pos_of_encodeSymbol h)
  obtain ⟨-, u, rfl, entry, hentry, -⟩ := encodeSymbol_eq_ok_iff.1 h
  have hu := lt_tableSize_of_getElem? hentry
  omega

/-- A step that is not refused is taken. -/
theorem exists_encodeSymbol {x symbol : Nat} (hlow : t.tableSize ≤ x) (hhigh : x < 2 * t.tableSize)
    (hpos : 0 < t.weights.weight symbol) :
    ∃ x' field, t.encodeSymbol x symbol = .ok (x', field) := by
  -- Of the two refusals, the range excludes one and the weight the other.
  cases h : t.encodeSymbol x symbol with
  | ok r => exact ⟨r.1, r.2, rfl⟩
  | error e =>
    rcases encodeSymbol_eq_error_iff.1 h with ⟨hrange, -⟩ | ⟨-, hzero, -⟩
    · exact absurd ⟨hlow, hhigh⟩ hrange
    · omega

/-- A step looks up the next-state table at the rank of the state, which is a place of the table. -/
theorem exists_nextState_eq {x symbol : Nat} {transform : Transform} (hlow : t.tableSize ≤ x)
    (hhigh : x < 2 * t.tableSize) (h : t.transform? symbol = some transform) :
    0 ≤ transform.rank x ∧ ∃ next, t.nextStates[(transform.rank x).toNat]? = some next ∧
      t.encodeSymbol x symbol =
        .ok (next.toNat, ⟨x % 2 ^ transform.width x, transform.width x⟩) := by
  obtain ⟨hpos, htransform⟩ := transform?_eq_some_iff.1 h
  obtain ⟨id, rfl⟩ := exists_toNat_eq hpos
  obtain ⟨hge, hlt⟩ := Weights.rank_mem_places hpos htransform
    (t.tableSize_weights ▸ hlow) (t.tableSize_weights ▸ hhigh)
  -- The place belongs to the state whose number is the rank less where the symbol's places start.
  have hj : (transform.rank x).toNat - t.weights.start id.toNat < t.weights.weight id.toNat := by
    omega
  obtain ⟨u, hn⟩ := Spread.exists_nth t.spread_eq hj
  have hnext := Spread.getElem?_nextStates t.spread_eq hn
  rw [Nat.add_sub_cancel' (by omega), ← t.nextStates_eq] at hnext
  refine ⟨by omega, _, hnext, ?_⟩
  rw [encodeSymbol_of_transform? hlow hhigh h, Array.getD_eq_getD_getElem?, hnext,
    Option.getD_some]

/-! ### Symbols in a row -/

/-- However many symbols are encoded, the state stays among those of an encoder. -/
theorem mem_range_of_encodeSymbols {symbols : List Nat} {x : Nat} {payload : Bits}
    (h : t.encodeSymbols symbols = .ok (x, payload)) :
    t.tableSize ≤ x ∧ x < 2 * t.tableSize := by
  -- Before the first symbol the state is the least one of an encoder.
  cases symbols with
  | nil =>
    cases h
    have hsize := t.tableSize_pos
    omega
  | cons symbol symbols =>
    obtain ⟨x₁, payload₁, -, x', field, hstep, hr⟩ := encodeSymbols_cons_eq_ok_iff.1 h
    cases hr
    exact mem_range_of_encodeSymbol hstep

/-- Symbols that all have states are encoded. -/
theorem exists_encodeSymbols {symbols : List Nat} (h : ∀ s ∈ symbols, 0 < t.weights.weight s) :
    ∃ x payload, t.encodeSymbols symbols = .ok (x, payload) := by
  induction symbols with
  | nil => exact ⟨t.tableSize, [], rfl⟩
  | cons symbol symbols ih =>
    obtain ⟨hpos, hsymbols⟩ := List.forall_mem_cons.1 h
    obtain ⟨x, payload, hrest⟩ := ih hsymbols
    obtain ⟨hlow, hhigh⟩ := mem_range_of_encodeSymbols hrest
    obtain ⟨x', field, hstep⟩ := exists_encodeSymbol hlow hhigh hpos
    exact ⟨x', _, encodeSymbols_cons_eq_ok_iff.2 ⟨x, payload, hrest, x', field, hstep, rfl⟩⟩

/-- Encoding stops at a symbol without a state, if all behind it have one. -/
theorem encodeSymbols_eq_error_iff {symbols : List Nat} {e : Error} :
    t.encodeSymbols symbols = .error e ↔ ∃ front symbol back, symbols = front ++ symbol :: back ∧
      t.weights.weight symbol = 0 ∧ (∀ s ∈ back, 0 < t.weights.weight s) ∧
      e = .alphabetMismatch symbol t.alphabetSize := by
  -- The symbols are encoded from the last one on, so the fold is one from the right.
  rw [encodeSymbols, Except.foldrM_eq_error_iff]
  refine exists_congr fun front => exists_congr fun symbol => exists_congr fun back => ?_
  constructor
  · intro h
    obtain ⟨⟨x, payload⟩, hsymbols, hback, h⟩ := h
    -- The state that the symbol is encoded from is in range, so the symbol is to blame.
    obtain ⟨hlow, hhigh⟩ := mem_range_of_encodeSymbols hback
    have hstep : t.encodeSymbol x symbol = .error e := by
      rcases Except.bind_eq_error_iff.1 h with h | ⟨r, -, h⟩
      · exact h
      · cases h
    rcases encodeSymbol_eq_error_iff.1 hstep with ⟨hrange, -⟩ | ⟨-, hzero, he⟩
    · exact absurd ⟨hlow, hhigh⟩ hrange
    · exact ⟨hsymbols, hzero, weight_pos_of_encodeSymbols hback, he⟩
  · intro h
    obtain ⟨hsymbols, hzero, hback, he⟩ := h
    obtain ⟨x, payload, hencode⟩ := exists_encodeSymbols hback
    have hrange := mem_range_of_encodeSymbols hencode
    refine ⟨(x, payload), hsymbols, hencode, Except.bind_eq_error_iff.2 (.inl ?_)⟩
    exact encodeSymbol_eq_error_iff.2 (.inr ⟨hrange, hzero, he⟩)

/-! ### Blocks -/

/-- The longest block has the largest length that the field can hold. -/
theorem maxBlockLen_eq (t : Tables) : t.params.maxBlockLen = 2 ^ t.params.lengthBits - 1 := by
  rw [Params.maxBlockLen, Nat.one_shiftLeft]

/-- The length is tested before any symbol is. -/
theorem encodeBlock_eq_error_iff {symbols : List Nat} {e : Error} :
    t.encodeBlock symbols = .error e ↔
      t.params.maxBlockLen < symbols.length ∧
          e = .blockTooLarge symbols.length t.params.maxBlockLen ∨
        symbols.length ≤ t.params.maxBlockLen ∧ t.encodeSymbols symbols = .error e := by
  rw [encodeBlock]
  by_cases hlong : t.params.maxBlockLen < symbols.length
  · rw [if_pos hlong]
    simp only [Except.error.injEq, hlong, true_and, Nat.not_le.2 hlong, false_and, or_false]
    exact eq_comm
  · rw [if_neg hlong]
    simp only [hlong, false_and, false_or, Nat.le_of_not_lt hlong, true_and]
    constructor
    · intro h
      rcases Except.bind_eq_error_iff.1 h with h | ⟨⟨x, payload⟩, -, h⟩
      · exact h
      · -- What follows the symbols, the writing of the header, does not fail.
        dsimp only at h
        split at h
        · cases h
        · cases h
    · intro h
      exact Except.bind_eq_error_iff.2 (.inl h)

/-- A symbol without a state is outside of the alphabet or has weight zero. -/
theorem weight_eq_zero_iff {s : Nat} :
    t.weights.weight s = 0 ↔ t.alphabetSize ≤ s ∨ t.weights.weight s = 0 :=
  (or_iff_right_of_imp Weights.weight_eq_zero).symm

/-- A symbol with a state is in the alphabet. -/
theorem weight_pos_iff {s : Nat} :
    0 < t.weights.weight s ↔ s < t.alphabetSize ∧ 0 < t.weights.weight s :=
  (and_iff_right_of_imp Weights.lt_alphabetSize).symm

/-- A block is encoded exactly if it is short enough and all its symbols have states. -/
theorem exists_encodeBlock_iff {symbols : List Nat} :
    (∃ block, t.encodeBlock symbols = .ok block) ↔ t.Encodable symbols := by
  constructor
  · intro h
    obtain ⟨block, h⟩ := h
    exact encodable_of_encodeBlock h
  · exact Encodable.exists_encodeBlock

/-- A short enough block that is refused has a symbol without a state, and the last one of them is
reported. -/
theorem encodeBlock_eq_alphabetMismatch_iff {symbols : List Nat} {symbol size : Nat} :
    t.encodeBlock symbols = .error (.alphabetMismatch symbol size) ↔
      symbols.length ≤ t.params.maxBlockLen ∧ size = t.alphabetSize ∧
        ∃ front back, symbols = front ++ symbol :: back ∧ t.weights.weight symbol = 0 ∧
          ∀ s ∈ back, 0 < t.weights.weight s := by
  rw [encodeBlock_eq_error_iff, encodeSymbols_eq_error_iff]
  constructor
  · intro h
    rcases h with ⟨-, h⟩ | ⟨hlen, front, symbol', back, hsymbols, hzero, hback, h⟩
    · cases h
    · cases h
      exact ⟨hlen, rfl, front, back, hsymbols, hzero, hback⟩
  · intro h
    obtain ⟨hlen, hsize, front, back, hsymbols, hzero, hback⟩ := h
    subst hsize
    exact .inr ⟨hlen, front, symbol, back, hsymbols, hzero, hback, rfl⟩

/-- What is refused is refused for its length or for a symbol. -/
theorem encodeBlock_error_cases {symbols : List Nat} {e : Error}
    (h : t.encodeBlock symbols = .error e) :
    e = .blockTooLarge symbols.length t.params.maxBlockLen ∨
      ∃ symbol ∈ symbols, t.weights.weight symbol = 0 ∧
        e = .alphabetMismatch symbol t.alphabetSize := by
  rcases encodeBlock_eq_error_iff.1 h with ⟨-, he⟩ | ⟨-, h⟩
  · exact .inl he
  · obtain ⟨front, symbol, back, rfl, hzero, -, he⟩ := encodeSymbols_eq_error_iff.1 h
    exact .inr ⟨symbol, by simp, hzero, he⟩

/-- What becomes of a block, whatever its symbols are. It is refused for its length if the length
field cannot hold that. Otherwise it is refused if some symbol is outside of the alphabet or has
weight zero, and the last such symbol is reported. Otherwise it is encoded. After each number of
symbols the state is one of an encoder, so no state is out of range, and the next symbol that has a
transform looks up the next-state table at a place of that table. -/
theorem encodeBlock_outcome (t : Tables) (symbols : List Nat) :
    (∀ length max, t.encodeBlock symbols = .error (.blockTooLarge length max) ↔
      2 ^ t.params.lengthBits - 1 < symbols.length ∧ length = symbols.length ∧
        max = 2 ^ t.params.lengthBits - 1) ∧
    (symbols.length ≤ 2 ^ t.params.lengthBits - 1 →
      ((∃ symbol size, t.encodeBlock symbols = .error (.alphabetMismatch symbol size)) ↔
        ∃ s ∈ symbols, t.alphabetSize ≤ s ∨ t.weights.weight s = 0) ∧
      (∀ symbol size, t.encodeBlock symbols = .error (.alphabetMismatch symbol size) ↔
        size = t.alphabetSize ∧ ∃ front back, symbols = front ++ symbol :: back ∧
          (t.alphabetSize ≤ symbol ∨ t.weights.weight symbol = 0) ∧
          ∀ s ∈ back, s < t.alphabetSize ∧ 0 < t.weights.weight s) ∧
      ((∃ block, t.encodeBlock symbols = .ok block) ↔
        ∀ s ∈ symbols, s < t.alphabetSize ∧ 0 < t.weights.weight s)) ∧
    (∀ front back x payload, symbols = front ++ back → t.encodeSymbols back = .ok (x, payload) →
      t.tableSize ≤ x ∧ x < 2 * t.tableSize) ∧
    (∀ state min max, t.encodeBlock symbols ≠ .error (.stateOutOfRange state min max)) ∧
    (∀ front symbol back x payload transform, symbols = front ++ symbol :: back →
      t.encodeSymbols back = .ok (x, payload) → t.transform? symbol = some transform →
      0 ≤ transform.rank x ∧ ∃ next, t.nextStates[(transform.rank x).toNat]? = some next ∧
        t.encodeSymbol x symbol =
          .ok (next.toNat, ⟨x % 2 ^ transform.width x, transform.width x⟩)) := by
  simp only [← maxBlockLen_eq, ← weight_eq_zero_iff, ← weight_pos_iff]
  refine ⟨fun length max => ?_, fun hlen => ⟨?_, fun symbol size => ?_, ?_⟩,
    fun front back x payload _ hback => mem_range_of_encodeSymbols hback,
    fun state min max h => ?_, fun front symbol back x payload transform _ hback htransform => ?_⟩
  -- A block that is too long is refused with its length and the bound.
  · rw [encodeBlock_eq_error_iff, encodeSymbols_eq_error_iff]
    simp
  · constructor
    · intro h
      obtain ⟨symbol, size, h⟩ := h
      obtain ⟨-, -, front, back, rfl, hzero, -⟩ := encodeBlock_eq_alphabetMismatch_iff.1 h
      exact ⟨symbol, by simp, hzero⟩
    · intro h
      obtain ⟨s, hs, hzero⟩ := h
      cases h : t.encodeBlock symbols with
      | ok block =>
        have hpos := weight_pos_of_encodeBlock h s hs
        omega
      | error e =>
        rcases encodeBlock_eq_error_iff.1 h with ⟨hlong, -⟩ | ⟨-, h⟩
        -- The block is short enough.
        · omega
        · obtain ⟨-, symbol, -, -, -, -, rfl⟩ := encodeSymbols_eq_error_iff.1 h
          exact ⟨symbol, t.alphabetSize, rfl⟩
  · rw [encodeBlock_eq_alphabetMismatch_iff]
    exact and_iff_right hlen
  · rw [exists_encodeBlock_iff]
    exact ⟨Encodable.weight_pos, fun h => ⟨h, hlen⟩⟩
  · rcases encodeBlock_error_cases h with he | ⟨symbol, -, -, he⟩
    · cases he
    · cases he
  · obtain ⟨hlow, hhigh⟩ := mem_range_of_encodeSymbols hback
    exact exists_nextState_eq hlow hhigh htransform

/-- Eight symbols where seven are allowed, two symbols outside of the alphabet, and a step from state
25, in which the symbol's first place is looked up. -/
theorem encodeBlock_outcome_two :
    two.encodeBlock [9, 9, 9, 9, 9, 9, 9, 9] = .error (.blockTooLarge 8 7) ∧
    ([0, 5, 9, 0, 0].length ≤ 2 ^ two.params.lengthBits - 1 ∧
      two.encodeBlock [0, 5, 9, 0, 0] = .error (.alphabetMismatch 9 1) ∧
      ∃ block, two.encodeBlock [0, 0, 0] = .ok block) ∧
    (sixteen.encodeSymbols [2, 1] = .ok (25, [false, false, false]) ∧
      sixteen.tableSize ≤ 25 ∧ 25 < 2 * sixteen.tableSize ∧
      ∃ transform next, sixteen.transform? 0 = some transform ∧ 0 ≤ transform.rank 25 ∧
        sixteen.nextStates[(transform.rank 25).toNat]? = some next ∧
        sixteen.encodeSymbol 25 0 =
          .ok (next.toNat, ⟨25 % 2 ^ transform.width 25, transform.width 25⟩)) := by
  have hlong := (encodeBlock_outcome two [9, 9, 9, 9, 9, 9, 9, 9]).1 8 7
  have hmismatch := (encodeBlock_outcome two [0, 5, 9, 0, 0]).2.1 (by decide)
  have hblock := (encodeBlock_outcome two [0, 0, 0]).2.1 (by decide)
  obtain ⟨-, -, hrange, -, hstep⟩ := encodeBlock_outcome sixteen [0, 2, 1]
  have hencode : sixteen.encodeSymbols [2, 1] = .ok (25, [false, false, false]) := by
    decide +kernel
  have htransform : sixteen.transform? 0 = some ⟨131048, -6⟩ := by decide +kernel
  obtain ⟨hlow, hhigh⟩ := hrange [0] [2, 1] _ _ rfl hencode
  obtain ⟨hrank, next, hnext, hencode'⟩ := hstep [] 0 [2, 1] _ _ _ rfl hencode htransform
  exact ⟨hlong.2 (by decide),
    ⟨by decide, (hmismatch.2.1 9 1).2 ⟨rfl, [0, 5], [0, 0], rfl, by decide, by decide⟩,
      hblock.2.2.2 (by decide)⟩,
    hencode, hlow, hhigh, _, next, htransform, hrank, hnext, hencode'⟩

end Tans.Tables
