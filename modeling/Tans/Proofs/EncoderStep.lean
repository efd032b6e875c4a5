import Tans.Proofs.Step

/-!
# The step of the encoder

Transforms and the next-state table are a fast form of a simple rule: low bits of the state are
flushed until a sub-state of the symbol is left, a number in `[weight, 2 * weight)`, and the
symbol's states are counted up to the one that the sub-state stands for. The rule applies to all
states of an encoder and to all symbols that have a state, and there are only two reasons to refuse
a step.

* `Tables.exists_encodeSymbol_eq_ok`: the rule.
* `Tables.encodeSymbol_eq_error_iff`: the refusals.
* `Tables.encodeSymbol_outcome`: both together.
-/

namespace Tans.Tables

variable {t : Tables}

/-- Encoding leaves a sub-state of the symbol and goes to the state that it stands for. -/
theorem exists_encodeSymbol_eq_ok {x : Nat} {symbol : UInt16} (hlow : t.tableSize ≤ x)
    (hhigh : x < 2 * t.tableSize) (hpos : 0 < t.weights.weight symbol.toNat) :
    ∃ n u, t.weights.weight symbol.toNat ≤ x / 2 ^ n ∧
      x / 2 ^ n < 2 * t.weights.weight symbol.toNat ∧
      t.spread.Nth symbol (x / 2 ^ n - t.weights.weight symbol.toNat) u ∧
      t.encodeSymbol x symbol.toNat = .ok (t.tableSize + u, ⟨x % 2 ^ n, n⟩) := by
  obtain ⟨n, u, hle, hlt, hn⟩ := exists_nth_div hlow hhigh hpos
  exact ⟨n, u, hle, hlt, hn, encodeSymbol_eq_ok hlow hhigh hn (by omega)⟩

/-- A step is refused for the state, or else for the symbol, and for no other reason. -/
theorem encodeSymbol_eq_error_iff {x symbol : Nat} {e : Error} :
    t.encodeSymbol x symbol = .error e ↔
      ¬ (t.tableSize ≤ x ∧ x < 2 * t.tableSize) ∧
          e = .stateOutOfRange x t.tableSize (2 * t.tableSize) ∨
        (t.tableSize ≤ x ∧ x < 2 * t.tableSize) ∧ t.weights.weight symbol = 0 ∧
          e = .alphabetMismatch symbol t.alphabetSize := by
  constructor
  · intro h
    -- The state is tested first, the symbol after it.
    by_cases hrange : t.tableSize ≤ x ∧ x < 2 * t.tableSize
    · rcases Nat.eq_zero_or_pos (t.weights.weight symbol) with hzero | hpos
      · rw [encodeSymbol_of_weight_eq_zero hrange.1 hrange.2 hzero] at h
        exact .inr ⟨hrange, hzero, (Except.error.inj h).symm⟩
      · -- A step that can be made is not refused.
        obtain ⟨id, rfl⟩ := exists_toNat_eq hpos
        obtain ⟨n, u, -, -, -, hencode⟩ := exists_encodeSymbol_eq_ok hrange.1 hrange.2 hpos
        exact nomatch hencode.symm.trans h
    · rw [encodeSymbol_of_outOfRange symbol hrange] at h
      exact .inl ⟨hrange, (Except.error.inj h).symm⟩
  · intro h
    rcases h with ⟨hrange, rfl⟩ | ⟨hrange, hzero, rfl⟩
    · exact encodeSymbol_of_outOfRange symbol hrange
    · exact encodeSymbol_of_weight_eq_zero hrange.1 hrange.2 hzero

/-- What encoding a symbol of weight `f` does. In a state of the encoder it flushes the one number
`n` of bits that leaves a number in `[f, 2 * f)`, and goes to the state of the symbol that has this
number less `f`, counted from zero. What is not a state of the encoder is refused, and otherwise a
symbol that is not in the alphabet or has no states. -/
theorem encodeSymbol_outcome (t : Tables) (x symbol : Nat) :
    (t.tableSize ≤ x → x < 2 * t.tableSize → 0 < t.weights.weight symbol →
      ∃ id : UInt16, id.toNat = symbol ∧ ∃ n u,
        (∀ m, t.weights.weight symbol ≤ x >>> m ∧ x >>> m < 2 * t.weights.weight symbol ↔
          m = n) ∧
        t.spread.Nth id (x >>> n - t.weights.weight symbol) u ∧
        t.encodeSymbol x symbol = .ok (t.tableSize + u, ⟨x % 2 ^ n, n⟩)) ∧
    (t.encodeSymbol x symbol = .error (.stateOutOfRange x t.tableSize (2 * t.tableSize)) ↔
      ¬ (t.tableSize ≤ x ∧ x < 2 * t.tableSize)) ∧
    (t.encodeSymbol x symbol = .error (.alphabetMismatch symbol t.alphabetSize) ↔
      (t.tableSize ≤ x ∧ x < 2 * t.tableSize) ∧
        (t.alphabetSize ≤ symbol ∨ t.weights.weight symbol = 0)) := by
  refine ⟨fun hlow hhigh hpos => ?_, ?_, ?_⟩
  · simp only [Nat.shiftRight_eq_div_pow]
    obtain ⟨id, rfl⟩ := exists_toNat_eq hpos
    obtain ⟨n, u, hle, hlt, hn, hencode⟩ := exists_encodeSymbol_eq_ok hlow hhigh hpos
    refine ⟨id, rfl, n, u, fun m => ⟨fun ⟨hle', hlt'⟩ => ?_, fun hm => ?_⟩, hn, hencode⟩
    -- No other number of bits leaves a sub-state.
    · exact width_unique hle' hlt' hle hlt
    · rw [hm]
      exact ⟨hle, hlt⟩
  · rw [encodeSymbol_eq_error_iff]
    simp
  -- Outside of the alphabet a symbol has no weight either.
  · have hmember : t.alphabetSize ≤ symbol → t.weights.weight symbol = 0 := Weights.weight_eq_zero
    rw [encodeSymbol_eq_error_iff, or_iff_right_of_imp hmember]
    simp

/-- From state 21 a symbol of weight four flushes two bits, which leaves five, and five stands for
the symbol's state number one, counted from zero. -/
theorem encodeSymbol_outcome_sixteen :
    (sixteen.tableSize ≤ 21 ∧ 21 < 2 * sixteen.tableSize ∧ 0 < sixteen.weights.weight 2 ∧
      (∀ m, 4 ≤ 21 >>> m ∧ 21 >>> m < 2 * 4 ↔ m = 2) ∧ sixteen.spread.Nth 2 (21 >>> 2 - 4) 6 ∧
      sixteen.encodeSymbol 21 2 = .ok (16 + 6, ⟨21 % 2 ^ 2, 2⟩)) ∧
    sixteen.encodeSymbol 32 2 = .error (.stateOutOfRange 32 16 32) ∧
    sixteen.encodeSymbol 31 3 = .error (.alphabetMismatch 3 3) := by
  obtain ⟨id, hid, n, u, hwidth, hn, hencode⟩ :=
    (encodeSymbol_outcome sixteen 21 2).1 (by decide) (by decide) (by decide)
  obtain rfl : id = 2 := UInt16.toNat_inj.1 hid
  obtain rfl : 2 = n := (hwidth 2).1 (by decide)
  have hsix : sixteen.spread.Nth 2 (21 >>> 2 - 4) 6 := ⟨by decide, by decide⟩
  obtain rfl : u = 6 := hn.inj hsix
  exact ⟨⟨by decide, by decide, by decide, hwidth, hsix, hencode⟩,
    (encodeSymbol_outcome sixteen 32 2).2.1.2 (by decide),
    (encodeSymbol_outcome sixteen 31 3).2.2.2 (by decide)⟩

end Tans.Tables
