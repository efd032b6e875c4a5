import Tans.Block.Decode
import Tans.Block.Encode
import Tans.Proofs.Tables
import Tans.Proofs.Width

/-!
# Steps of the coder

One step of the decoder turns a state and a few bits into a symbol and another state, and one step
of the encoder undoes it. Both are compared with a relation, `Tables.Step`, which the decode table
defines. In terms of encoder states `x = tableSize + u`, a step that leads to `x` splits it into
a sub-state of the symbol, `x / 2 ^ width`, and the bits that are read, `x % 2 ^ width`.

* `Tables.step_iff`: the steps in terms of weights and the numbers of states.
* `Tables.encodeSymbol_eq_ok_iff`: the encoder takes exactly the steps, backwards.
-/

namespace Tans

namespace DecodeEntry

/-- The width of an entry fits a byte. -/
theorem toNat_width_ofSubState {tableLog : Nat} (tableSize : Nat) (symbol : UInt16) (y : Nat)
    (hlog : TableLogInRange tableLog) :
    (ofSubState tableLog tableSize symbol y).width.toNat = missingBits tableLog y := by
  have hle : missingBits tableLog y ≤ 15 := Nat.le_trans (Nat.sub_le _ _) hlog.2
  exact UInt8.toNat_ofNat_of_lt' (Nat.lt_of_le_of_lt hle (by decide))

/-- The base of an entry fits sixteen bits: the scaled sub-state is below twice the table size. -/
theorem toNat_base_ofSubState {tableLog : Nat} (symbol : UInt16) {y : Nat}
    (hlog : TableLogInRange tableLog) (hpos : 0 < y) (hlt : y < 2 * 2 ^ tableLog) :
    (ofSubState tableLog (2 ^ tableLog) symbol y).base.toNat =
      y * 2 ^ missingBits tableLog y - 2 ^ tableLog := by
  have hpow := hlog.two_pow_le
  have hle := (two_pow_le_mul_missingBits tableLog hpos hlt).2
  rw [Nat.add_mul] at hle
  have hfits : y * 2 ^ missingBits tableLog y - 2 ^ tableLog < UInt16.size := by
    simp only [UInt16.size]
    omega
  rw [ofSubState, Nat.shiftLeft_eq]
  exact UInt16.toNat_ofNat_of_lt' hfits

end DecodeEntry

namespace Tables

variable {t : Tables}

/-! ### Sizes -/

/-- The number of states is a power of two. -/
theorem tableSize_eq (t : Tables) : t.tableSize = 2 ^ t.params.tableLog := by
  rw [tableSize, Params.tableSize, Nat.shiftLeft_eq, Nat.one_mul]

/-- There is a state. -/
theorem tableSize_pos (t : Tables) : 0 < t.tableSize := by
  rw [tableSize_eq]
  exact Nat.two_pow_pos _

/-- Weights and parameters agree on the number of states. -/
theorem tableSize_weights (t : Tables) : t.weights.tableSize = t.tableSize := by
  rw [Weights.tableSize, t.tableLog_eq, tableSize, Params.tableSize]

/-- The parameters have passed the check of the weights. -/
theorem tableLog_inRange (t : Tables) : TableLogInRange t.params.tableLog :=
  t.tableLog_eq ▸ t.weights.tableLog_inRange

/-- Encoder states fit sixteen bits. -/
theorem tableSize_le (t : Tables) : t.tableSize ≤ 2 ^ 15 := by
  rw [tableSize_eq]
  exact t.tableLog_inRange.two_pow_le

/-- The decode table has an entry for each state. -/
theorem size_decodeTable (t : Tables) : t.decodeTable.size = t.tableSize := by
  rw [t.decodeTable_eq, Spread.size_decodeTable t.spread_eq, tableSize_weights]

/-- What has an entry is a state. -/
theorem lt_tableSize_of_getElem? {u : Nat} {entry : DecodeEntry}
    (h : t.decodeTable[u]? = some entry) : u < t.tableSize := by
  obtain ⟨hu, -⟩ := Array.getElem?_eq_some_iff.1 h
  rwa [← size_decodeTable]

/-- No symbol has more states than there are. -/
theorem weight_le (t : Tables) (symbol : Nat) :
    t.weights.weight symbol ≤ 2 ^ t.params.tableLog := by
  rw [← tableSize_eq, ← tableSize_weights]
  exact t.weights.weight_le symbol

/-! ### The steps -/

/-- In decoder state `u` a symbol is emitted and a field is read, and state `u'` follows. -/
def Step (t : Tables) (u : Nat) (symbol : UInt16) (field : Bits.Field) (u' : Nat) : Prop :=
  ∃ entry, t.decodeTable[u]? = some entry ∧ entry.symbol = symbol ∧
    entry.width.toNat = field.width ∧ field.value < 2 ^ field.width ∧
    entry.base.toNat + field.value = u'

/-- The decode entry of the `j`-th state of a symbol. -/
theorem exists_entry_of_nth {symbol : UInt16} {j u : Nat}
    (hn : t.spread.Nth symbol j u) :
    ∃ entry, t.decodeTable[u]? = some entry ∧ entry.symbol = symbol ∧
      entry.width.toNat =
        DecodeEntry.missingBits t.params.tableLog (t.weights.weight symbol.toNat + j) ∧
      t.tableSize + entry.base.toNat =
        (t.weights.weight symbol.toNat + j) * 2 ^ entry.width.toNat := by
  have hj := hn.lt_weight t.spread_eq
  have hle := t.weight_le symbol.toNat
  have hwidth := DecodeEntry.toNat_width_ofSubState t.tableSize symbol
    (t.weights.weight symbol.toNat + j) t.tableLog_inRange
  have hscale := DecodeEntry.two_pow_le_mul_missingBits t.params.tableLog
    (y := t.weights.weight symbol.toNat + j) (by omega) (by omega)
  have hbase := DecodeEntry.toNat_base_ofSubState symbol (y := t.weights.weight symbol.toNat + j)
    t.tableLog_inRange (by omega) (by omega)
  -- The entry is that of the sub-state, whose base is given by its scaled value.
  refine ⟨_, ?_, rfl, hwidth, ?_⟩
  · rw [t.decodeTable_eq, Spread.getElem?_decodeTable t.spread_eq hn, t.tableLog_eq,
      tableSize_weights]
  · rw [hwidth, tableSize_eq, hbase]
    omega

/-- A step leads to the states whose upper bits are the sub-state of the one that is left. -/
theorem step_iff {u : Nat} {symbol : UInt16} {field : Bits.Field} {u' : Nat} :
    t.Step u symbol field u' ↔
      u' < t.tableSize ∧ ∃ j, t.spread.Nth symbol j u ∧
        (t.tableSize + u') / 2 ^ field.width = t.weights.weight symbol.toNat + j ∧
        (t.tableSize + u') % 2 ^ field.width = field.value := by
  constructor
  · intro h
    obtain ⟨entry, hentry, rfl, hwidth, hvalue, rfl⟩ := h
    have hu : u < t.weights.tableSize := by
      rw [tableSize_weights]
      exact lt_tableSize_of_getElem? hentry
    obtain ⟨symbol, j, hn⟩ := Spread.exists_nth_of_lt t.spread_eq hu
    obtain ⟨entry', hentry', hsymbol, hmissing, hbase⟩ := exists_entry_of_nth hn
    obtain rfl : entry = entry' := Option.some.inj (hentry.symm.trans hentry')
    -- The base is the sub-state with its missing bits all zero, so the value replaces just these.
    have hj := hn.lt_weight t.spread_eq
    have hle := t.weight_le symbol.toNat
    have hscale := (DecodeEntry.two_pow_le_mul_missingBits t.params.tableLog
      (y := t.weights.weight symbol.toNat + j) (by omega) (by omega)).2
    rw [← hmissing, hwidth, Nat.add_mul, ← tableSize_eq] at hscale
    rw [hwidth] at hbase
    refine ⟨by omega, j, hsymbol ▸ hn, ?_, ?_⟩
    · rw [← Nat.add_assoc, hbase, Nat.add_comm, Nat.add_mul_div_right _ _ (Nat.two_pow_pos _),
        Nat.div_eq_of_lt hvalue, Nat.zero_add, hsymbol]
    · rw [← Nat.add_assoc, hbase, Nat.add_comm, Nat.add_mul_mod_self_right,
        Nat.mod_eq_of_lt hvalue]
  · intro h
    obtain ⟨hu', j, hn, hdiv, hmod⟩ := h
    obtain ⟨entry, hentry, hsymbol, hmissing, hbase⟩ := exists_entry_of_nth hn
    have hj := hn.lt_weight t.spread_eq
    -- A width that leaves a sub-state is the one that the entry has.
    have hwidth : entry.width.toNat = field.width := by
      rw [hmissing, ← hdiv]
      exact DecodeEntry.missingBits_div (by rw [tableSize_eq]; omega)
        (by rw [tableSize_eq] at *; omega) (by omega)
    rw [hwidth] at hbase
    have hsplit := Nat.div_add_mod' (t.tableSize + u') (2 ^ field.width)
    rw [hdiv, hmod] at hsplit
    exact ⟨entry, hentry, hsymbol, hwidth, hmod ▸ Nat.mod_lt _ (Nat.two_pow_pos _), by omega⟩

/-- A step leads to a state. -/
theorem Step.lt_tableSize {u : Nat} {symbol : UInt16} {field : Bits.Field} {u' : Nat}
    (h : t.Step u symbol field u') : u' < t.tableSize :=
  (step_iff.1 h).1

/-! ### Encoding -/

/-- A symbol that has a state has a transform. -/
theorem transform?_eq_some {symbol : Nat} (h : 0 < t.weights.weight symbol) :
    t.transform? symbol = some (.ofWeight t.params.tableLog (t.weights.weight symbol)
      (t.weights.start symbol)) := by
  rw [transform?, if_pos h, t.transforms_eq,
    Weights.getElem?_transforms (Weights.lt_alphabetSize h), t.tableLog_eq]

/-- Encoding leads to the state whose number among those of the symbol is what is left of the state
that is flushed, less the weight. -/
theorem encodeSymbol_eq_ok {x width : Nat} {symbol : UInt16} {j u : Nat}
    (hlow : t.tableSize ≤ x) (hhigh : x < 2 * t.tableSize) (hn : t.spread.Nth symbol j u)
    (hdiv : x / 2 ^ width = t.weights.weight symbol.toNat + j) :
    t.encodeSymbol x symbol.toNat = .ok (t.tableSize + u, ⟨x % 2 ^ width, width⟩) := by
  have hj := hn.lt_weight t.spread_eq
  have hpos : 0 < t.weights.weight symbol.toNat := by omega
  have hsubState := Transform.div_two_pow_width (t.weights.start symbol.toNat)
    t.tableLog_inRange hpos (t.weight_le _) (t.tableSize_eq ▸ hlow) (t.tableSize_eq ▸ hhigh)
  -- The transform flushes the one number of bits that leaves a sub-state.
  have hwidth : (Transform.ofWeight t.params.tableLog (t.weights.weight symbol.toNat)
      (t.weights.start symbol.toNat)).width x = width :=
    width_unique hsubState.1 hsubState.2 (by omega) (by omega)
  -- The offset replaces the weight by the start, so that the number of the state is left to add.
  have hrank : (((x >>> width : Nat) : Int) + (Transform.ofWeight t.params.tableLog
      (t.weights.weight symbol.toNat) (t.weights.start symbol.toNat)).rankOffset).toNat =
        t.weights.start symbol.toNat + j := by
    rw [Transform.rankOffset_ofWeight hpos, Nat.shiftRight_eq_div_pow, hdiv]
    omega
  have hsize := t.tableSize_le
  have hu := t.tableSize_weights ▸ hn.lt_tableSize t.spread_eq
  have hnext : t.nextStates[t.weights.start symbol.toNat + j]? =
      some (UInt16.ofNat (t.tableSize + u)) := by
    rw [t.nextStates_eq, Spread.getElem?_nextStates t.spread_eq hn, tableSize_weights]
  -- The table holds states in sixteen bits, which are enough for all of them.
  have hstate : (UInt16.ofNat (t.tableSize + u)).toNat = t.tableSize + u :=
    UInt16.toNat_ofNat_of_lt' (by simp only [UInt16.size]; omega)
  unfold Transform.width at hwidth
  -- No test refuses the state or the symbol, and each value is the one found above.
  rw [encodeSymbol, if_neg (by omega), transform?_eq_some hpos]
  simp only [hwidth, hrank, Array.getD_eq_getD_getElem?, hnext, Option.getD_some, hstate,
    Nat.shiftLeft_eq, Nat.one_mul]

/-- Some number of bits leaves of an encoder state a sub-state, which stands for a state of the
symbol. -/
theorem exists_nth_div {x : Nat} {symbol : UInt16} (hlow : t.tableSize ≤ x)
    (hhigh : x < 2 * t.tableSize) (hpos : 0 < t.weights.weight symbol.toNat) :
    ∃ width u, t.weights.weight symbol.toNat ≤ x / 2 ^ width ∧
      x / 2 ^ width < 2 * t.weights.weight symbol.toNat ∧
      t.spread.Nth symbol (x / 2 ^ width - t.weights.weight symbol.toNat) u := by
  obtain ⟨width, hle, hlt⟩ : ∃ width, t.weights.weight symbol.toNat ≤ x / 2 ^ width ∧
      x / 2 ^ width < 2 * t.weights.weight symbol.toNat :=
    ⟨_, Transform.div_two_pow_width 0 t.tableLog_inRange hpos (t.weight_le _)
      (t.tableSize_eq ▸ hlow) (t.tableSize_eq ▸ hhigh)⟩
  -- The symbol has as many states as it has sub-states.
  have hj : x / 2 ^ width - t.weights.weight symbol.toNat < t.weights.weight symbol.toNat := by
    omega
  obtain ⟨u, hn⟩ := Spread.exists_nth t.spread_eq hj
  exact ⟨width, u, hle, hlt, hn⟩

/-- Each encoder state is reached by a step of each symbol that has a state. -/
theorem exists_step {x : Nat} {symbol : UInt16} (hlow : t.tableSize ≤ x)
    (hhigh : x < 2 * t.tableSize) (hpos : 0 < t.weights.weight symbol.toNat) :
    ∃ u field, t.Step u symbol field (x - t.tableSize) := by
  obtain ⟨width, u, hle, hlt, hn⟩ := exists_nth_div hlow hhigh hpos
  -- The bits that are shifted out are those that the step reads.
  refine ⟨u, ⟨x % 2 ^ width, width⟩, step_iff.2 ⟨by omega, _, hn, ?_, ?_⟩⟩
  · show (t.tableSize + (x - t.tableSize)) / 2 ^ width = _
    rw [Nat.add_sub_cancel' hlow]
    omega
  · rw [Nat.add_sub_cancel' hlow]

/-- Each state is reached by a step of each symbol that has a state. -/
theorem exists_step_to {u' : Nat} {symbol : UInt16} (hu' : u' < t.tableSize)
    (hpos : 0 < t.weights.weight symbol.toNat) : ∃ u field, t.Step u symbol field u' := by
  obtain ⟨u, field, hstep⟩ := exists_step (Nat.le_add_right t.tableSize u') (by omega) hpos
  rw [Nat.add_sub_cancel_left] at hstep
  exact ⟨u, field, hstep⟩

/-- A step can be taken backwards. -/
theorem Step.encodeSymbol {u : Nat} {symbol : UInt16} {field : Bits.Field} {u' : Nat}
    (h : t.Step u symbol field u') :
    t.encodeSymbol (t.tableSize + u') symbol.toNat = .ok (t.tableSize + u, field) := by
  obtain ⟨hlt, j, hn, hdiv, hmod⟩ := step_iff.1 h
  rw [encodeSymbol_eq_ok (Nat.le_add_right _ _) (by omega) hn hdiv, hmod]

/-- A number that is not a state of an encoder is refused, whatever the symbol. -/
theorem encodeSymbol_of_outOfRange {x : Nat} (symbol : Nat)
    (h : ¬ (t.tableSize ≤ x ∧ x < 2 * t.tableSize)) :
    t.encodeSymbol x symbol = .error (.stateOutOfRange x t.tableSize (2 * t.tableSize)) := by
  rw [Tables.encodeSymbol, if_pos (by omega)]

/-- A symbol without states is refused in every state. -/
theorem encodeSymbol_of_weight_eq_zero {x symbol : Nat} (hlow : t.tableSize ≤ x)
    (hhigh : x < 2 * t.tableSize) (hzero : t.weights.weight symbol = 0) :
    t.encodeSymbol x symbol = .error (.alphabetMismatch symbol t.alphabetSize) := by
  rw [Tables.encodeSymbol, if_neg (by omega), transform?, if_neg (by omega)]

/-- Only encoder states are encoded from. -/
theorem inRange_of_encodeSymbol {x symbol : Nat} {r : Nat × Bits.Field}
    (h : t.encodeSymbol x symbol = .ok r) : t.tableSize ≤ x ∧ x < 2 * t.tableSize := by
  by_contra hout
  rw [encodeSymbol_of_outOfRange symbol hout] at h
  exact nomatch h

/-- Only symbols that have a state are encoded. -/
theorem weight_pos_of_encodeSymbol {x symbol : Nat} {r : Nat × Bits.Field}
    (h : t.encodeSymbol x symbol = .ok r) : 0 < t.weights.weight symbol := by
  obtain ⟨hlow, hhigh⟩ := inRange_of_encodeSymbol h
  by_contra hzero
  rw [encodeSymbol_of_weight_eq_zero hlow hhigh (Nat.eq_zero_of_not_pos hzero)] at h
  exact nomatch h

/-- A symbol that has a state is named by sixteen bits. -/
theorem exists_toNat_eq {symbol : Nat} (h : 0 < t.weights.weight symbol) :
    ∃ id : UInt16, id.toNat = symbol :=
  ⟨UInt16.ofNat symbol, UInt16.toNat_ofNat_of_lt'
    (Nat.lt_of_lt_of_le (Weights.lt_alphabetSize h) t.weights.size_le)⟩

/-- The encoder takes the steps of the decoder backwards, and no others. -/
theorem encodeSymbol_eq_ok_iff {x : Nat} {symbol : UInt16} {x' : Nat} {field : Bits.Field} :
    t.encodeSymbol x symbol.toNat = .ok (x', field) ↔
      t.tableSize ≤ x ∧ ∃ u, x' = t.tableSize + u ∧ t.Step u symbol field (x - t.tableSize) := by
  constructor
  · intro h
    obtain ⟨hlow, hhigh⟩ := inRange_of_encodeSymbol h
    obtain ⟨u, field', hstep⟩ := exists_step hlow hhigh (weight_pos_of_encodeSymbol h)
    -- Taking this step backwards is what was encoded.
    have h' := hstep.encodeSymbol
    rw [Nat.add_sub_cancel' hlow, h] at h'
    cases h'
    exact ⟨hlow, u, rfl, hstep⟩
  · intro h
    obtain ⟨hlow, u, rfl, hstep⟩ := h
    have h' := hstep.encodeSymbol
    rwa [Nat.add_sub_cancel' hlow] at h'

/-- Every state has a decode entry, which makes a step for each number of its width. -/
theorem exists_entry {u : Nat} (t : Tables) (hu : u < t.tableSize) :
    ∃ entry, t.decodeTable[u]? = some entry ∧ ∀ value < 2 ^ entry.width.toNat,
      t.Step u entry.symbol ⟨value, entry.width.toNat⟩ (entry.base.toNat + value) := by
  have hlt : u < t.decodeTable.size := by rwa [size_decodeTable]
  have hentry : t.decodeTable[u]? = some t.decodeTable[u] := Array.getElem?_eq_getElem hlt
  exact ⟨_, hentry, fun value hvalue => ⟨_, hentry, rfl, rfl, hvalue, rfl⟩⟩

/-- The steps of the encoder and of the decode table invert each other. From an encoder state, a
symbol that has a state is encoded as the bits that lead back through the table; and whatever bits
an entry reads, encoding its symbol from where they lead returns to the entry and flushes them. -/
theorem encodeSymbol_inverts_decodeTable (t : Tables) :
    (∀ x symbol, t.tableSize ≤ x → x < 2 * t.tableSize → 0 < t.weights.weight symbol →
      ∃ x' field, t.encodeSymbol x symbol = .ok (x', field) ∧
        t.tableSize ≤ x' ∧ x' < 2 * t.tableSize ∧ field.value < 2 ^ field.width ∧
        ∃ entry, t.decodeTable[x' - t.tableSize]? = some entry ∧ entry.symbol.toNat = symbol ∧
          entry.width.toNat = field.width ∧ entry.base.toNat + field.value = x - t.tableSize) ∧
    (∀ u, u < t.tableSize → ∃ entry, t.decodeTable[u]? = some entry ∧
      ∀ value < 2 ^ entry.width.toNat, entry.base.toNat + value < t.tableSize ∧
        t.encodeSymbol (t.tableSize + (entry.base.toNat + value)) entry.symbol.toNat =
          .ok (t.tableSize + u, ⟨value, entry.width.toNat⟩)) := by
  constructor
  · intro x symbol hlow hhigh hpos
    obtain ⟨id, rfl⟩ := exists_toNat_eq hpos
    obtain ⟨u, field, hstep⟩ := exists_step hlow hhigh hpos
    have hencode := encodeSymbol_eq_ok_iff.2 ⟨hlow, u, rfl, hstep⟩
    -- The step is read off an entry of the table.
    obtain ⟨entry, hentry, rfl, hwidth, hvalue, hnext⟩ := hstep
    have hu := lt_tableSize_of_getElem? hentry
    refine ⟨t.tableSize + u, field, hencode, by omega, by omega, hvalue, entry, ?_, rfl, hwidth,
      hnext⟩
    rwa [Nat.add_sub_cancel_left]
  · intro u hu
    obtain ⟨entry, hentry, hsteps⟩ := t.exists_entry hu
    refine ⟨entry, hentry, fun value hvalue => ⟨(hsteps value hvalue).lt_tableSize, ?_⟩⟩
    exact (hsteps value hvalue).encodeSymbol

theorem encodeSymbol_inverts_decodeTable_sixteen :
    (sixteen.tableSize ≤ 21 ∧ 21 < 2 * sixteen.tableSize ∧ 0 < sixteen.weights.weight 2 ∧
      ∃ x' field, sixteen.encodeSymbol 21 2 = .ok (x', field) ∧
        sixteen.tableSize ≤ x' ∧ x' < 2 * sixteen.tableSize ∧ field.value < 2 ^ field.width ∧
        ∃ entry, sixteen.decodeTable[x' - sixteen.tableSize]? = some entry ∧
          entry.symbol.toNat = 2 ∧ entry.width.toNat = field.width ∧
          entry.base.toNat + field.value = 21 - sixteen.tableSize) ∧
    (6 < sixteen.tableSize ∧ ∃ entry, sixteen.decodeTable[6]? = some entry ∧
      ∀ value < 2 ^ entry.width.toNat, entry.base.toNat + value < sixteen.tableSize ∧
        sixteen.encodeSymbol (sixteen.tableSize + (entry.base.toNat + value))
          entry.symbol.toNat = .ok (sixteen.tableSize + 6, ⟨value, entry.width.toNat⟩)) :=
  ⟨⟨by decide, by decide, by decide,
    (encodeSymbol_inverts_decodeTable sixteen).1 21 2 (by decide) (by decide) (by decide)⟩,
    by decide, (encodeSymbol_inverts_decodeTable sixteen).2 6 (by decide)⟩

end Tables

end Tans
