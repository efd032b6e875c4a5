import Tans.Proofs.Stream

/-!
# How much a few bits can decode to

A state of a symbol can be left without reading a bit if enough states of the symbol come before
it. The state that follows is the number of these, less the number of states that other symbols
have. So if two symbols share a table, the states descend until a bit is read, and as many steps as
there are states always read one. Only the symbol of a table of its own can be decoded any number of
times from a few bits.

* `Tables.Step.add_le_of_width_eq_zero`: a step that reads nothing leads downwards.
* `Tables.Run.length_add_le`: the states that are met bound the steps between two bits.
* `Tables.expansion_bounded`: how many bits a number of symbols takes.
-/

namespace Tans

/-- Two ids share out the states with all others. -/
theorem Weights.weight_add_weight_le (w : Weights) {a b : Nat} (h : a ≠ b) :
    w.weight a + w.weight b ≤ w.tableSize := by
  -- The states of the smaller id end before those of the larger one start.
  have key {a b : Nat} (hlt : a < b) : w.weight a + w.weight b ≤ w.tableSize := by
    have hstart : w.start (a + 1) ≤ w.start b := start_le_start hlt
    rw [start_succ] at hstart
    have hend := start_add_weight_le w b
    omega
  rcases Nat.lt_or_gt_of_ne h with hlt | hgt
  · exact key hlt
  · rw [Nat.add_comm]
    exact key hgt

namespace Tables

variable {t : Tables}

/-- Two symbols have states. -/
def Mixed (t : Tables) : Prop :=
  ∃ a b, a ≠ b ∧ 0 < t.weights.weight a ∧ 0 < t.weights.weight b

/-- No symbol has all states if two of them have some. -/
theorem Mixed.weight_lt (h : t.Mixed) (symbol : Nat) : t.weights.weight symbol < t.tableSize := by
  obtain ⟨a, b, hne, ha, hb⟩ := h
  rw [← tableSize_weights]
  -- One of the two symbols is not this one, and has a state of its own.
  by_cases hsymbol : symbol = a
  · subst hsymbol
    have := t.weights.weight_add_weight_le hne
    omega
  · have := t.weights.weight_add_weight_le hsymbol
    omega

/-! ### Steps and runs -/

/-- A step that reads no bits leads downwards, by the number of states that other symbols have at
least. -/
theorem Step.add_le_of_width_eq_zero {u u' : Nat} {symbol : UInt16} {field : Bits.Field}
    (h : t.Step u symbol field u') (hzero : field.width = 0) :
    u' + (t.tableSize - t.weights.weight symbol.toNat) ≤ u := by
  obtain ⟨-, j, hn, hdiv, -⟩ := step_iff.1 h
  rw [hzero, Nat.pow_zero, Nat.div_one] at hdiv
  -- The `j`-th state of a symbol has `j` states before it.
  have hj : j ≤ u := by
    rw [← hn.count_eq]
    exact Nat.le_trans List.count_le_length (List.length_take_le _ _)
  have hle := t.tableSize_weights ▸ t.weights.weight_le symbol.toNat
  omega

/-- The states descend as long as no bit is read, and a bit leads up by less than the number of
states. -/
theorem Run.length_add_le (hmixed : t.Mixed) {u u' : Nat} {symbols : List UInt16} {bits : Bits}
    (h : t.Run u symbols bits u') :
    symbols.length + u' ≤ u + bits.length * t.tableSize := by
  induction h with
  | nil u => simp
  | @cons u u₁ u' symbol symbols field bits hstep _ ih =>
    have hlen : field.bits.length = field.width := Bits.length_ofNat _ _
    rw [List.length_cons, List.length_append, Nat.add_mul, hlen]
    -- A step without bits costs a state at least, and one with a bit leads up by less than a table.
    by_cases hzero : field.width = 0
    · have hdown := hstep.add_le_of_width_eq_zero hzero
      have hlt := hmixed.weight_lt symbol.toNat
      omega
    · have hup : 1 * t.tableSize ≤ field.width * t.tableSize :=
        Nat.mul_le_mul_right _ (Nat.pos_of_ne_zero hzero)
      have hlt := hstep.lt_tableSize
      omega

/-- A run reads a bit for as many symbols as there are states. -/
theorem Run.length_div_le (hmixed : t.Mixed) {u u' : Nat} {symbols : List UInt16} {bits : Bits}
    (h : t.Run u symbols bits u') (hu : u < t.tableSize) :
    symbols.length / t.tableSize ≤ bits.length := by
  have hle := h.length_add_le hmixed
  have hlt : symbols.length < (bits.length + 1) * t.tableSize := by
    rw [Nat.succ_mul]
    omega
  exact Nat.le_of_lt_succ ((Nat.div_lt_iff_lt_mul t.tableSize_pos).2 hlt)

/-! ### Blocks -/

/-- A block has its header, and a bit for as many symbols as there are states. -/
theorem IsBlock.le_length (hmixed : t.Mixed) {symbols : List UInt16} {bits : Bits}
    (h : t.IsBlock symbols bits) (hne : symbols ≠ []) :
    t.params.lengthBits + t.params.tableLog + symbols.length / t.tableSize ≤ bits.length := by
  cases h with
  | empty => exact absurd rfl hne
  | run _ _ hrun =>
    have hle := hrun.length_div_le hmixed (hrun.lt_tableSize t.tableSize_pos)
    simp only [List.length_append, Bits.length_ofNat]
    omega

/-- The same for what is encoded, symbols of sixteen bits or not. -/
theorem le_bitLength_of_encodeBlock (hmixed : t.Mixed) {symbols : List Nat} {block : Block}
    (h : t.encodeBlock symbols = .ok block) (hne : symbols ≠ []) :
    t.params.lengthBits + t.params.tableLog + symbols.length / t.tableSize ≤ block.bitLength := by
  obtain ⟨ids, rfl⟩ := exists_map_toNat_eq (weight_pos_of_encodeBlock h)
  have hids : ids ≠ [] := fun hnil => hne (by rw [hnil, List.map_nil])
  have hle := (isBlock_of_encodeBlock h).le_length hmixed hids
  rwa [List.length_map, ← Block.length_bits]

/-- A few bits do not decode to any number of symbols, unless one symbol has the table to itself. A
step that reads nothing leads to a smaller state, so as many steps as there are states read a bit.
Hence a block of some symbols, decoded or encoded, has its header and a bit for as many symbols as
there are states. -/
theorem expansion_bounded (t : Tables) (hmixed : t.Mixed) :
    (∀ u c symbol u' c', t.decodeSymbol u c = .ok (symbol, u') c' → c'.pos = c.pos →
      u' < u ∧ u' + (t.tableSize - t.weights.weight symbol.toNat) ≤ u) ∧
    (∀ u symbols c symbols' u' c',
      t.decodeSymbols t.tableSize u symbols c = .ok (symbols', u') c' → c.pos + 1 ≤ c'.pos) ∧
    (∀ bits offset d, t.decodeBlockAt bits offset = .ok d → 1 ≤ d.symbols.size →
      t.params.lengthBits + t.params.tableLog + d.symbols.size / t.tableSize ≤ d.bitsConsumed) ∧
    (∀ symbols block, t.encodeBlock symbols = .ok block → 1 ≤ symbols.length →
      t.params.lengthBits + t.params.tableLog + symbols.length / t.tableSize ≤
        block.bitLength) := by
  refine ⟨fun u c symbol u' c' h hpos => ?_, fun u symbols c symbols' u' c' h => ?_,
    fun bits offset d h hsize => ?_, fun symbols block h hlen => ?_⟩
  · obtain ⟨field, hstep, hmoved⟩ := decodeSymbol_eq_ok_iff.1 h
    have hlen : field.bits.length = field.width := Bits.length_ofNat _ _
    -- The cursor stayed, so no bits were read.
    have hzero : field.width = 0 := by
      have := hmoved.pos_eq
      omega
    have hdown := hstep.add_le_of_width_eq_zero hzero
    have hlt := hmixed.weight_lt symbol.toNat
    exact ⟨by omega, hdown⟩
  · obtain ⟨ids, bits, hlen, -, hrun, hmoved⟩ := decodeSymbols_eq_ok_iff.1 h
    have hsize := t.tableSize_pos
    -- There is a first step, so the run starts in a state.
    have hu : u < t.tableSize := by
      cases hrun with
      | nil => rw [List.length_nil] at hlen; omega
      | cons hstep _ =>
        obtain ⟨entry, hentry, -⟩ := hstep
        exact lt_tableSize_of_getElem? hentry
    have hle := hrun.length_div_le hmixed hu
    rw [hlen, Nat.div_self hsize] at hle
    rw [hmoved.pos_eq]
    omega
  -- What is decoded takes up the block that its symbols are encoded as.
  · obtain ⟨-, block, hblock, -, hconsumed⟩ := decodeBlockAt_eq_ok_iff.1 h
    have hlen : (d.symbols.toList.map UInt16.toNat).length = d.symbols.size := by
      rw [List.length_map, Array.length_toList]
    have hle := le_bitLength_of_encodeBlock hmixed hblock (List.ne_nil_of_length_pos (by omega))
    rwa [hlen, ← hconsumed] at hle
  · exact le_bitLength_of_encodeBlock hmixed h (List.ne_nil_of_length_pos hlen)

/-- The tables of a symbol that has three of four states, and one that has the last. -/
def four : Tables :=
  let weights : Weights := ⟨#[3, 1], 2, by decide, by decide, by decide⟩
  let spread : Spread := ⟨#[0, 0, 0, 1]⟩
  { params := { tableLog := 2, lengthBits := 4 }
    weights
    spread
    decodeTable := spread.decodeTable weights
    nextStates := spread.nextStates weights
    transforms := weights.transforms
    check_eq := rfl
    tableLog_eq := rfl
    spread_eq := by decide
    decodeTable_eq := rfl
    nextStates_eq := rfl
    transforms_eq := rfl }

/-- The frequent symbol is decoded from no bits in state two, but not four times in a row. -/
theorem expansion_bounded_four :
    four.Mixed ∧
    (four.decodeSymbol 2 ⟨[], 6⟩ = .ok (0, 1) ⟨[], 6⟩ ∧ 1 < 2 ∧ 1 + (4 - 3) ≤ 2) ∧
    (four.decodeSymbols 4 2 #[] ⟨[true, false, true], 6⟩ = .ok (#[0, 0, 0, 1], 1) ⟨[], 9⟩ ∧
      6 + 1 ≤ 9) ∧
    (four.decodeBlockAt (Bits.ofNat 7 44) 0 = .ok ⟨#[0, 0, 0, 0, 0], 7⟩ ∧ 4 + 2 + 5 / 4 ≤ 7) ∧
    (four.encodeBlock [0, 0, 0, 0, 0] = .ok (.ofBits (Bits.ofNat 7 44)) ∧ 4 + 2 + 5 / 4 ≤ 7) := by
  have hmixed : four.Mixed := ⟨0, 1, by decide, by decide, by decide⟩
  obtain ⟨hstep, hsteps, hdecode, hencode⟩ := expansion_bounded four hmixed
  have hblock : four.decodeBlockAt (Bits.ofNat 7 44) 0 = .ok ⟨#[0, 0, 0, 0, 0], 7⟩ := by
    decide +kernel
  have hbits : four.encodeBlock [0, 0, 0, 0, 0] = .ok (.ofBits (Bits.ofNat 7 44)) := by decide +kernel
  exact ⟨hmixed, ⟨rfl, hstep 2 ⟨[], 6⟩ 0 1 ⟨[], 6⟩ rfl rfl⟩,
    ⟨rfl, hsteps 2 #[] ⟨[true, false, true], 6⟩ _ 1 ⟨[], 9⟩ rfl⟩,
    ⟨hblock, hdecode _ 0 _ hblock (by decide)⟩, hbits, hencode _ _ hbits (by decide)⟩

end Tables

end Tans
