import Tans.Proofs.Block

/-!
# Decoding arbitrary bits

The bits of a block need not come from an encoder. Whatever they are, the decoder stays in the
states of its tables, because each entry of the decode table leads to a state for every number that
can be read there. So the only complaint about bits is that they are corrupt.

* `Tables.decodeSymbol_eq_error_iff`: a step that fails leaves the cursor where it is.
* `Tables.Meets.lt_tableSize`: the states that are met in a block.
* `Tables.decodeBlockAt_safe`: what decoding a block can and cannot do.
-/

namespace Tans

/-- The bits were not written with the tables that they are decoded with. -/
def Error.IsCorrupt (e : Error) : Prop := ∃ fault, e = .corrupt fault

/-- What the bits of a block can be blamed for: the block starts behind their end, a field reaches
past it, or the last state is not the one that encoding starts from. -/
inductive Error.IsBlockFault : Error → Prop
  | startPastEnd (start length : Nat) : IsBlockFault (.corrupt (.startPastEnd start length))
  | shortRead (width position available : Nat) :
    IsBlockFault (.corrupt (.shortRead width position available))
  | finalState (state : Nat) : IsBlockFault (.corrupt (.finalState state))

/-- All that a block can be blamed for is corruption. -/
theorem Error.IsBlockFault.isCorrupt {e : Error} (h : e.IsBlockFault) : e.IsCorrupt := by
  cases h <;> exact ⟨_, rfl⟩

/-- A read of bits fails only where too few are left. -/
theorem Bits.raises_read (width : Nat) (c : Cursor Bool) :
    c.Raises Error.IsBlockFault (read width) := by
  intro e c' h
  rw [(read_eq_error_iff.1 h).2.1]
  exact .shortRead _ _ _

namespace Tables

variable {t : Tables}

/-! ### One symbol -/

/-- A step fails from a number that is no state, or where fewer bits are left than it reads. -/
theorem decodeSymbol_eq_error_iff {u : Nat} {c c' : Cursor Bool} {e : Error} :
    t.decodeSymbol u c = .error e c' ↔
      c' = c ∧ (t.tableSize ≤ u ∧ e = .stateOutOfRange u 0 t.tableSize ∨
        ∃ entry, t.decodeTable[u]? = some entry ∧ c.rest.length < entry.width.toNat ∧
          e = .corrupt (.shortRead entry.width.toNat c.pos c.remaining)) := by
  unfold decodeSymbol
  -- A number without entry is no state. From a state, only the read can fail.
  cases hentry : t.decodeTable[u]? with
  | none =>
    have hu : t.tableSize ≤ u := by simpa [size_decodeTable] using hentry
    simp [Cursor.throw_eq_error_iff, hu]
  | some entry =>
    have hu : ¬ t.tableSize ≤ u := Nat.not_le.2 (lt_tableSize_of_getElem? hentry)
    simp only [Cursor.bind_eq_error_iff, Bits.read_eq_error_iff]
    constructor
    · intro h
      rcases h with ⟨hshort, he, hc⟩ | ⟨_, _, -, h⟩
      · exact ⟨hc, .inr ⟨entry, rfl, hshort, he⟩⟩
      · cases h
    · intro h
      obtain ⟨hc, ⟨hge, -⟩ | ⟨entry', hentry', hshort, he⟩⟩ := h
      · exact absurd hge hu
      · cases hentry'
        exact .inl ⟨hshort, he, hc⟩

/-- A step passes as many bits as its entry says, and these are not more than the logarithm of the
table size. -/
theorem exists_entry_of_decodeSymbol {u u' : Nat} {symbol : UInt16} {c c' : Cursor Bool}
    (h : t.decodeSymbol u c = .ok (symbol, u') c') :
    ∃ entry, t.decodeTable[u]? = some entry ∧ entry.width.toNat ≤ t.params.tableLog ∧
      c'.pos = c.pos + entry.width.toNat ∧ c'.rest = c.rest.drop entry.width.toNat := by
  obtain ⟨field, ⟨entry, hentry, -, hwidth, -⟩, hrest, hpos⟩ := decodeSymbol_eq_ok_iff.1 h
  have hlen : field.bits.length = entry.width.toNat := by
    rw [Bits.Field.bits, Bits.length_ofNat, hwidth]
  refine ⟨entry, hentry, ?_, by rw [hpos, hlen], by rw [hrest, ← hlen, List.drop_left]⟩
  -- The width is what the sub-state of the entry lacks, which is not more than all bits.
  have hu : u < t.weights.tableSize := t.tableSize_weights ▸ lt_tableSize_of_getElem? hentry
  obtain ⟨symbol, j, hn⟩ := Spread.exists_nth_of_lt t.spread_eq hu
  obtain ⟨entry', hentry', -, hmissing, -⟩ := exists_entry_of_nth hn
  obtain rfl : entry = entry' := Option.some.inj (hentry.symm.trans hentry')
  rw [hmissing]
  exact Nat.sub_le _ _

/-- A step leads to a state. -/
theorem lt_tableSize_of_decodeSymbol {u u' : Nat} {symbol : UInt16} {c c' : Cursor Bool}
    (h : t.decodeSymbol u c = .ok (symbol, u') c') : u' < t.tableSize := by
  obtain ⟨field, hstep, -⟩ := decodeSymbol_eq_ok_iff.1 h
  exact hstep.lt_tableSize

/-- From a state a step reports nothing but missing bits. -/
theorem raises_decodeSymbol {u : Nat} (hu : u < t.tableSize) (c : Cursor Bool) :
    c.Raises Error.IsBlockFault (t.decodeSymbol u) := by
  intro e c' h
  obtain ⟨-, ⟨hge, -⟩ | ⟨entry, -, -, rfl⟩⟩ := decodeSymbol_eq_error_iff.1 h
  · exact absurd hu (Nat.not_lt.2 hge)
  · exact .shortRead _ _ _

/-! ### A block -/

/-- In the block at an offset, decoding meets the state `u` with `left` symbols to go and the
cursor at `c`: the state that stands behind the length to begin with, and then where each step
leads. -/
inductive Meets (t : Tables) (bits : Bits) (offset : Nat) :
    (left u : Nat) → (c : Cursor Bool) → Prop
  | start {length u : Nat} {c₁ c₂ : Cursor Bool} (hoffset : offset ≤ bits.length)
      (hlength : Bits.read t.params.lengthBits (Cursor.ofList bits offset) = .ok length c₁)
      (hne : length ≠ 0) (hstate : Bits.read t.params.tableLog c₁ = .ok u c₂) :
      Meets t bits offset length u c₂
  | step {left u u' : Nat} {symbol : UInt16} {c c' : Cursor Bool}
      (hmeets : Meets t bits offset (left + 1) u c)
      (hstep : t.decodeSymbol u c = .ok (symbol, u') c') : Meets t bits offset left u' c'

/-- A state is read from as many bits as the table size has, so it is one of the table. -/
theorem lt_tableSize_of_read {u : Nat} {c c' : Cursor Bool}
    (h : Bits.read t.params.tableLog c = .ok u c') : u < t.tableSize := by
  rw [tableSize_eq]
  exact (Bits.read_eq_ok_iff_moved.1 h).1

/-- Only states of the tables are met, whatever the bits are. -/
theorem Meets.lt_tableSize {bits : Bits} {offset left u : Nat} {c : Cursor Bool}
    (h : t.Meets bits offset left u c) : u < t.tableSize := by
  cases h with
  | start _ _ _ hstate => exact lt_tableSize_of_read hstate
  | step _ hstep => exact lt_tableSize_of_decodeSymbol hstep

/-- Ends the decoding of a block, which has to be in state zero then. -/
def closeBlock : Array UInt16 × Nat → Cursor.Reading Bool (Array UInt16) :=
  fun (symbols, last) =>
    if last = 0 then return symbols else throw (.corrupt (.finalState last))

/-- What is decoded from a block is what is decoded on from each state that is met in it. -/
theorem Meets.readBlock_eq {bits : Bits} {offset left u : Nat} {c : Cursor Bool}
    (h : t.Meets bits offset left u c) :
    ∃ symbols, t.readBlock (Cursor.ofList bits offset) =
      (t.decodeSymbols left u symbols >>= closeBlock) c := by
  induction h with
  | start _ hlength hne hstate =>
    refine ⟨#[], ?_⟩
    rw [readBlock, Cursor.bind_of_eq_ok hlength, if_neg hne, Cursor.bind_of_eq_ok hstate]
    rfl
  | @step left u u' symbol c c' _ hstep ih =>
    obtain ⟨symbols, hread⟩ := ih
    refine ⟨symbols.push symbol, hread.trans ?_⟩
    rw [decodeSymbols, bind_assoc, Cursor.bind_of_eq_ok hstep]

/-- From a state, any number of steps reports nothing but missing bits. -/
theorem raises_decodeSymbols {n u : Nat} (hu : u < t.tableSize) (symbols : Array UInt16)
    (c : Cursor Bool) : c.Raises Error.IsBlockFault (t.decodeSymbols n u symbols) := by
  -- Each step leads to a state again, which carries the induction.
  induction n generalizing u symbols c with
  | zero => exact Cursor.raises_pure _
  | succ n ih =>
    refine (raises_decodeSymbol hu c).bind fun (symbol, u') c' hstep => ?_
    exact ih (lt_tableSize_of_decodeSymbol hstep) _ c'

/-- Reading a block reports missing bits or a wrong last state. -/
theorem raises_readBlock (t : Tables) (c : Cursor Bool) :
    c.Raises Error.IsBlockFault t.readBlock := by
  refine (Bits.raises_read _ c).bind fun length c₁ hlength => ?_
  -- An empty block ends with its length.
  split
  · exact Cursor.raises_pure _
  refine (Bits.raises_read _ c₁).bind fun u c₂ hstate => ?_
  have hu : u < t.tableSize := lt_tableSize_of_read hstate
  refine (raises_decodeSymbols hu _ c₂).bind fun (symbols, last) c₃ _ => ?_
  show c₃.Raises _ (if last = 0 then _ else _)
  split
  · exact Cursor.raises_pure _
  · exact Cursor.raises_throw (.finalState last)

/-- Decoding a block blames it for one of its faults. -/
theorem isBlockFault_of_decodeBlockAt {bits : Bits} {offset : Nat} {e : Error}
    (h : t.decodeBlockAt bits offset = .error e) : e.IsBlockFault := by
  unfold decodeBlockAt at h
  -- The block starts behind the end, or it is read.
  split at h
  · cases h
    exact .startPastEnd _ _
  · split at h
    · exact nomatch h
    · next e₁ c he =>
      cases h
      exact t.raises_readBlock _ _ _ he

/-- Decoding a block reports nothing but corruption. -/
theorem isCorrupt_of_decodeBlockAt {bits : Bits} {offset : Nat} {e : Error}
    (h : t.decodeBlockAt bits offset = .error e) : e.IsCorrupt :=
  (isBlockFault_of_decodeBlockAt h).isCorrupt

/-- A block begins with its length. -/
theorem IsBlock.exists_eq_append {symbols : List UInt16} {bits : Bits}
    (h : t.IsBlock symbols bits) :
    symbols.length < 2 ^ t.params.lengthBits ∧
      ∃ rest, bits = Bits.ofNat t.params.lengthBits symbols.length ++ rest := by
  cases h with
  | empty => exact ⟨Nat.two_pow_pos _, [], (List.append_nil _).symm⟩
  | run _ hlen _ => exact ⟨Params.le_maxBlockLen_iff.1 hlen, _, List.append_assoc _ _ _⟩

/-- As many symbols are decoded as the length field says. -/
theorem size_of_decodeBlockAt {bits : Bits} {offset : Nat} {d : DecodedBlock}
    (h : t.decodeBlockAt bits offset = .ok d) :
    d.symbols.size = Bits.toNat ((bits.drop offset).take t.params.lengthBits) := by
  obtain ⟨-, block, hblock, ⟨suf, hsuf⟩, -⟩ := decodeBlockAt_eq_ok_iff.1 h
  obtain ⟨hlt, rest, hbits⟩ := (isBlock_of_encodeBlock hblock).exists_eq_append
  rw [← hsuf, hbits, List.append_assoc, List.take_left' (Bits.length_ofNat _ _), Bits.toNat_ofNat,
    Nat.mod_eq_of_lt hlt, Array.length_toList]

/-- All symbols that are decoded have states. -/
theorem weight_pos_of_decodeBlockAt {bits : Bits} {offset : Nat} {d : DecodedBlock}
    (h : t.decodeBlockAt bits offset = .ok d) :
    ∀ s ∈ d.symbols, 0 < t.weights.weight s.toNat := by
  intro s hs
  obtain ⟨-, block, hblock, -⟩ := decodeBlockAt_eq_ok_iff.1 h
  exact weight_pos_of_encodeBlock hblock _ (List.mem_map_of_mem (Array.mem_toList_iff.2 hs))

/-- Decoding a block is safe on any bits. Only states of the tables are met on the way, and nothing
but corruption is ever reported. A block that is decoded lies within the bits, has as many symbols
as its length field says, and all of them have states. One step leads from any state to another and
passes the bits that its entry asks for; if it fails, the cursor stays. -/
theorem decodeBlockAt_safe (t : Tables) (bits : Bits) (offset : Nat) :
    (∀ left u c, t.Meets bits offset left u c → u < t.tableSize ∧
      ∃ symbols, t.readBlock (Cursor.ofList bits offset) =
        (t.decodeSymbols left u symbols >>= closeBlock) c) ∧
    (∀ e, t.decodeBlockAt bits offset = .error e → ∃ fault, e = .corrupt fault) ∧
    (∀ d, t.decodeBlockAt bits offset = .ok d →
      offset + d.bitsConsumed ≤ bits.length ∧
        d.symbols.size = Bits.toNat ((bits.drop offset).take t.params.lengthBits) ∧
        ∀ s ∈ d.symbols, 0 < t.weights.weight s.toNat) ∧
    (∀ u c symbol u' c', t.decodeSymbol u c = .ok (symbol, u') c' → u' < t.tableSize ∧
      ∃ entry, t.decodeTable[u]? = some entry ∧ entry.width.toNat ≤ t.params.tableLog ∧
        c'.pos = c.pos + entry.width.toNat ∧ c'.rest = c.rest.drop entry.width.toNat) ∧
    (∀ u c e c', t.decodeSymbol u c = .error e c' → c' = c) := by
  refine ⟨fun _ _ _ h => ⟨h.lt_tableSize, h.readBlock_eq⟩, fun _ h => isCorrupt_of_decodeBlockAt h,
    fun d h => ?_, fun _ _ _ _ _ h => ?_, fun _ _ _ _ h => (decodeSymbol_eq_error_iff.1 h).1⟩
  · exact ⟨(encodeBlock_of_decodeBlockAt h).1, size_of_decodeBlockAt h,
      weight_pos_of_decodeBlockAt h⟩
  · exact ⟨lt_tableSize_of_decodeSymbol h, exists_entry_of_decodeSymbol h⟩

/-- A block of three symbols, the same block without its last bit, and two single steps. -/
theorem decodeBlockAt_safe_sixteen :
    (sixteen.Meets (Bits.ofNat 41 1544) 0 3 0 ⟨Bits.ofNat 5 8, 36⟩ ∧ 0 < sixteen.tableSize) ∧
    (sixteen.decodeBlockAt (Bits.ofNat 40 772) 0 = .error (.corrupt (.shortRead 1 40 0)) ∧
      ∃ fault, Error.corrupt (.shortRead 1 40 0) = .corrupt fault) ∧
    (sixteen.decodeBlockAt (Bits.ofNat 41 1544) 0 = .ok ⟨#[0, 2, 1], 41⟩ ∧
      ∀ s ∈ #[(0 : UInt16), 2, 1], 0 < sixteen.weights.weight s.toNat) ∧
    (sixteen.decodeSymbol 0 ⟨[true, false], 5⟩ = .ok (0, 10) ⟨[], 7⟩ ∧ 10 < sixteen.tableSize) ∧
    ∃ c, sixteen.decodeSymbol 16 ⟨[true], 5⟩ = .error (.stateOutOfRange 16 0 16) c ∧
      c = ⟨[true], 5⟩ := by
  obtain ⟨hmeets, -, hok, hstep, hfail⟩ := decodeBlockAt_safe sixteen (Bits.ofNat 41 1544) 0
  obtain ⟨-, herror, -⟩ := decodeBlockAt_safe sixteen (Bits.ofNat 40 772) 0
  have hstart : sixteen.Meets (Bits.ofNat 41 1544) 0 3 0 ⟨Bits.ofNat 5 8, 36⟩ :=
    .start (by decide) rfl (by decide) rfl
  have hshort : sixteen.decodeBlockAt (Bits.ofNat 40 772) 0 =
      .error (.corrupt (.shortRead 1 40 0)) := by decide +kernel
  have hdecode : sixteen.decodeBlockAt (Bits.ofNat 41 1544) 0 = .ok ⟨#[0, 2, 1], 41⟩ := by
    decide +kernel
  exact ⟨⟨hstart, (hmeets _ _ _ hstart).1⟩, ⟨hshort, herror _ hshort⟩,
    ⟨hdecode, (hok _ hdecode).2.2⟩, ⟨rfl, (hstep 0 ⟨[true, false], 5⟩ 0 10 ⟨[], 7⟩ rfl).1⟩,
    _, rfl, hfail 16 ⟨[true], 5⟩ _ _ rfl⟩

end Tables

end Tans
