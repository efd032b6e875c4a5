import Tans.Proofs.BitVector
import Tans.Proofs.Run

/-!
# Blocks as bits

A nonempty block is a length, a state, and the bits of a run from that state to state zero. Such a
block is what the encoder writes and it is all that the decoder reads: decoding succeeds exactly on
bits that begin with the block of the decoded symbols.

* `Tables.encodeBlock_eq_ok_iff`, `Tables.readBlock_eq_ok_iff`: both in terms of runs.
* `Tables.decodeBlockAt_eq_ok_iff`: decoding in terms of encoding.
-/

namespace Tans

/-- A block has at most as many symbols as its length field can tell. -/
theorem Params.le_maxBlockLen_iff {p : Params} {n : Nat} :
    n ≤ p.maxBlockLen ↔ n < 2 ^ p.lengthBits := by
  have := Nat.two_pow_pos p.lengthBits
  rw [maxBlockLen, Nat.shiftLeft_eq, Nat.one_mul]
  omega

namespace Tables

variable {t : Tables}

/-- The symbols of a block and its bits. -/
inductive IsBlock (t : Tables) : (symbols : List UInt16) → (bits : Bits) → Prop
  | empty : IsBlock t [] (Bits.ofNat t.params.lengthBits 0)
  | run {u : Nat} {symbols : List UInt16} {payload : Bits} (hne : symbols ≠ [])
      (hlen : symbols.length ≤ t.params.maxBlockLen) (hrun : t.Run u symbols payload 0) :
      IsBlock t symbols (Bits.ofNat t.params.lengthBits symbols.length ++
        Bits.ofNat t.params.tableLog u ++ payload)

/-! ### Encoding -/

/-- A block is written if its symbols are not too many and all of them can be encoded. -/
theorem encodeBlock_eq_ok_iff_encodeSymbols {symbols : List Nat} {block : Block} :
    t.encodeBlock symbols = .ok block ↔
      symbols.length ≤ t.params.maxBlockLen ∧ ∃ state payload,
        t.encodeSymbols symbols = .ok (state, payload) ∧
        block = .ofBits (if symbols.isEmpty then Bits.ofNat t.params.lengthBits symbols.length
          else Bits.ofNat t.params.lengthBits symbols.length ++
            Bits.ofNat t.params.tableLog (state - t.tableSize) ++ payload) := by
  rw [encodeBlock]
  constructor
  · intro h
    -- Too many symbols are refused before any is encoded.
    by_cases hlen : t.params.maxBlockLen < symbols.length
    · rw [if_pos hlen] at h
      exact nomatch h
    · rw [if_neg hlen] at h
      obtain ⟨⟨state, payload⟩, hencode, h⟩ := Except.bind_eq_ok_iff.1 h
      refine ⟨Nat.le_of_not_lt hlen, state, payload, hencode, ?_⟩
      cases symbols with
      | nil => exact (Except.ok.inj h).symm
      | cons s symbols => exact (Except.ok.inj h).symm
  · intro h
    obtain ⟨hlen, state, payload, hencode, rfl⟩ := h
    rw [if_neg (Nat.not_lt.2 hlen)]
    apply Except.bind_eq_ok_iff.2 ⟨(state, payload), hencode, _⟩
    cases symbols with
    | nil => rfl
    | cons s symbols => rfl

/-- What is encoded starts with the first bit of its first byte. -/
theorem exists_ofBits_of_encodeBlock {symbols : List Nat} {block : Block}
    (h : t.encodeBlock symbols = .ok block) : ∃ bits, block = .ofBits bits := by
  obtain ⟨-, _, _, -, hblock⟩ := encodeBlock_eq_ok_iff_encodeSymbols.1 h
  exact ⟨_, hblock⟩

/-- What is encoded is aligned. -/
theorem aligned_of_encodeBlock {symbols : List Nat} {block : Block}
    (h : t.encodeBlock symbols = .ok block) : block.Aligned := by
  obtain ⟨bits, rfl⟩ := exists_ofBits_of_encodeBlock h
  exact Block.aligned_ofBits bits

/-- Encoding writes exactly the bits of a block. -/
theorem encodeBlock_eq_ok_iff {symbols : List UInt16} {bits : Bits} :
    t.encodeBlock (symbols.map UInt16.toNat) = .ok (.ofBits bits) ↔ t.IsBlock symbols bits := by
  rw [encodeBlock_eq_ok_iff_encodeSymbols, List.length_map]
  simp only [Block.ofBits_inj]
  constructor
  · intro h
    obtain ⟨hlen, x, payload, hencode, rfl⟩ := h
    obtain ⟨u, rfl, hrun⟩ := encodeSymbols_eq_ok_iff.1 hencode
    rw [Nat.add_sub_cancel_left]
    -- A block without symbols is a length and nothing else.
    cases symbols with
    | nil => exact .empty
    | cons s symbols => exact .run (List.cons_ne_nil s symbols) hlen hrun
  · intro h
    cases h with
    | empty => exact ⟨Nat.zero_le _, _, _, rfl, rfl⟩
    | @run u _ payload hne hlen hrun =>
      refine ⟨hlen, t.tableSize + u, payload, encodeSymbols_eq_ok_iff.2 ⟨u, rfl, hrun⟩, ?_⟩
      rw [Nat.add_sub_cancel_left]
      cases symbols with
      | nil => exact absurd rfl hne
      | cons s symbols => rfl

/-- The bits of an encoded block are those of a block of its symbols. -/
theorem isBlock_of_encodeBlock {symbols : List UInt16} {block : Block}
    (h : t.encodeBlock (symbols.map UInt16.toNat) = .ok block) : t.IsBlock symbols block.bits := by
  obtain ⟨bits, rfl⟩ := exists_ofBits_of_encodeBlock h
  rw [Block.bits_ofBits]
  exact encodeBlock_eq_ok_iff.1 h

/-- Only symbols that have a state are encoded. -/
theorem weight_pos_of_encodeBlock {symbols : List Nat} {block : Block}
    (h : t.encodeBlock symbols = .ok block) : ∀ s ∈ symbols, 0 < t.weights.weight s := by
  obtain ⟨-, _, _, hrun, -⟩ := encodeBlock_eq_ok_iff_encodeSymbols.1 h
  exact weight_pos_of_encodeSymbols hrun

/-- Symbols that have a state are named by sixteen bits each. -/
theorem exists_map_toNat_eq {symbols : List Nat} (h : ∀ s ∈ symbols, 0 < t.weights.weight s) :
    ∃ ids : List UInt16, ids.map UInt16.toNat = symbols := by
  induction symbols with
  | nil => exact ⟨[], rfl⟩
  | cons s symbols ih =>
    obtain ⟨hs, hsymbols⟩ := List.forall_mem_cons.1 h
    obtain ⟨id, rfl⟩ := exists_toNat_eq hs
    obtain ⟨ids, rfl⟩ := ih hsymbols
    exact ⟨id :: ids, rfl⟩

/-- Symbols that have a state form a block if their number fits the length field. -/
theorem exists_isBlock {symbols : List UInt16} (h : ∀ s ∈ symbols, 0 < t.weights.weight s.toNat)
    (hlen : symbols.length ≤ t.params.maxBlockLen) : ∃ bits, t.IsBlock symbols bits := by
  by_cases hne : symbols = []
  · subst hne
    exact ⟨_, .empty⟩
  · obtain ⟨u, payload, hrun⟩ := exists_run h t.tableSize_pos
    exact ⟨_, .run hne hlen hrun⟩

/-! ### Decoding -/

/-- Reading moves the cursor over the bits of a block, and over nothing else. -/
theorem readBlock_eq_ok_iff {symbols : Array UInt16} {c c' : Cursor Bool} :
    t.readBlock c = .ok symbols c' ↔ ∃ bits, t.IsBlock symbols.toList bits ∧ c.Moved bits c' := by
  rw [readBlock, EStateM.bind_eq_ok_iff]
  constructor
  · intro h
    obtain ⟨length, c₁, hlength, h⟩ := h
    obtain ⟨hlt, hmoved₁⟩ := Bits.read_eq_ok_iff_moved.1 hlength
    -- A length of zero ends the block; otherwise a state and a run follow.
    by_cases hzero : length = 0
    · rw [if_pos hzero] at h
      cases h
      subst hzero
      exact ⟨_, .empty, hmoved₁⟩
    · rw [if_neg hzero] at h
      obtain ⟨u, c₂, hstate, h⟩ := EStateM.bind_eq_ok_iff.1 h
      obtain ⟨-, hmoved₂⟩ := Bits.read_eq_ok_iff_moved.1 hstate
      obtain ⟨⟨symbols', last⟩, c₃, hdecode, h⟩ := EStateM.bind_eq_ok_iff.1 h
      obtain ⟨ids, payload, hlen, hids, hrun, hmoved₃⟩ := decodeSymbols_eq_ok_iff.1 hdecode
      simp only at h
      -- Only a run that ends in state zero is accepted.
      by_cases hlast : last = 0
      · rw [if_pos hlast] at h
        cases h
        subst hlast
        rw [List.nil_append] at hids
        rw [hids]
        subst hlen
        have hne : ids ≠ [] := fun hnil => hzero (by rw [hnil, List.length_nil])
        -- Length, state and payload were passed in this order.
        exact ⟨_, .run hne (Params.le_maxBlockLen_iff.2 hlt) hrun,
          (hmoved₁.append hmoved₂).append hmoved₃⟩
      · rw [if_neg hlast] at h
        exact nomatch h
  · intro h
    obtain ⟨bits, hblock, hmoved⟩ := h
    -- The array is in the index of `IsBlock`, so its list is named before the cases.
    generalize hids : symbols.toList = ids at hblock
    cases hblock with
    | empty =>
      obtain rfl : symbols = #[] := Array.toList_inj.1 hids
      exact ⟨0, c', Bits.read_eq_ok_iff_moved.2 ⟨Nat.two_pow_pos _, hmoved⟩, rfl⟩
    | @run u _ payload hne hlen hrun =>
      obtain ⟨c₂, hheader, hpayload⟩ := Cursor.moved_append_iff.1 hmoved
      obtain ⟨c₁, hlength, hstate⟩ := Cursor.moved_append_iff.1 hheader
      have hu : u < 2 ^ t.params.tableLog := by
        rw [← tableSize_eq]
        exact hrun.lt_tableSize t.tableSize_pos
      have hsymbols : symbols.toList = #[].toList ++ ids := by rw [hids, List.nil_append]
      refine ⟨ids.length, c₁,
        Bits.read_eq_ok_iff_moved.2 ⟨Params.le_maxBlockLen_iff.1 hlen, hlength⟩, ?_⟩
      rw [if_neg (fun hzero => hne (List.length_eq_zero_iff.1 hzero)), EStateM.bind_eq_ok_iff]
      refine ⟨u, c₂, Bits.read_eq_ok_iff_moved.2 ⟨hu, hstate⟩, EStateM.bind_eq_ok_iff.2 ?_⟩
      exact ⟨(symbols, 0), c',
        decodeSymbols_eq_ok_iff.2 ⟨ids, payload, rfl, hsymbols, hrun, hpayload⟩, rfl⟩

/-- A block is decoded exactly where the block of its symbols was written. -/
theorem decodeBlockAt_eq_ok_iff {bits : Bits} {offset : Nat} {d : DecodedBlock} :
    t.decodeBlockAt bits offset = .ok d ↔
      offset ≤ bits.length ∧
        ∃ block : Block, t.encodeBlock (d.symbols.toList.map UInt16.toNat) = .ok block ∧
          block.bits <+: bits.drop offset ∧ d.bitsConsumed = block.bitLength := by
  rw [decodeBlockAt]
  constructor
  · intro h
    by_cases hlt : bits.length < offset
    · rw [if_pos hlt] at h
      exact nomatch h
    · rw [if_neg hlt] at h
      refine ⟨Nat.le_of_not_lt hlt, ?_⟩
      split at h
      · next symbols c hread =>
        cases h
        obtain ⟨block, hblock, hmoved⟩ := readBlock_eq_ok_iff.1 hread
        refine ⟨.ofBits block, encodeBlock_eq_ok_iff.2 hblock, ⟨c.rest, ?_⟩, ?_⟩
        · rw [Block.bits_ofBits]
          exact hmoved.rest_eq.symm
        · show c.pos - offset = block.length
          rw [hmoved.pos_eq]
          exact Nat.add_sub_cancel_left offset block.length
      · exact nomatch h
  · intro h
    obtain ⟨hle, _, hblock, ⟨rest, hrest⟩, hconsumed⟩ := h
    obtain ⟨block, rfl⟩ := exists_ofBits_of_encodeBlock hblock
    rw [Block.bits_ofBits] at hrest
    have hread : t.readBlock (Cursor.ofList bits offset) =
        .ok d.symbols ⟨rest, offset + block.length⟩ :=
      readBlock_eq_ok_iff.2 ⟨block, encodeBlock_eq_ok_iff.1 hblock, hrest.symm, rfl⟩
    rw [if_neg (Nat.not_lt.2 hle), hread]
    simp only [Nat.add_sub_cancel_left]
    congr
    exact hconsumed.symm

/-- What was decoded is encoded as the bits that decoding consumed. -/
theorem encodeBlock_of_decodeBlockAt {bits : Bits} {offset : Nat} {d : DecodedBlock}
    (h : t.decodeBlockAt bits offset = .ok d) :
    offset + d.bitsConsumed ≤ bits.length ∧
      t.encodeBlock (d.symbols.toList.map UInt16.toNat) =
        .ok (.ofBits ((bits.drop offset).take d.bitsConsumed)) := by
  obtain ⟨hle, block, hblock, hprefix, hconsumed⟩ := decodeBlockAt_eq_ok_iff.1 h
  have hlen := hprefix.length_le
  rw [List.length_drop, Block.length_bits] at hlen
  obtain ⟨block, rfl⟩ := exists_ofBits_of_encodeBlock hblock
  rw [Block.bits_ofBits] at hprefix
  rw [hconsumed, Block.bitLength_ofBits]
  rw [Block.bitLength_ofBits] at hlen
  exact ⟨by omega, by rw [hblock, ← List.prefix_iff_eq_take.1 hprefix]⟩

/-- Blocks of the same symbols are the same bits. -/
theorem take_eq_take_of_symbols_eq {bits bits' : Bits} {offset offset' : Nat} {d d' : DecodedBlock}
    (h : t.decodeBlockAt bits offset = .ok d) (h' : t.decodeBlockAt bits' offset' = .ok d')
    (hsymbols : d'.symbols = d.symbols) :
    d'.bitsConsumed = d.bitsConsumed ∧
      (bits'.drop offset').take d.bitsConsumed = (bits.drop offset).take d.bitsConsumed := by
  obtain ⟨hfits, hencode⟩ := encodeBlock_of_decodeBlockAt h
  obtain ⟨hfits', hencode'⟩ := encodeBlock_of_decodeBlockAt h'
  -- Both stretches of bits are the encoding of the same symbols.
  rw [hsymbols, hencode] at hencode'
  have hbits := Block.ofBits_inj.1 (Except.ok.inj hencode')
  have hlen := congrArg List.length hbits
  simp only [List.length_take, List.length_drop] at hlen
  have hconsumed : d'.bitsConsumed = d.bitsConsumed := by omega
  exact ⟨hconsumed, by rw [hbits, hconsumed]⟩

/-- The decoder accepts canonical blocks only. The bits of a block are the encoding of what it
decodes to, so blocks of the same symbols are the same bits, and a block in which a bit was changed
decodes to other symbols if it decodes at all. -/
theorem decodeBlockAt_canonical {bits : Bits} {offset : Nat} {d : DecodedBlock}
    (h : t.decodeBlockAt bits offset = .ok d) :
    (offset + d.bitsConsumed ≤ bits.length ∧
      t.encodeBlock (d.symbols.toList.map UInt16.toNat) =
        .ok (.ofBits ((bits.drop offset).take d.bitsConsumed))) ∧
    (∀ bits' offset' d', t.decodeBlockAt bits' offset' = .ok d' → d'.symbols = d.symbols →
      d'.bitsConsumed = d.bitsConsumed ∧
        (bits'.drop offset').take d.bitsConsumed = (bits.drop offset).take d.bitsConsumed) ∧
    (∀ (bits' : Bits) (i : Nat), i < d.bitsConsumed → bits'[offset + i]? ≠ bits[offset + i]? →
      ∀ d', t.decodeBlockAt bits' offset = .ok d' → d'.symbols ≠ d.symbols) := by
  refine ⟨encodeBlock_of_decodeBlockAt h, ?_, ?_⟩
  · intro bits' offset' d' h' hsymbols
    exact take_eq_take_of_symbols_eq h h' hsymbols
  · intro bits' i hi hne d' h' hsymbols
    -- If the symbols were the same, the bits would be, also the one that was changed.
    have hbits := (take_eq_take_of_symbols_eq h h' hsymbols).2
    have hbit := congrArg (·[i]?) hbits
    simp only [List.getElem?_take_of_lt hi, List.getElem?_drop] at hbit
    exact hne hbit

/-- A block of three symbols between two other bits, and the same with its last bit changed. -/
theorem decodeBlockAt_canonical_sixteen :
    sixteen.decodeBlockAt ([true] ++ Bits.ofNat 41 1544 ++ [false]) 1 = .ok ⟨#[0, 2, 1], 41⟩ ∧
      sixteen.encodeBlock [0, 2, 1] = .ok (.ofBits (Bits.ofNat 41 1544)) ∧
      ∀ d, sixteen.decodeBlockAt ([true] ++ Bits.ofNat 41 1545 ++ [false]) 1 = .ok d →
        d.symbols ≠ #[0, 2, 1] := by
  have hdecode : sixteen.decodeBlockAt ([true] ++ Bits.ofNat 41 1544 ++ [false]) 1 =
      .ok ⟨#[0, 2, 1], 41⟩ := by
    decide +kernel
  obtain ⟨hencode, -, hchanged⟩ := decodeBlockAt_canonical hdecode
  exact ⟨hdecode, hencode.2, hchanged _ 40 (by decide) (by decide)⟩

end Tables

end Tans
