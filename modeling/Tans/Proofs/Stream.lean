import Tans.Proofs.Block

/-!
# Streams of blocks

Blocks can stand anywhere in a bit sequence, and one after the other. A reader that decodes a block
and goes on where it ended meets each of them, though no block has the tables of another.

* `Tables.decodeBlockAt_of_encodeBlock`: a block is decoded whatever stands around it.
* `Tables.decodeBlocks_encodeBlocks`: so are all blocks of a stream.
-/

namespace Tans

namespace Tables

/-- Symbols that can be coded as a block: each has a state, and the length field holds their
number. -/
structure Encodable (t : Tables) (symbols : List Nat) : Prop where
  weight_pos : ∀ s ∈ symbols, 0 < t.weights.weight s
  length_le : symbols.length ≤ t.params.maxBlockLen

/-- Encodes blocks, each with its own tables. -/
def encodeBlocks (parts : List (Tables × List Nat)) : Except Error (List Block) :=
  parts.mapM fun part => part.1.encodeBlock part.2

/-- Decodes a block for each of the tables, the first one at an offset and every other one where
the one before it ended. The offset behind the last one is returned with them. -/
def decodeBlocks (bits : Bits) :
    (offset : Nat) → List Tables → Except Error (List DecodedBlock × Nat)
  | offset, [] => .ok ([], offset)
  | offset, t :: ts => do
    let d ← t.decodeBlockAt bits offset
    let (ds, last) ← decodeBlocks bits (offset + d.bitsConsumed) ts
    return (d :: ds, last)

/-- The bits of blocks, one after the other. -/
def joinBits (blocks : List Block) : Bits := blocks.flatMap Block.bits

variable {t : Tables}

/-- Symbols that have states can be encoded, if the length field holds their number. -/
theorem Encodable.exists_encodeBlock {symbols : List Nat} (h : t.Encodable symbols) :
    ∃ block, t.encodeBlock symbols = .ok block := by
  -- A symbol that has states is an id.
  obtain ⟨ids, rfl⟩ := exists_map_toNat_eq h.weight_pos
  have hlen := h.length_le
  rw [List.length_map] at hlen
  obtain ⟨bits, hblock⟩ := exists_isBlock (fun s hs => h.weight_pos _ (List.mem_map_of_mem hs)) hlen
  exact ⟨.ofBits bits, encodeBlock_eq_ok_iff.2 hblock⟩

/-- Nothing else can be encoded. -/
theorem encodable_of_encodeBlock {symbols : List Nat} {block : Block}
    (h : t.encodeBlock symbols = .ok block) : t.Encodable symbols := by
  refine ⟨weight_pos_of_encodeBlock h, ?_⟩
  by_contra hlong
  -- A block that is too long is refused before anything is encoded.
  rw [encodeBlock, if_pos (Nat.lt_of_not_le hlong)] at h
  cases h

/-- An encoded block is decoded wherever it stands in a stream. -/
theorem decodeBlockAt_of_encodeBlock {symbols : List Nat} {block : Block}
    (h : t.encodeBlock symbols = .ok block) (pre suf : Bits) :
    ∃ d, t.decodeBlockAt (pre ++ block.bits ++ suf) pre.length = .ok d ∧
      d.symbols.toList.map UInt16.toNat = symbols ∧ d.bitsConsumed = block.bitLength := by
  obtain ⟨ids, rfl⟩ := exists_map_toNat_eq (weight_pos_of_encodeBlock h)
  refine ⟨⟨ids.toArray, block.bitLength⟩,
    decodeBlockAt_eq_ok_iff.2 ⟨?_, block, h, ⟨suf, ?_⟩, rfl⟩, rfl, rfl⟩
  · rw [List.append_assoc, List.length_append]
    exact Nat.le_add_right _ _
  · rw [List.append_assoc, List.drop_left]

theorem exists_encodeBlocks {parts : List (Tables × List Nat)}
    (h : ∀ part ∈ parts, part.1.Encodable part.2) : ∃ blocks, encodeBlocks parts = .ok blocks := by
  induction parts with
  | nil => exact ⟨[], rfl⟩
  | cons part parts ih =>
    obtain ⟨hpart, hparts⟩ := List.forall_mem_cons.1 h
    obtain ⟨block, hblock⟩ := hpart.exists_encodeBlock
    obtain ⟨blocks, hblocks⟩ := ih hparts
    refine ⟨block :: blocks, ?_⟩
    rw [encodeBlocks, List.mapM_cons]
    exact Except.bind_eq_ok_iff.2 ⟨block, hblock, Except.bind_eq_ok_iff.2 ⟨blocks, hblocks, rfl⟩⟩

/-- Encoded blocks in a row are decoded one after the other. -/
theorem decodeBlocks_of_encodeBlocks {parts : List (Tables × List Nat)} {blocks : List Block}
    (h : encodeBlocks parts = .ok blocks) (pre suf : Bits) :
    ∃ ds, decodeBlocks (pre ++ joinBits blocks ++ suf) pre.length (parts.map Prod.fst) =
        .ok (ds, pre.length + (joinBits blocks).length) ∧
      ds.map (fun d => d.symbols.toList.map UInt16.toNat) = parts.map Prod.snd ∧
      ds.map DecodedBlock.bitsConsumed = blocks.map Block.bitLength := by
  induction parts generalizing blocks pre with
  | nil =>
    cases h
    exact ⟨[], rfl, rfl, rfl⟩
  | cons part parts ih =>
    rw [encodeBlocks, List.mapM_cons] at h
    obtain ⟨block, hblock, h⟩ := Except.bind_eq_ok_iff.1 h
    obtain ⟨blocks, hblocks, h⟩ := Except.bind_eq_ok_iff.1 h
    cases h
    -- The blocks that follow stand behind everything up to and including this one.
    obtain ⟨ds, hds, hsymbols, hconsumed⟩ := ih hblocks (pre ++ block.bits)
    obtain ⟨d, hd, hsymbol, hlen⟩ :=
      decodeBlockAt_of_encodeBlock hblock pre (joinBits blocks ++ suf)
    have hbits : pre ++ block.bits ++ (joinBits blocks ++ suf) =
        pre ++ joinBits (block :: blocks) ++ suf := by
      simp [joinBits]
    have hbits' : pre ++ block.bits ++ joinBits blocks ++ suf =
        pre ++ joinBits (block :: blocks) ++ suf := by
      simp [joinBits]
    have hoffset : pre.length + d.bitsConsumed = (pre ++ block.bits).length := by
      rw [hlen, List.length_append, Block.length_bits]
    have hlast : (pre ++ block.bits).length + (joinBits blocks).length =
        pre.length + (joinBits (block :: blocks)).length := by
      simp [joinBits, Nat.add_assoc]
    rw [hbits] at hd
    rw [hbits', hlast] at hds
    refine ⟨d :: ds, ?_, by simp [hsymbol, hsymbols], by simp [hlen, hconsumed]⟩
    rw [List.map_cons, decodeBlocks]
    rw [← hoffset] at hds
    exact Except.bind_eq_ok_iff.2 ⟨d, hd, Except.bind_eq_ok_iff.2 ⟨_, hds, rfl⟩⟩

/-- Blocks survive a round trip anywhere in a stream. What can be encoded is decoded again from
where it was written, with the number of bits that were written. Hence blocks in a row, each with
its own tables, are all met by a reader that goes on where a block ended. -/
theorem decodeBlocks_encodeBlocks :
    (∀ (t : Tables) (symbols : List Nat) (pre suf : Bits), t.Encodable symbols →
      ∃ block d, t.encodeBlock symbols = .ok block ∧
        t.decodeBlockAt (pre ++ block.bits ++ suf) pre.length = .ok d ∧
        d.symbols.toList.map UInt16.toNat = symbols ∧ d.bitsConsumed = block.bitLength) ∧
    (∀ (parts : List (Tables × List Nat)) (pre suf : Bits),
      (∀ part ∈ parts, part.1.Encodable part.2) →
      ∃ blocks ds, encodeBlocks parts = .ok blocks ∧
        decodeBlocks (pre ++ joinBits blocks ++ suf) pre.length (parts.map Prod.fst) =
          .ok (ds, pre.length + (joinBits blocks).length) ∧
        ds.map (fun d => d.symbols.toList.map UInt16.toNat) = parts.map Prod.snd ∧
        ds.map DecodedBlock.bitsConsumed = blocks.map Block.bitLength) := by
  constructor
  · intro t symbols pre suf h
    obtain ⟨block, hblock⟩ := h.exists_encodeBlock
    obtain ⟨d, hd⟩ := decodeBlockAt_of_encodeBlock hblock pre suf
    exact ⟨block, d, hblock, hd⟩
  · intro parts pre suf h
    obtain ⟨blocks, hblocks⟩ := exists_encodeBlocks h
    obtain ⟨ds, hds⟩ := decodeBlocks_of_encodeBlocks hblocks pre suf
    exact ⟨blocks, ds, hblocks, hds⟩

/-- The tables of a symbol that has both of two states. -/
def two : Tables :=
  let weights : Weights := ⟨#[2], 1, by decide, by decide, by decide⟩
  let spread : Spread := ⟨#[0, 0]⟩
  { params := { tableLog := 1, lengthBits := 3 }
    weights
    spread
    decodeTable := spread.decodeTable weights
    nextStates := spread.nextStates weights
    transforms := weights.transforms
    check_eq := rfl
    tableLog_eq := rfl
    spread_eq := by decide
    decodeTable_eq := rfl
    nextStates_eq := rfl
    transforms_eq := rfl }

theorem decodeBlocks_encodeBlocks_two :
    (sixteen.Encodable [0, 2, 1] ∧ ∃ block d, sixteen.encodeBlock [0, 2, 1] = .ok block ∧
      sixteen.decodeBlockAt ([true] ++ block.bits ++ [false]) 1 = .ok d ∧
      d.symbols.toList.map UInt16.toNat = [0, 2, 1] ∧ d.bitsConsumed = block.bitLength) ∧
    ((∀ part ∈ [(sixteen, [0, 2, 1]), (two, [0, 0, 0])], part.1.Encodable part.2) ∧
      ∃ blocks ds, encodeBlocks [(sixteen, [0, 2, 1]), (two, [0, 0, 0])] = .ok blocks ∧
        decodeBlocks ([true] ++ joinBits blocks ++ [false]) 1 [sixteen, two] =
          .ok (ds, 1 + (joinBits blocks).length) ∧
        ds.map (fun d => d.symbols.toList.map UInt16.toNat) = [[0, 2, 1], [0, 0, 0]] ∧
        ds.map DecodedBlock.bitsConsumed = blocks.map Block.bitLength) := by
  have hsixteen : sixteen.Encodable [0, 2, 1] := ⟨by decide, by decide⟩
  have htwo : two.Encodable [0, 0, 0] := ⟨by decide, by decide⟩
  have hparts : ∀ part ∈ [(sixteen, [0, 2, 1]), (two, [0, 0, 0])], part.1.Encodable part.2 :=
    List.forall_mem_cons.2 ⟨hsixteen, List.forall_mem_singleton.2 htwo⟩
  obtain ⟨hblock, hblocks⟩ := decodeBlocks_encodeBlocks
  exact ⟨⟨hsixteen, hblock sixteen [0, 2, 1] [true] [false] hsixteen⟩,
    hparts, hblocks _ [true] [false] hparts⟩

end Tables

end Tans
