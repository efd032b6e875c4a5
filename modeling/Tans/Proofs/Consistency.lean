import Tans.Proofs.Counting
import Tans.Proofs.Refusal
import Tans.Proofs.UnusedIds

/-!
# Headers that agree with their payload

The header of a segment says how many bits the payload has and how often each byte occurs. Decoding
holds the total of the counts against the length, and no more than that: bits behind the block are
skipped, and any counts of the right total will do that give each byte of the block a state. So a
header that an encoder would not have written may be accepted.

* `Segment.StandsFor.exists_consumes`, `Segment.StandsFor.count_pos`: what decoding implies.
* `Segment.StandsFor.consistent_iff`: when a header agrees with its payload.
* `Frame.consistency`: all segments of a frame.
-/

namespace Tans

namespace Segment

/-- Decoding the payload of a segment takes up a number of bits. -/
def Consumes (s : Segment) (n : Nat) : Prop :=
  ∃ t d, Tables.ofHistogram s.histogram (params s.tableLog) = .ok t ∧
    t.decodeBlock ((Bits.ofBytes s.payload).take s.bitCount) = .ok d ∧ d.bitsConsumed = n

/-- The header of a segment agrees with its payload: it declares the bits that decoding takes up,
and the counts of the bytes that are decoded. -/
structure Consistent (s : Segment) (bytes : List UInt8) : Prop where
  consumes_bitCount : s.Consumes s.bitCount
  count_eq : ∀ id, s.histogram.count id = (bytes.map UInt8.toNat).count id

variable {s : Segment} {bytes : List UInt8}

/-- Decoding takes up the block of the bytes, which is not longer than the payload. -/
theorem StandsFor.exists_consumes (h : s.StandsFor bytes) :
    ∃ t block, Tables.ofHistogram s.histogram (params s.tableLog) = .ok t ∧
      t.encodeBlock (bytes.map UInt8.toNat) = .ok block ∧ block.bitLength ≤ s.bitCount ∧
      ∀ n, s.Consumes n ↔ n = block.bitLength := by
  obtain ⟨t, block, ht, hblock, hprefix⟩ := h.exists_block
  have hdecode := decodeBlock_of_encodeBlock hblock hprefix
  refine ⟨t, block, ht, hblock, ?_, fun n => ⟨?_, ?_⟩⟩
  · rw [← Block.length_bits]
    exact Nat.le_trans hprefix.length_le (List.length_take_le _ _)
  -- The tables and the block are determined by the segment, and so is what is taken up.
  · intro ⟨t', d, ht', hd, hn⟩
    obtain rfl : t = t' := Except.ok.inj (ht.symm.trans ht')
    rw [hdecode] at hd
    cases hd
    exact hn.symm
  · rintro rfl
    exact ⟨t, _, ht, hdecode, rfl⟩

/-- The header counts each byte that is decoded, though perhaps not as often as it occurs. -/
theorem StandsFor.count_pos (h : s.StandsFor bytes) {b : UInt8} (hb : b ∈ bytes) :
    0 < s.histogram.count b.toNat := by
  obtain ⟨t, block, ht, hblock, -⟩ := h.exists_block
  have hw := (Tables.weights_of_ofHistogram ht).1
  rw [← Weights.weight_pos_iff_of_ofHistogram hw]
  exact Tables.weight_pos_of_encodeBlock hblock _ (List.mem_map_of_mem hb)

/-- Bytes with the counts of the header are coded as the block that decoding takes up. -/
theorem blockOf_iff {t : Tables} (hsize : s.histogram.alphabetSize ≤ 256)
    (ht : Tables.ofHistogram s.histogram (params s.tableLog) = .ok t)
    (hcounts : (Histogram.ofBytes bytes).trimmed = s.histogram.trimmed) {block : Block} :
    BlockOf s.tableLog bytes block ↔ t.encodeBlock (bytes.map UInt8.toNat) = .ok block := by
  have halike : Tables.SetUpAlike Tables.CodesLike
      (Tables.ofHistogram s.histogram.trimmed (params s.tableLog))
      (Tables.ofHistogram s.histogram (params s.tableLog)) :=
    Tables.setUpAlike_trimmed (Nat.le_trans hsize (by decide))
  rw [ht] at halike
  unfold BlockOf
  rw [hcounts]
  -- The header may have trailing counts of zero, which coding would not write.
  generalize Tables.ofHistogram s.histogram.trimmed (params s.tableLog) = outcome at halike ⊢
  cases halike with
  | ok hlike =>
    rw [hlike.encodeBlock_iff]
    exact ⟨fun ⟨t', ht', hblock⟩ => Except.ok.inj ht' ▸ hblock, fun hblock => ⟨_, rfl, hblock⟩⟩

/-- The header of a segment agrees with its payload exactly if it is the header that coding the bytes
writes, up to counts of zero behind all others. -/
theorem StandsFor.consistent_iff (h : s.StandsFor bytes) :
    s.Consistent bytes ↔ ∃ s', ofBytes s.tableLog bytes = .ok s' ∧ s'.bitCount = s.bitCount ∧
      s'.histogram = s.histogram.trimmed := by
  obtain ⟨t, block, ht, hblock, hle, hconsumes⟩ := h.exists_consumes
  have hlen : bytes.length < 2 ^ 32 := h.length_bytes ▸ h.length_lt
  constructor
  · intro ⟨hbits, hcount⟩
    -- With the right counts, coding the bytes writes this very block.
    have hcounts : (Histogram.ofBytes bytes).trimmed = s.histogram.trimmed :=
      Histogram.trimmed_congr fun id => by rw [Histogram.count_ofBytes hlen, hcount]
    obtain ⟨t', ht', hblock'⟩ := (blockOf_iff h.alphabetSize_le ht hcounts).2 hblock
    have hbitCount := h.bitCount_lt
    refine ⟨_, ofBytes_eq_ok_iff.2 ⟨?_, t', block, ht', hblock', ?_, rfl⟩,
      ((hconsumes _).1 hbits).symm, hcounts⟩
    · rw [maxField_eq]
      omega
    · rw [maxField_eq]
      omega
  -- The other way round, the block that coding writes is the one that was decoded.
  · intro ⟨s', hs', hbits, hcounts⟩
    obtain ⟨-, t', block', ht', hblock', -, rfl⟩ := ofBytes_eq_ok_iff.1 hs'
    dsimp only at hbits hcounts
    have hsame := (blockOf_iff h.alphabetSize_le ht hcounts).1 ⟨t', ht', hblock'⟩
    rw [hblock] at hsame
    refine ⟨(hconsumes _).2 ?_, fun id => ?_⟩
    · rw [← hbits, Except.ok.inj hsame]
    · rw [← Histogram.count_trimmed, ← hcounts, Histogram.count_trimmed,
        Histogram.count_ofBytes hlen]

/-- Coding writes headers that agree with their payload. -/
theorem consistent_of_ofBytes {tableLog : Nat} (h : ofBytes tableLog bytes = .ok s) :
    s.StandsFor bytes ∧ s.Consistent bytes := by
  have hstands := standsFor_iff.2 ⟨storable_of_ofBytes h, decode_of_ofBytes h⟩
  obtain ⟨-, t, block, -, -, -, rfl⟩ := ofBytes_eq_ok_iff.1 h
  refine ⟨hstands, hstands.consistent_iff.2 ⟨_, h, rfl, ?_⟩⟩
  exact Histogram.trimmed_congr fun id => (Histogram.count_trimmed _ id).symm

end Segment

namespace Frame

/-- A frame is made of segments in a row, each of which stands for its part of the output. -/
structure MadeOf (data output : List UInt8) (parts : List (Segment × List UInt8)) : Prop where
  data_eq : data = parts.flatMap fun part => part.1.toBytes
  output_eq : output = parts.flatMap Prod.snd
  standsFor : ∀ part ∈ parts, part.1.StandsFor part.2

/-- No bytes are made of no segments. -/
theorem madeOf_nil : MadeOf [] [] [] := ⟨rfl, rfl, nofun⟩

/-- One segment more stands in front. -/
theorem MadeOf.cons {s : Segment} {bytes data output : List UInt8}
    {parts : List (Segment × List UInt8)} (hs : s.StandsFor bytes) (h : MadeOf data output parts) :
    MadeOf (s.toBytes ++ data) (bytes ++ output) ((s, bytes) :: parts) where
  data_eq := by rw [List.flatMap_cons, ← h.data_eq]
  output_eq := by rw [List.flatMap_cons, ← h.output_eq]
  standsFor := List.forall_mem_cons.2 ⟨hs, h.standsFor⟩

/-- What follows the grammar is made of segments. -/
theorem exists_madeOf {data output : List UInt8} (h : IsFrame data output) :
    ∃ parts, MadeOf data output parts := by
  induction h with
  | nil => exact ⟨[], madeOf_nil⟩
  | cons hs _ ih =>
    obtain ⟨parts, hparts⟩ := ih
    exact ⟨_, hparts.cons hs⟩

/-- What decoding implies about the headers of a frame, and what it does not. The declared lengths
and the totals of the counts are right, each byte that is decoded is counted, and no more bits are
taken up than declared. But a header need not agree with its payload: it does exactly if it is the
one that coding the bytes writes. -/
theorem consistency (data output : List UInt8) (limit : Option Nat)
    (h : decode data limit = .ok output) :
    (∃ parts, MadeOf data output parts) ∧
    ∀ parts, MadeOf data output parts → ∀ s bytes, (s, bytes) ∈ parts →
      s.length = bytes.length ∧ s.histogram.total = bytes.length ∧
        (∀ b ∈ bytes, 0 < s.histogram.count b.toNat) ∧ (∃ n ≤ s.bitCount, s.Consumes n) ∧
        (s.Consistent bytes ↔ ∃ s', Segment.ofBytes s.tableLog bytes = .ok s' ∧
          s'.bitCount = s.bitCount ∧ s'.histogram = s.histogram.trimmed) := by
  refine ⟨exists_madeOf ((decode_eq_ok_iff_isFrame _ _ _).1 h).1, fun parts hparts s bytes hmem => ?_⟩
  have hs : s.StandsFor bytes := hparts.standsFor _ hmem
  obtain ⟨t, block, -, -, hle, hconsumes⟩ := hs.exists_consumes
  exact ⟨hs.length_bytes.symm, hs.length_eq.symm.trans hs.length_bytes.symm, fun b => hs.count_pos,
    ⟨_, hle, (hconsumes _).2 rfl⟩, hs.consistent_iff⟩

/-- Two zeros with a stray byte behind their block, which the header declares as part of it. -/
def surplus : Segment := ⟨2, 48, 1, ⟨#[2]⟩, [0, 0, 0, 2, 0, 255]⟩

/-- Two zeros, one of which the header counts as another byte. -/
def miscounted : Segment := ⟨2, 35, 1, ⟨#[1, 1]⟩, [0, 0, 0, 2, 0]⟩

/-- Bits behind the block do not keep a segment from being decoded. -/
theorem standsFor_surplus : surplus.StandsFor [0, 0] :=
  Segment.standsFor_iff.2 ⟨⟨by decide, by decide, by decide, by decide, by decide⟩,
    by decide +kernel⟩

/-- A count of a byte that does not occur does not keep a segment from being decoded. -/
theorem standsFor_miscounted : miscounted.StandsFor [0, 0] :=
  Segment.standsFor_iff.2 ⟨⟨by decide, by decide, by decide, by decide, by decide⟩,
    by decide +kernel⟩

/-- The block of two zeros has 33 bits. -/
theorem consumes_surplus : surplus.Consumes 33 := by
  have hdecode : ((Tables.ofHistogram surplus.histogram (Segment.params 1)).mapError Error.setup >>=
      fun t => t.decodeBlock ((Bits.ofBytes surplus.payload).take 48)) = .ok ⟨#[0, 0], 33⟩ := by
    decide +kernel
  obtain ⟨t, ht, hd⟩ := Except.bind_eq_ok_iff.1 hdecode
  exact ⟨t, _, Except.mapError_eq_ok_iff.1 ht, hd, rfl⟩

/-- Neither the bits nor the counts that a header declares need be those of its payload. -/
theorem inconsistency :
    (decode surplus.toBytes none = .ok [0, 0] ∧ MadeOf surplus.toBytes [0, 0] [(surplus, [0, 0])] ∧
      surplus.Consumes 33 ∧ surplus.bitCount = 48 ∧ ¬ surplus.Consistent [0, 0]) ∧
    (decode miscounted.toBytes none = .ok [0, 0] ∧
      MadeOf miscounted.toBytes [0, 0] [(miscounted, [0, 0])] ∧
      miscounted.histogram.count 1 = 1 ∧ (1 : UInt8) ∉ ([0, 0] : List UInt8) ∧
      ¬ miscounted.Consistent [0, 0]) := by
  refine ⟨⟨by decide +kernel, .cons standsFor_surplus madeOf_nil, consumes_surplus, rfl, fun h => ?_⟩,
    ⟨by decide +kernel, .cons standsFor_miscounted madeOf_nil, by decide, by decide, fun h => ?_⟩⟩
  -- One number of bits is taken up, so 33 and 48 cannot both be it.
  · obtain ⟨t, block, -, -, -, hconsumes⟩ := standsFor_surplus.exists_consumes
    have hall := (hconsumes _).1 h.consumes_bitCount
    have hfew := (hconsumes _).1 consumes_surplus
    exact absurd (hall.trans hfew.symm) (by decide)
  · exact absurd (h.count_eq 1) (by decide)

/-- The headers of the two, and a header that agrees with its payload. -/
theorem consistency_zeros :
    (decode surplus.toBytes none = .ok [0, 0] ∧ ∃ n ≤ 48, surplus.Consumes n) ∧
    (decode miscounted.toBytes none = .ok [0, 0] ∧
      ∀ b ∈ ([0, 0] : List UInt8), 0 < miscounted.histogram.count b.toNat) ∧
    decode zeros.toBytes none = .ok [0, 0] ∧ zeros.Consistent [0, 0] := by
  have hsurplus : decode surplus.toBytes none = .ok [0, 0] := by decide +kernel
  have hmiscounted : decode miscounted.toBytes none = .ok [0, 0] := by decide +kernel
  have hzeros : decode zeros.toBytes none = .ok [0, 0] := by decide +kernel
  obtain ⟨-, hsurplus'⟩ := consistency _ _ _ hsurplus
  obtain ⟨-, hmiscounted'⟩ := consistency _ _ _ hmiscounted
  obtain ⟨-, hzeros'⟩ := consistency _ _ _ hzeros
  have hstands := (Segment.consistent_of_ofBytes ofBytes_zeros).1
  obtain ⟨-, -, -, hconsumes, -⟩ :=
    hsurplus' _ (.cons standsFor_surplus madeOf_nil) _ _ (List.mem_singleton.2 rfl)
  obtain ⟨-, -, hcounts, -⟩ :=
    hmiscounted' _ (.cons standsFor_miscounted madeOf_nil) _ _ (List.mem_singleton.2 rfl)
  obtain ⟨-, -, -, -, hconsistent⟩ :=
    hzeros' _ (.cons hstands madeOf_nil) _ _ (List.mem_singleton.2 rfl)
  exact ⟨⟨hsurplus, hconsumes⟩, ⟨hmiscounted, hcounts⟩, hzeros,
    hconsistent.2 ⟨zeros, ofBytes_zeros, rfl, by rw [Histogram.trimmed_eq]; rfl⟩⟩

end Frame

end Tans
