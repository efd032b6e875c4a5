import Tans.Proofs.Construction
import Tans.Proofs.Decoding
import Tans.Proofs.Frame

/-!
# The grammar of frames

A frame is a row of segments. Which bytes a segment stands for is said here in terms of encoding:
its counts give tables, and its payload begins with the block that these tables encode the bytes as.
Decoding accepts exactly the rows of such segments, and the limit bounds what they stand for.

* `Segment.decode_eq_ok_iff`: one segment.
* `Frame.decode_eq_ok_iff_isFrame`: frames.
-/

namespace Tans

namespace Segment

/-- A segment stands for some bytes: its header is one that can be stored, its counts describe a
distribution whose total is its length, and its payload begins with the block of the bytes. -/
structure StandsFor (s : Segment) (bytes : List UInt8) : Prop where
  length_lt : s.length < 2 ^ 32
  bitCount_lt : s.bitCount < 2 ^ 32
  alphabetSize_le : s.histogram.alphabetSize ≤ 256
  length_payload : s.payload.length = (s.bitCount + 7) / 8
  length_eq : s.length = s.histogram.total
  length_pos : 1 ≤ s.length
  tableLog_inRange : 1 ≤ s.tableLog ∧ s.tableLog ≤ 15
  present_le : s.histogram.counts.toList.countP (· ≠ 0) ≤ 2 ^ s.tableLog
  length_bytes : bytes.length = s.length
  exists_block : ∃ t block,
    Tables.ofHistogram s.histogram { tableLog := s.tableLog, lengthBits := 32 } = .ok t ∧
      t.encodeBlock (bytes.map UInt8.toNat) = .ok block ∧
      block.bits <+: (Bits.ofBytes s.payload).take s.bitCount

variable {s : Segment} {bytes : List UInt8}

/-! ### One segment -/

/-- Ids that are bytes are the same numbers when cut down to bytes. -/
theorem map_toNat_toUInt8 {ids : List UInt16} (h : ∀ id ∈ ids, id.toNat < 256) :
    (ids.map UInt16.toUInt8).map UInt8.toNat = ids.map UInt16.toNat := by
  rw [List.map_map]
  apply List.map_congr_left
  intro id hid
  simp [Nat.mod_eq_of_lt (h id hid)]

/-- Tables for bytes decode nothing but bytes. -/
theorem toNat_lt_of_decodeBlockAt {h : Histogram} {params : Params} {t : Tables}
    (hsize : h.alphabetSize ≤ 256) (ht : Tables.ofHistogram h params = .ok t) {bits : Bits}
    {offset : Nat} {d : DecodedBlock} (hd : t.decodeBlockAt bits offset = .ok d) :
    ∀ id ∈ d.symbols, id.toNat < 256 := by
  intro id hid
  have hlt := Weights.lt_alphabetSize (Tables.weight_pos_of_decodeBlockAt hd id hid)
  have hsize' : t.weights.alphabetSize = h.alphabetSize := Tables.alphabetSize_of_ofHistogram ht
  omega

/-- Bytes are the same numbers in sixteen bits. -/
theorem map_toNat_toUInt16 (bytes : List UInt8) :
    (bytes.map UInt8.toUInt16).map UInt16.toNat = bytes.map UInt8.toNat := by
  simp [Function.comp_def]

/-- Where the block of some bytes stands, these bytes are decoded. -/
theorem decodeBlock_of_encodeBlock {t : Tables} {block : Block} {bits : Bits}
    (hblock : t.encodeBlock (bytes.map UInt8.toNat) = .ok block) (hfront : block.bits <+: bits) :
    t.decodeBlock bits = .ok ⟨(bytes.map UInt8.toUInt16).toArray, block.bitLength⟩ := by
  -- The ids that are decoded are the bytes in sixteen bits.
  rw [← map_toNat_toUInt16] at hblock
  exact Tables.decodeBlockAt_eq_ok_iff.2 ⟨Nat.zero_le _, block, hblock, hfront, rfl⟩

/-- A segment over bytes is decoded to the bytes whose block its payload begins with. -/
theorem decode_eq_ok_iff (hsize : s.histogram.alphabetSize ≤ 256) :
    s.decode = .ok bytes ↔
      s.histogram.total = s.length ∧ bytes.length = s.length ∧ ∃ t block,
        Tables.ofHistogram s.histogram (params s.tableLog) = .ok t ∧
          t.encodeBlock (bytes.map UInt8.toNat) = .ok block ∧
          block.bits <+: (Bits.ofBytes s.payload).take s.bitCount := by
  unfold decode
  constructor
  · intro h
    -- The total is right, tables and block are there, and the block has the right length.
    split at h
    · exact nomatch h
    next htotal =>
    obtain ⟨t, ht, h⟩ := Except.bind_eq_ok_iff.1 h
    obtain ⟨d, hd, h⟩ := Except.bind_eq_ok_iff.1 h
    have ht := Except.mapError_eq_ok_iff.1 ht
    split at h
    · exact nomatch h
    next hlength =>
    cases h
    obtain ⟨-, block, hblock, hprefix, -⟩ := Tables.decodeBlockAt_eq_ok_iff.1 hd
    have hbytes := map_toNat_toUInt8 fun id hid =>
      toNat_lt_of_decodeBlockAt hsize ht hd id (Array.mem_toList_iff.1 hid)
    exact ⟨not_not.1 htotal, by simpa using hlength, t, block, ht, by rw [hbytes, hblock], hprefix⟩
  · intro h
    obtain ⟨htotal, hlength, t, block, ht, hblock, hprefix⟩ := h
    rw [if_neg (not_not.2 htotal)]
    refine Except.bind_eq_ok_iff.2 ⟨t, Except.mapError_eq_ok_iff.2 ht,
      Except.bind_eq_ok_iff.2 ⟨_, decodeBlock_of_encodeBlock hblock hprefix, ?_⟩⟩
    rw [if_neg (by simpa using hlength), map_toUInt8 (map_toNat_toUInt16 bytes)]
    rfl

/-- What a segment stands for is what it is decoded to. -/
theorem standsFor_iff : s.StandsFor bytes ↔ s.Storable ∧ s.decode = .ok bytes := by
  constructor
  · intro h
    refine ⟨⟨h.length_lt, h.bitCount_lt, ?_, h.alphabetSize_le, h.length_payload⟩,
      (decode_eq_ok_iff h.alphabetSize_le).2 ⟨h.length_eq.symm, h.length_bytes, h.exists_block⟩⟩
    exact Nat.lt_of_le_of_lt h.tableLog_inRange.2 (by decide)
  · intro h
    obtain ⟨⟨hlength, hbitCount, -, hsize, hpayload⟩, hdecode⟩ := h
    obtain ⟨htotal, hbytes, t, block, ht, hblock, hprefix⟩ := (decode_eq_ok_iff hsize).1 hdecode
    -- There are tables, so the counts describe a distribution. In particular they are not all
    -- zero, and a segment of length zero stands for nothing.
    obtain ⟨hvalid, -, hpos, hpresent⟩ := Tables.ofHistogram_eq_ok_iff.1 ⟨t, ht⟩
    rw [Histogram.length_present] at hpresent
    exact ⟨hlength, hbitCount, hsize, hpayload, htotal.symm, htotal ▸ hpos, hvalid.1, hpresent,
      hbytes, t, block, ht, hblock, hprefix⟩

/-- A segment that stands for some bytes is read where it was written, if the limit allows them. -/
theorem StandsFor.read_eq_ok {limit : Option Nat} {produced : Nat} {c : Cursor UInt8}
    {data : List UInt8} (h : s.StandsFor bytes) (hallows : Allows limit produced bytes.length)
    (hrest : c.rest = s.toBytes ++ data) :
    read limit produced c = .ok s ⟨data, c.pos + s.toBytes.length⟩ :=
  read_eq_ok_iff.2 ⟨(standsFor_iff.1 h).1, h.length_bytes ▸ hallows, hrest, rfl⟩

end Segment

namespace Frame

/-! ### Segments in a row -/

/-- The grammar of frames: segments in a row, each of which stands for some bytes. The frame stands
for these bytes in a row. -/
inductive IsFrame : (data output : List UInt8) → Prop
  | nil : IsFrame [] []
  | cons {s : Segment} {bytes data output : List UInt8} (hs : s.StandsFor bytes)
      (hrest : IsFrame data output) : IsFrame (s.toBytes ++ data) (bytes ++ output)

variable {limit : Option Nat} {produced : Nat} {c : Cursor UInt8} {data output : List UInt8}

/-- A limit has room for two lengths if it has room for one, and then for the other. -/
theorem allows_add_iff {m n : Nat} :
    Segment.Allows limit produced (m + n) ↔
      Segment.Allows limit produced m ∧ Segment.Allows limit (produced + m) n := by
  unfold Segment.Allows
  refine ⟨fun h => ⟨fun l hl => ?_, fun l hl => ?_⟩, fun ⟨hm, hn⟩ l hl => ?_⟩
  · have := h l hl
    omega
  · have := h l hl
    omega
  · have := hm l hl
    have := hn l hl
    omega

/-- What is decoded follows the grammar, and the limit allows it. -/
theorem isFrame_of_decodeFrom (h : decodeFrom limit produced c = .ok output) :
    IsFrame c.rest output ∧ Segment.Allows limit produced output.length := by
  -- By induction on what is left to read, which is what decoding recurs on.
  obtain ⟨n, hn⟩ : ∃ n, c.rest.length = n := ⟨_, rfl⟩
  induction n using Nat.strongRecOn generalizing c produced output with
  | ind n ih =>
    rcases decodeFrom_eq_ok_iff.1 h with
      ⟨hrest, rfl⟩ | ⟨s, c', front, back, hread, hfront, hback, rfl⟩
    · rw [hrest]
      exact ⟨.nil, fun l _ => Nat.zero_le _⟩
    -- One segment was read and decoded, and what follows it is a frame by induction.
    · obtain ⟨hs, hallows, hmoved⟩ := Segment.read_eq_ok_iff.1 hread
      obtain ⟨hframe, hallows'⟩ := ih _ (hn ▸ Segment.rest_length_lt_of_read hread) hback rfl
      have hstands := Segment.standsFor_iff.2 ⟨hs, hfront⟩
      rw [← hstands.length_bytes] at hallows
      rw [hmoved.rest_eq, List.length_append]
      exact ⟨.cons hstands hframe, allows_add_iff.2 ⟨hallows, hallows'⟩⟩

/-- What follows the grammar is decoded, if the limit allows it. -/
theorem decodeFrom_of_isFrame (h : IsFrame data output)
    (hallows : Segment.Allows limit produced output.length) (hrest : c.rest = data) :
    decodeFrom limit produced c = .ok output := by
  induction h generalizing produced c with
  | nil =>
    -- Decoding ends successfully at the end of the bytes only.
    exact decodeFrom_eq_ok_iff.2 (.inl ⟨hrest, rfl⟩)
  | @cons s bytes data output hs _ ih =>
    -- The limit has room for this segment, and then for the others.
    rw [List.length_append, allows_add_iff] at hallows
    exact decodeFrom_eq_ok_iff.2 (.inr ⟨s, _, bytes, output, hs.read_eq_ok hallows.1 hrest,
      (Segment.standsFor_iff.1 hs).2, ih hallows.2 rfl, rfl⟩)

/-- Decoding accepts exactly what follows the grammar, and returns what it stands for, unless this
is longer than the limit. -/
theorem decode_eq_ok_iff_isFrame (data : List UInt8) (limit : Option Nat) (output : List UInt8) :
    decode data limit = .ok output ↔ IsFrame data output ∧ ∀ l ∈ limit, output.length ≤ l := by
  constructor
  · intro h
    exact isFrame_of_decodeFrom h
  · intro h
    exact decodeFrom_of_isFrame h.1 h.2 rfl

/-- Two bytes as a segment. -/
def zeros : Segment := ⟨2, 33, 1, ⟨#[2]⟩, [0, 0, 0, 2, 0]⟩

/-- The segment `zeros` stands for two zeros. -/
theorem standsFor_zeros : zeros.StandsFor [0, 0] :=
  Segment.standsFor_iff.2 ⟨⟨by decide, by decide, by decide, by decide, by decide⟩,
    by decide +kernel⟩

/-- Two segments in a row are a frame, which is decoded if the limit allows four bytes. -/
theorem decode_eq_ok_iff_isFrame_zeros :
    IsFrame (zeros.toBytes ++ (zeros.toBytes ++ [])) [0, 0, 0, 0] ∧
    decode (zeros.toBytes ++ (zeros.toBytes ++ [])) (some 4) = .ok [0, 0, 0, 0] ∧
    decode (zeros.toBytes ++ (zeros.toBytes ++ [])) (some 3) ≠ .ok [0, 0, 0, 0] := by
  have hframe : IsFrame (zeros.toBytes ++ (zeros.toBytes ++ [])) [0, 0, 0, 0] :=
    .cons standsFor_zeros (.cons standsFor_zeros .nil)
  refine ⟨hframe, (decode_eq_ok_iff_isFrame _ _ _).2 ⟨hframe, by simp⟩, fun h => ?_⟩
  have hle := ((decode_eq_ok_iff_isFrame _ _ _).1 h).2 3 rfl
  exact absurd hle (by decide)

end Frame

end Tans
