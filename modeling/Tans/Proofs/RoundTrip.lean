import Tans.Proofs.Alphabet
import Tans.Proofs.Stream
import Tans.Proofs.Words

/-!
# Coding symbols of any type

Symbols are turned into ids, encoded with tables of their counts, decoded, and turned back. An id
that occurs keeps a state through normalization, however rare it is, so each symbol that came with
a positive count can be coded. Then all of these steps succeed and the symbols come back.

* `Alphabet.Counted.RoundTrips`: all steps from symbols to symbols succeed.
* `Alphabet.roundTrip_ofCounts`: they do for all symbols that were counted.
-/

namespace Tans

namespace Histogram

/-- The ids that occur belong to the alphabet. -/
theorem length_present_le (h : Histogram) : h.present.length ≤ h.alphabetSize := by
  have hle := List.length_filter_le (fun id => decide (0 < h.count id)) (List.range h.alphabetSize)
  rwa [List.length_range] at hle

/-- A histogram describes a distribution if some of its ids occur, and not more than there are
states. -/
theorem fits_of_present {h : Histogram} {tableLog : Nat} (hsize : h.alphabetSize ≤ maxAlphabetSize)
    (hpos : 0 < h.present.length) (hle : h.present.length ≤ 2 ^ tableLog) : h.Fits tableLog := by
  refine ⟨hsize, ?_, hle⟩
  obtain ⟨id, hid⟩ := List.exists_mem_of_length_pos hpos
  have hcount : 0 < h.count id := by simpa using (List.mem_filter.1 hid).2
  exact Nat.lt_of_lt_of_le hcount (h.count_le_total id)

/-- If an id has a count, there is an id that occurs. -/
theorem length_present_pos {h : Histogram} {id : Nat} (hid : 0 < h.count id) :
    0 < h.present.length := by
  apply List.length_pos_of_mem (a := id)
  exact List.mem_filter.2 ⟨List.mem_range.2 (lt_alphabetSize hid), by simpa using hid⟩

end Histogram

namespace Alphabet

variable {σ : Type} [BEq σ] [Hashable σ]

namespace Counted

/-- Tables can be built for counted symbols, and all steps from symbols to ids, a block, ids again and
symbols succeed and give the symbols back. -/
def RoundTrips (c : Counted σ) (params : Params) (data : List σ) : Prop :=
  ∃ t ids block d, Tables.ofHistogram c.histogram params = .ok t ∧
    c.alphabet.idsOf data = .ok ids ∧ t.encodeBlock (ids.map UInt16.toNat) = .ok block ∧
    t.decodeBlock block.bits = .ok d ∧ c.alphabet.symbolsOf d.symbols.toList = .ok data

variable {c : Counted σ} {params : Params} {data : List σ}

/-- Symbols whose ids occur come back from coding, if their number fits the length field. -/
theorem roundTrips_of_fits (hvalid : params.Valid) (hfits : c.histogram.Fits params.tableLog)
    (hdata : ∀ s ∈ data, ∃ id, c.alphabet.id? s = some id ∧ 0 < c.histogram.count id.toNat)
    (hlen : data.length ≤ params.maxBlockLen) : c.RoundTrips params data := by
  obtain ⟨t, ht⟩ := Tables.exists_ofHistogram hvalid hfits
  obtain ⟨hweights, hparams⟩ := Tables.weights_of_ofHistogram ht
  obtain ⟨ids, hids⟩ := exists_idsOf fun s hs => (hdata s hs).imp fun _ => And.left
  have hlookup := idsFrom_eq_ok_iff.1 hids
  -- An id that occurs has a state, so the ids can be encoded.
  have hencodable : t.Encodable (ids.map UInt16.toNat) := by
    refine ⟨?_, by rwa [List.length_map, hparams, ← hlookup.length_eq]⟩
    rw [List.forall_mem_map]
    intro id hid
    obtain ⟨s, hs, hsid⟩ := exists_mem_of_idsOf hids id hid
    obtain ⟨id', hid', hcount⟩ := hdata s hs
    obtain rfl : id = id' := Option.some.inj (hsid.symm.trans hid')
    exact (Weights.weight_pos_iff_of_ofHistogram hweights _).2 hcount
  obtain ⟨block, hblock⟩ := hencodable.exists_encodeBlock
  -- The block is decoded from the front, with nothing around it.
  obtain ⟨d, hd, hsymbols, -⟩ := Tables.decodeBlockAt_of_encodeBlock hblock [] []
  rw [List.nil_append, List.append_nil] at hd
  have hsymbols : d.symbols.toList = ids :=
    List.map_injective_iff.2 (fun _ _ => UInt16.toNat_inj.1) hsymbols
  exact ⟨t, ids, block, d, ht, hids, hblock, hd, symbolsOf_eq_ok_iff.2 (hsymbols ▸ hids)⟩

/-- A histogram of counted symbols has no more ids than sixteen bits can tell apart. -/
theorem Records.alphabetSize_le {pairs : List (σ × UInt32)} (h : c.Records pairs) :
    c.histogram.alphabetSize ≤ maxAlphabetSize :=
  h.alphabetSize_eq ▸ c.alphabet.size_le

/-- A histogram has an id for each symbol that came with a count. -/
theorem Records.alphabetSize_eq_length {pairs : List (σ × UInt32)} (h : c.Records pairs) :
    c.histogram.alphabetSize = (pairs.map Prod.fst).eraseDups.length := by
  rw [h.alphabetSize_eq, h.size_eq]

end Counted

variable [LawfulBEq σ]

/-- Symbols that each came with a positive count come back from coding, if there are enough states
for the ids that occur and their number fits the length field. -/
theorem roundTrips_of_ofCounts {pairs : List (σ × UInt32)} {c : Counted σ} {params : Params}
    {data : List σ} (hc : ofCounts pairs = .ok c) (hvalid : params.Valid)
    (hpos : 0 < c.histogram.present.length)
    (hle : c.histogram.present.length ≤ 2 ^ params.tableLog)
    (hlen : data.length ≤ params.maxBlockLen)
    (hdata : ∀ s ∈ data, ∃ n, (s, n) ∈ pairs ∧ 0 < n) : c.RoundTrips params data := by
  have hrecords := records_of_ofCounts hc
  apply Counted.roundTrips_of_fits hvalid
    (Histogram.fits_of_present hrecords.alphabetSize_le hpos hle) _ hlen
  intro s hs
  obtain ⟨n, hmem, hn⟩ := hdata s hs
  exact hrecords.exists_count_pos hmem hn

/-- Symbols come back from coding with an alphabet and counts of their own. -/
theorem roundTrips_of_ofSymbols {params : Params} {data : List σ} (hvalid : params.Valid)
    (hne : data ≠ []) (hle : data.eraseDups.length ≤ 2 ^ params.tableLog)
    (hlen : data.length ≤ params.maxBlockLen) :
    ∃ c, ofSymbols data = .ok c ∧ c.RoundTrips params data := by
  -- Each symbol of the sequence is a pair of its own, with a count of one.
  have hfst : (data.map fun s => (s, (1 : UInt32))).map Prod.fst = data := by
    rw [List.map_map]
    exact List.map_id data
  have hdata : ∀ s ∈ data, ∃ n, (s, n) ∈ data.map (fun s => (s, (1 : UInt32))) ∧ 0 < n :=
    fun s hs => ⟨1, List.mem_map_of_mem hs, by decide⟩
  have hroom : ((data.map fun s => (s, (1 : UInt32))).map Prod.fst).eraseDups.length ≤
      maxAlphabetSize := by
    rw [hfst]
    exact Nat.le_trans hle (Nat.le_trans hvalid.1.two_pow_le (by decide))
  obtain ⟨c, hc⟩ := exists_ofCounts hroom
  have hrecords := records_of_ofCounts hc
  -- No more ids occur than there are different symbols, and that of the first symbol does.
  have hpresent := c.histogram.length_present_le
  rw [hrecords.alphabetSize_eq_length, hfst] at hpresent
  obtain ⟨s, hs⟩ := List.exists_mem_of_ne_nil data hne
  obtain ⟨n, hmem, hn⟩ := hdata s hs
  obtain ⟨id, -, hcount⟩ := hrecords.exists_count_pos hmem hn
  exact ⟨c, hc, roundTrips_of_ofCounts hc hvalid (Histogram.length_present_pos hcount)
    (Nat.le_trans hpresent hle) hlen hdata⟩

/-- Symbols of any type survive the way through ids, tables, an encoder and a decoder. Whatever
pairs of symbols and counts gave the alphabet and its histogram, the parameters need states for the
ids that occur and a length field for the number of symbols, and each symbol needs a pair with a
positive count. A sequence that is counted itself needs nothing else. -/
theorem roundTrip_ofCounts (σ : Type) [BEq σ] [Hashable σ] [LawfulBEq σ] :
    (∀ (pairs : List (σ × UInt32)) (c : Counted σ) (params : Params) (data : List σ),
      ofCounts pairs = .ok c →
      1 ≤ params.tableLog ∧ params.tableLog ≤ 15 → 1 ≤ params.lengthBits ∧ params.lengthBits ≤ 32 →
      0 < c.histogram.present.length → c.histogram.present.length ≤ 2 ^ params.tableLog →
      data.length ≤ 2 ^ params.lengthBits - 1 →
      (∀ s ∈ data, ∃ n, (s, n) ∈ pairs ∧ 0 < n) →
      ∃ t ids block d, Tables.ofHistogram c.histogram params = .ok t ∧
        c.alphabet.idsOf data = .ok ids ∧ t.encodeBlock (ids.map UInt16.toNat) = .ok block ∧
        t.decodeBlock block.bits = .ok d ∧ c.alphabet.symbolsOf d.symbols.toList = .ok data) ∧
    (∀ (params : Params) (data : List σ),
      1 ≤ params.tableLog ∧ params.tableLog ≤ 15 → 1 ≤ params.lengthBits ∧ params.lengthBits ≤ 32 →
      data ≠ [] → data.eraseDups.length ≤ 2 ^ params.tableLog →
      data.length ≤ 2 ^ params.lengthBits - 1 →
      ∃ c, ofSymbols data = .ok c ∧
        ∃ t ids block d, Tables.ofHistogram c.histogram params = .ok t ∧
          c.alphabet.idsOf data = .ok ids ∧ t.encodeBlock (ids.map UInt16.toNat) = .ok block ∧
          t.decodeBlock block.bits = .ok d ∧ c.alphabet.symbolsOf d.symbols.toList = .ok data) := by
  have hmax (params : Params) : 2 ^ params.lengthBits - 1 = params.maxBlockLen := by
    rw [Params.maxBlockLen, Nat.one_shiftLeft]
  constructor
  · intro pairs c params data hc hlog hbits hpos hle hlen hdata
    exact roundTrips_of_ofCounts hc ⟨hlog, hbits⟩ hpos hle (hmax params ▸ hlen) hdata
  · intro params data hlog hbits hne hle hlen
    exact roundTrips_of_ofSymbols ⟨hlog, hbits⟩ hne hle (hmax params ▸ hlen)

/-- A symbol whose count is full, one that comes without any, and a rare one. -/
theorem roundTrip_ofCounts_rare :
    (∃ c, ofCounts [("A", 0xFFFFFFFF), ("B", 0), ("A", 5), ("C", 2)] = .ok c ∧
      0 < c.histogram.present.length ∧ c.histogram.present.length ≤ 2 ^ 2 ∧
      c.RoundTrips ⟨2, 3⟩ ["C", "A", "A"]) ∧
    (∃ c, ofSymbols ["x", "y", "x", "z"] = .ok c ∧
      c.RoundTrips ⟨2, 3⟩ ["x", "y", "x", "z"]) := by
  obtain ⟨hcounts, hsymbols⟩ := roundTrip_ofCounts String
  obtain ⟨c, hc⟩ : ∃ c, ofCounts [("A", 0xFFFFFFFF), ("B", 0), ("A", 5), ("C", 2)] = .ok c :=
    exists_ofCounts (by decide +kernel)
  have hrecords := records_of_ofCounts hc
  have hle := c.histogram.length_present_le
  rw [hrecords.alphabetSize_eq_length] at hle
  have hle : c.histogram.present.length ≤ 2 ^ 2 := Nat.le_trans hle (by decide +kernel)
  obtain ⟨id, -, hcount⟩ := hrecords.exists_count_pos (s := "C") (n := 2) (by simp) (by decide)
  have hpos := Histogram.length_present_pos hcount
  refine ⟨⟨c, hc, hpos, hle, ?_⟩, ?_⟩
  · refine hcounts _ c ⟨2, 3⟩ _ hc (by decide) (by decide) hpos hle (by decide) fun s hs => ?_
    rcases (by simpa using hs : s = "C" ∨ s = "A") with rfl | rfl
    · exact ⟨2, by simp, by decide⟩
    · exact ⟨5, by simp, by decide⟩
  · exact hsymbols ⟨2, 3⟩ _ (by decide) (by decide) (by simp) (by decide +kernel) (by decide)

end Alphabet

end Tans
