import Mathlib.Data.List.Dedup
import Tans.Proofs.Truncation

/-!
# What cannot be framed

A chunk is refused because it is too long, because it has more different bytes than a table has
states, or because its block has too many bits. Nothing else goes wrong: the tables of a chunk are
made from its own histogram, so each of its bytes has a state, and a chunk that is short enough to be
counted makes no counter wrap around.

* `Histogram.length_present_trimmed_ofBytes`: how many different bytes are counted.
* `Segment.exists_ofBytes_iff`, `Segment.ofBytes_eq_error_iff`: one chunk.
* `Frame.encode_outcome`: all chunks of an input.
-/

namespace Tans

/-- No chunk is empty. -/
theorem ne_nil_of_mem_chunks {α : Type} {n : Nat} {xs chunk : List α} (h : chunk ∈ chunks n xs) :
    chunk ≠ [] := by
  fun_induction chunks n xs with
  | case1 => exact absurd h List.not_mem_nil
  | case2 x xs ih =>
    rcases List.mem_cons.1 h with rfl | h
    · exact List.cons_ne_nil _ _
    · exact ih h

namespace Histogram

/-- The ids that occur are as many as there are different bytes. -/
theorem length_present_trimmed_ofBytes {bytes : List UInt8} (hlen : bytes.length < 2 ^ 32) :
    (ofBytes bytes).trimmed.present.length = bytes.dedup.length := by
  have hnodup : (ofBytes bytes).trimmed.present.Nodup := List.nodup_range.filter _
  have hnodup' : (bytes.dedup.map UInt8.toNat).Nodup :=
    (List.nodup_dedup bytes).map fun _ _ => UInt8.toNat_inj.1
  -- Without repetitions, both lists name the bytes that occur.
  have hperm : (ofBytes bytes).trimmed.present.Perm (bytes.dedup.map UInt8.toNat) := by
    refine (List.perm_ext_iff_of_nodup hnodup hnodup').2 fun id => ?_
    rw [mem_present, count_trimmed, count_ofBytes hlen, List.count_pos_iff, List.mem_map,
      List.mem_map]
    simp only [List.mem_dedup]
  rw [hperm.length_eq, List.length_map]

end Histogram

namespace Segment

/-- The block that the bytes of a chunk are encoded as, with tables from their own histogram. -/
def BlockOf (tableLog : Nat) (chunk : List UInt8) (block : Block) : Prop :=
  ∃ t, Tables.ofHistogram (Histogram.ofBytes chunk).trimmed (params tableLog) = .ok t ∧
    t.encodeBlock (chunk.map UInt8.toNat) = .ok block

/-- A chunk can be coded: it is short enough, it has no more different bytes than a table has states,
and its block is short enough. -/
structure Codable (tableLog : Nat) (chunk : List UInt8) : Prop where
  length_le : chunk.length ≤ 2 ^ 32 - 1
  distinct_le : chunk.dedup.length ≤ 2 ^ tableLog
  bitLength_le : ∀ block, BlockOf tableLog chunk block → block.bitLength ≤ 2 ^ 32 - 1

/-- What is reported of a chunk, in the order in which it is tested. -/
inductive Refused (tableLog : Nat) (chunk : List UInt8) : Error → Prop
  | length (h : 2 ^ 32 - 1 < chunk.length) :
    Refused tableLog chunk (.blockTooLarge chunk.length (2 ^ 32 - 1))
  | distribution (hlen : chunk.length ≤ 2 ^ 32 - 1) (h : 2 ^ tableLog < chunk.dedup.length) :
    Refused tableLog chunk
      (.setup (.distribution (.tooManyPresent chunk.dedup.length (2 ^ tableLog))))
  | bitLength {block : Block} (hlen : chunk.length ≤ 2 ^ 32 - 1)
      (hdistinct : chunk.dedup.length ≤ 2 ^ tableLog) (hblock : BlockOf tableLog chunk block)
      (h : 2 ^ 32 - 1 < block.bitLength) :
    Refused tableLog chunk (.blockTooLarge block.bitLength (2 ^ 32 - 1))

variable {tableLog : Nat} {chunk : List UInt8}

/-- A chunk has one block, since tables and encoding leave no choice. -/
theorem BlockOf.unique {block block' : Block} (h : BlockOf tableLog chunk block)
    (h' : BlockOf tableLog chunk block') : block' = block := by
  obtain ⟨t, ht, hblock⟩ := h
  obtain ⟨t', ht', hblock'⟩ := h'
  rw [ht] at ht'
  cases ht'
  rw [hblock] at hblock'
  exact (Except.ok.inj hblock').symm

/-- Bytes make no alphabet that is too large. -/
theorem alphabetSize_trimmed_le_max (chunk : List UInt8) :
    (Histogram.ofBytes chunk).trimmed.alphabetSize ≤ maxAlphabetSize := by
  have hle := (Histogram.ofBytes chunk).alphabetSize_trimmed_le
  rw [Histogram.alphabetSize_ofBytes] at hle
  exact Nat.le_trans hle (by decide)

/-- A chunk that is not empty has a positive total. -/
theorem total_trimmed_pos (hne : chunk ≠ []) (hlen : chunk.length < 2 ^ 32) :
    0 < (Histogram.ofBytes chunk).trimmed.total := by
  rw [Histogram.total_trimmed, Histogram.total_ofBytes hlen]
  exact List.length_pos_of_ne_nil hne

/-- The histogram of a chunk describes a distribution, unless too many of its bytes differ. -/
theorem fits_iff (hne : chunk ≠ []) (hlen : chunk.length < 2 ^ 32) :
    (Histogram.ofBytes chunk).trimmed.Fits tableLog ↔ chunk.dedup.length ≤ 2 ^ tableLog := by
  rw [← Histogram.length_present_trimmed_ofBytes hlen]
  constructor
  · exact Histogram.Fits.present_le
  · intro h
    exact ⟨alphabetSize_trimmed_le_max chunk, total_trimmed_pos hne hlen, h⟩

/-- A chunk whose histogram describes a distribution has a block, since each of its bytes occurs in
it and has a state for that. -/
theorem exists_blockOf (hlog : TableLogInRange tableLog) (hne : chunk ≠ [])
    (hlen : chunk.length < 2 ^ 32) (hdistinct : chunk.dedup.length ≤ 2 ^ tableLog) :
    ∃ block, BlockOf tableLog chunk block := by
  have hvalid : (params tableLog).Valid :=
    (Params.check_eq_ok_iff _).1 (check_params_eq_ok_iff.2 hlog)
  obtain ⟨t, ht⟩ := Tables.exists_ofHistogram hvalid ((fits_iff hne hlen).2 hdistinct)
  obtain ⟨hw, hparams⟩ := Tables.weights_of_ofHistogram ht
  have hencodable : t.Encodable (chunk.map UInt8.toNat) := by
    constructor
    · intro s hs
      rw [Weights.weight_pos_iff_of_ofHistogram hw, Histogram.count_trimmed,
        Histogram.count_ofBytes hlen, List.count_pos_iff]
      exact hs
    · rw [hparams, List.length_map, Params.le_maxBlockLen_iff]
      exact hlen
  obtain ⟨block, hblock⟩ := hencodable.exists_encodeBlock
  exact ⟨block, t, ht, hblock⟩

/-- The length fields of a segment have 32 bits. -/
theorem maxField_eq : maxField = 2 ^ 32 - 1 := rfl

/-- A chunk becomes a segment exactly if it can be coded. -/
theorem exists_ofBytes_iff (hlog : TableLogInRange tableLog) (hne : chunk ≠ []) :
    (∃ s, ofBytes tableLog chunk = .ok s) ↔ Codable tableLog chunk := by
  constructor
  · intro ⟨s, hs⟩
    obtain ⟨hlen, t, block, ht, hblock, hbits, -⟩ := ofBytes_eq_ok_iff.1 hs
    rw [maxField_eq] at hlen hbits
    have hfits := (Tables.ofHistogram_eq_ok_iff.1 ⟨t, ht⟩).2
    refine ⟨hlen, (fits_iff hne (by omega)).1 hfits, fun block' hblock' => ?_⟩
    rwa [BlockOf.unique ⟨t, ht, hblock⟩ hblock']
  · intro ⟨hlen, hdistinct, hbits⟩
    obtain ⟨block, t, ht, hblock⟩ := exists_blockOf hlog hne (by omega) hdistinct
    exact ⟨_, ofBytes_eq_ok_iff.2 ⟨hlen, t, block, ht, hblock, hbits block ⟨t, ht, hblock⟩, rfl⟩⟩

/-- What a chunk is refused for is reported. -/
theorem ofBytes_of_refused {e : Error} (hlog : TableLogInRange tableLog)
    (h : Refused tableLog chunk e) : ofBytes tableLog chunk = .error e := by
  cases h with
  | length h => rw [ofBytes, if_pos (maxField_eq ▸ h), maxField_eq]
  -- The length passes, and of the tests of the tables it is the number of ids that fails.
  | distribution hlen h =>
    have hne : chunk ≠ [] := by
      rintro rfl
      exact Nat.not_lt_zero _ h
    have hlt : chunk.length < 2 ^ 32 := by omega
    have hpresent := Histogram.length_present_trimmed_ofBytes hlt
    have hweights : Weights.ofHistogram (Histogram.ofBytes chunk).trimmed tableLog =
        .error (.distribution (.tooManyPresent chunk.dedup.length (2 ^ tableLog))) := by
      rw [← hpresent, ← Nat.one_shiftLeft] at h ⊢
      exact (Weights.ofHistogram_eq_error_iff (alphabetSize_trimmed_le_max chunk)).2
        (.inr (.inr ⟨hlog, total_trimmed_pos hne hlt, h, rfl⟩))
    rw [ofBytes, if_neg (maxField_eq ▸ Nat.not_lt.2 hlen)]
    refine Except.bind_eq_error_iff.2 (.inl (Except.mapError_eq_error_iff.2 ⟨_, ?_, rfl⟩))
    exact Tables.ofHistogram_eq_error_iff.2 (.inr ⟨check_params_eq_ok_iff.2 hlog, hweights⟩)
  | bitLength hlen hdistinct hblock h =>
    obtain ⟨t, ht, hblock⟩ := hblock
    rw [ofBytes, if_neg (maxField_eq ▸ Nat.not_lt.2 hlen)]
    refine Except.bind_eq_error_iff.2 (.inr ⟨t, Except.mapError_eq_ok_iff.2 ht, ?_⟩)
    refine Except.bind_eq_error_iff.2 (.inr ⟨_, hblock, ?_⟩)
    rw [if_pos (maxField_eq ▸ h)]
    rfl

/-- A chunk that cannot be coded is refused. -/
theorem exists_refused (hlog : TableLogInRange tableLog) (hne : chunk ≠ [])
    (h : ¬ Codable tableLog chunk) : ∃ e, Refused tableLog chunk e := by
  by_cases hlen : chunk.length ≤ 2 ^ 32 - 1
  · by_cases hdistinct : chunk.dedup.length ≤ 2 ^ tableLog
    · obtain ⟨block, hblock⟩ := exists_blockOf hlog hne (by omega) hdistinct
      refine ⟨_, .bitLength hlen hdistinct hblock (Nat.lt_of_not_le fun hle => h ?_)⟩
      exact ⟨hlen, hdistinct, fun block' hblock' => hblock.unique hblock' ▸ hle⟩
    · exact ⟨_, .distribution hlen (Nat.lt_of_not_le hdistinct)⟩
  · exact ⟨_, .length (Nat.lt_of_not_le hlen)⟩

/-- What is reported of a chunk is what it is refused for. -/
theorem ofBytes_eq_error_iff {e : Error} (hlog : TableLogInRange tableLog) (hne : chunk ≠ []) :
    ofBytes tableLog chunk = .error e ↔ Refused tableLog chunk e := by
  constructor
  · intro h
    have hnot : ¬ Codable tableLog chunk := fun hcodable => by
      obtain ⟨s, hs⟩ := (exists_ofBytes_iff hlog hne).2 hcodable
      exact nomatch h.symm.trans hs
    -- It is refused for some reason, and whatever that is, it is the one reported.
    obtain ⟨e', he'⟩ := exists_refused hlog hne hnot
    rw [ofBytes_of_refused hlog he'] at h
    exact Except.error.inj h ▸ he'
  · exact ofBytes_of_refused hlog

end Segment

namespace Frame

variable {input : List UInt8} {options : FrameOptions}

/-- The logarithm of the table size is tested before any chunk. -/
theorem encode_of_not_inRange (hlog : ¬ TableLogInRange options.tableLog) :
    encode input options = .error (.setup (.tableLog options.tableLog maxTableLog)) :=
  Except.bind_eq_error_iff.2 (.inl (Except.mapError_eq_error_iff.2
    ⟨_, Params.check_of_tableLog hlog, rfl⟩))

/-- An input is framed when all of its chunks can be coded. -/
theorem exists_encode_iff :
    (∃ frame, encode input options = .ok frame) ↔
      TableLogInRange options.tableLog ∧
        ∀ chunk ∈ options.split input, Segment.Codable options.tableLog chunk := by
  have hiff : (∃ frame, encode input options = .ok frame) ↔
      TableLogInRange options.tableLog ∧
        ∃ segments, (options.split input).mapM (Segment.ofBytes options.tableLog) = .ok segments := by
    simp only [encode_eq_ok_iff]
    exact ⟨fun ⟨_, hlog, segments, hsegments, _⟩ => ⟨hlog, segments, hsegments⟩,
      fun ⟨hlog, segments, hsegments⟩ => ⟨_, hlog, segments, hsegments, rfl⟩⟩
  rw [hiff, Except.exists_mapM_eq_ok_iff]
  refine and_congr_right fun hlog => forall₂_congr fun chunk hchunk => ?_
  exact Segment.exists_ofBytes_iff hlog (ne_nil_of_mem_chunks hchunk)

/-- The first chunk that is refused is reported. -/
theorem encode_eq_error_iff {e : Error} (hlog : TableLogInRange options.tableLog) :
    encode input options = .error e ↔
      ∃ front chunk back, options.split input = front ++ chunk :: back ∧
        (∀ c ∈ front, Segment.Codable options.tableLog c) ∧
        Segment.Refused options.tableLog chunk e := by
  have hiff : encode input options = .error e ↔
      (options.split input).mapM (Segment.ofBytes options.tableLog) = .error e := by
    have hcheck := Except.mapError_eq_ok_iff (f := Error.setup).2
      (Segment.check_params_eq_ok_iff.2 hlog)
    constructor
    · intro h
      rcases Except.bind_eq_error_iff.1 h with h | ⟨_, -, h⟩
      · exact nomatch hcheck.symm.trans h
      rcases Except.bind_eq_error_iff.1 h with h | ⟨segments, -, h⟩
      · exact h
      · cases h
    · intro h
      exact Except.bind_eq_error_iff.2 (.inr ⟨(), hcheck, Except.bind_eq_error_iff.2 (.inl h)⟩)
  rw [hiff, Except.mapM_eq_error_iff]
  refine exists_congr fun front => exists_congr fun chunk => exists_congr fun back =>
    and_congr_right fun hsplit => ?_
  -- No chunk is empty, so none is refused for having no bytes at all.
  have hne : ∀ c ∈ options.split input, c ≠ [] := fun c hc => ne_nil_of_mem_chunks hc
  rw [hsplit, List.forall_mem_append, List.forall_mem_cons] at hne
  rw [Segment.ofBytes_eq_error_iff hlog hne.2.1]
  refine and_congr_left fun _ => forall₂_congr fun c hc => ?_
  exact Segment.exists_ofBytes_iff hlog (hne.1 c hc)

/-- Framing fails for a few reasons and no others. It succeeds exactly if the logarithm of the table
size is in range and each chunk can be coded. Otherwise the logarithm is reported, or the first chunk
that is refused: for its length, for the number of its different bytes, or for the length of its
block, in this order. No byte is without a state, no state is out of range and no placement fails,
and where a chunk is short enough to be counted, no counter wraps around. -/
theorem encode_outcome (input : List UInt8) (options : FrameOptions) :
    ((∃ frame, encode input options = .ok frame) ↔
      (1 ≤ options.tableLog ∧ options.tableLog ≤ 15) ∧
        ∀ chunk ∈ options.split input, Segment.Codable options.tableLog chunk) ∧
    (¬ (1 ≤ options.tableLog ∧ options.tableLog ≤ 15) →
      encode input options = .error (.setup (.tableLog options.tableLog 15))) ∧
    (1 ≤ options.tableLog ∧ options.tableLog ≤ 15 → ∀ e, encode input options = .error e ↔
      ∃ front chunk back, options.split input = front ++ chunk :: back ∧
        (∀ c ∈ front, Segment.Codable options.tableLog c) ∧
        Segment.Refused options.tableLog chunk e) ∧
    (∀ e, encode input options = .error e →
      (∀ symbol size, e ≠ .alphabetMismatch symbol size) ∧
        (∀ state min max, e ≠ .stateOutOfRange state min max) ∧
        ∀ fault, e ≠ .setup (.placement fault)) ∧
    (∀ chunk ∈ options.split input, chunk.length ≤ 2 ^ 32 - 1 →
      ∀ front b back, chunk = front ++ b :: back →
        (Histogram.ofBytes front).count b.toNat + 1 < 2 ^ 32) := by
  refine ⟨exists_encode_iff, encode_of_not_inRange, fun hlog e => encode_eq_error_iff hlog,
    fun e he => ?_, fun chunk _ hlen front b back hchunk => ?_⟩
  -- Of the reasons for which a chunk is refused, none is one of these.
  · by_cases hlog : TableLogInRange options.tableLog
    · obtain ⟨front, chunk, back, -, -, hrefused⟩ := (encode_eq_error_iff hlog).1 he
      cases hrefused <;> simp
    · rw [encode_of_not_inRange hlog] at he
      cases he
      simp
  · -- A counter is not larger than the number of bytes that were counted.
    rw [hchunk, List.length_append, List.length_cons] at hlen
    have hle := List.count_le_length (a := b.toNat) (l := front.map UInt8.toNat)
    rw [List.length_map] at hle
    rw [Histogram.count_ofBytes (by omega)]
    omega

/-- Three zeros and three other bytes, with two states. -/
theorem encode_outcome_two_states :
    (∃ frame, encode [0, 0, 0] ⟨3, 1⟩ = .ok frame) ∧
    encode [0, 0, 0] ⟨3, 16⟩ = .error (.setup (.tableLog 16 15)) ∧
    encode [0, 0, 0, 1, 2, 3] ⟨3, 1⟩ = .error (.setup (.distribution (.tooManyPresent 3 2))) ∧
    (Histogram.ofBytes [0, 0]).count 0 + 1 < 2 ^ 32 := by
  have hsplit : FrameOptions.split ⟨3, 1⟩ [0, 0, 0] = [[0, 0, 0]] := by decide +kernel
  have hsplit' : FrameOptions.split ⟨3, 1⟩ [0, 0, 0, 1, 2, 3] = [[0, 0, 0], [1, 2, 3]] := by
    decide +kernel
  have hzeros : Segment.ofBytes 1 [0, 0, 0] = .ok ⟨3, 33, 1, ⟨#[3]⟩, [0, 0, 0, 3, 0]⟩ := by
    rw [Segment.ofBytes, Histogram.trimmed_eq]
    decide +kernel
  have hcodable : Segment.Codable 1 [0, 0, 0] :=
    (Segment.exists_ofBytes_iff (by decide) (by simp)).1 ⟨_, hzeros⟩
  have hrefused : Segment.Refused 1 [1, 2, 3] (.setup (.distribution (.tooManyPresent 3 2))) :=
    .distribution (by decide) (by decide)
  obtain ⟨hok, -, -, -, hcount⟩ := encode_outcome [0, 0, 0] ⟨3, 1⟩
  refine ⟨hok.2 ⟨by decide, by simpa [hsplit] using hcodable⟩,
    (encode_outcome [0, 0, 0] ⟨3, 16⟩).2.1 (by decide),
    ((encode_outcome _ ⟨3, 1⟩).2.2.1 (by decide) _).2
      ⟨[[0, 0, 0]], [1, 2, 3], [], hsplit', by simpa using hcodable, hrefused⟩,
    hcount [0, 0, 0] (by simp [hsplit]) (by decide) [0, 0] 0 [] rfl⟩

end Frame

end Tans
