import Tans.Proofs.Grammar
import Tans.Proofs.Words

/-!
# Decoding arbitrary bytes

The bytes of a frame need not come from an encoder, and all that a header says may be a lie.
Decoding still ends, because each round passes the eleven bytes of a header at least. It never holds
more bytes than the limit allows, never cuts an id down to a byte, and never takes a number out of
its word. All it reports is that the bytes are corrupt or that the limit is reached.

* `Frame.Reaches.progress`, `Frame.Reaches.le_limit`: what holds after any number of rounds.
* `Segment.buildsInWords`: tables are built from a header without overflow.
* `Frame.decode_safe`: what decoding can and cannot do.
-/

namespace Tans

namespace Segment

variable {limit : Option Nat} {produced : Nat} {c c' : Cursor UInt8} {s : Segment}

/-! ### What is reported -/

/-- Decoding under a limit reports corrupt bytes, or that this limit is reached. -/
def Reportable (limit : Option Nat) (e : Error) : Prop :=
  e.IsCorrupt ∨ ∃ l ∈ limit, e = .outputLimitExceeded l

/-- Missing bytes are corrupt bytes. -/
theorem raises_takeBytes (n : Nat) (c : Cursor UInt8) :
    c.Raises (Reportable limit) (takeBytes n) :=
  fun _ _ h => .inl ⟨_, (Cursor.take_eq_error_iff.1 h).2.1⟩

/-- A number is not read where bytes are missing. -/
theorem raises_readNat (size : Nat) (c : Cursor UInt8) :
    c.Raises (Reportable limit) (readNat size) :=
  (raises_takeBytes size c).map _

/-- Counts are not read where bytes are missing. -/
theorem raises_readCounts (n : Nat) (counts : Array UInt32) (c : Cursor UInt8) :
    c.Raises (Reportable limit) (readCounts n counts) := by
  induction n generalizing counts c with
  | zero => exact Cursor.raises_pure _
  | succ n ih => exact (raises_readNat 4 c).bind fun count c₁ _ => ih _ c₁

/-- The check of the limit reports that it is reached. -/
theorem raises_reserve (limit : Option Nat) (produced length : Nat) (c : Cursor UInt8) :
    c.Raises (Reportable limit) (reserve limit produced length) := by
  unfold reserve
  split
  · exact Cursor.raises_pure _
  split
  · exact Cursor.raises_throw (.inr ⟨_, rfl, rfl⟩)
  · exact Cursor.raises_pure _

/-- A segment is not read where bytes are missing, the limit is reached or the alphabet is too
large. -/
theorem raises_read (limit : Option Nat) (produced : Nat) (c : Cursor UInt8) :
    c.Raises (Reportable limit) (read limit produced) := by
  refine (raises_readNat 4 c).bind fun length c₁ _ => ?_
  refine (raises_reserve limit produced length c₁).bind fun _ c₂ _ => ?_
  refine (raises_readNat 4 c₂).bind fun bitCount c₃ _ => ?_
  refine (raises_readNat 1 c₃).bind fun tableLog c₄ _ => ?_
  refine (raises_readNat 2 c₄).bind fun alphabetSize c₅ _ => ?_
  -- An alphabet of more than 256 ids is corrupt, whatever follows it.
  split
  · exact Cursor.raises_throw (.inl ⟨_, rfl⟩)
  refine (raises_readCounts alphabetSize #[] c₅).bind fun counts c₆ _ => ?_
  exact (raises_takeBytes _ c₆).bind fun payload c₇ _ => Cursor.raises_pure _

/-- What a segment alone is blamed for is a fault, and never that bytes are missing. -/
theorem exists_fault_of_decode {e : Error} (h : s.decode = .error e) :
    ∃ fault, e = .corrupt fault ∧ ∀ needed position, fault ≠ .truncated needed position := by
  unfold decode at h
  -- Decoding a segment makes a test, builds tables, decodes a block and makes a test again.
  split at h
  · cases h
    exact ⟨_, rfl, fun _ _ h => nomatch h⟩
  rcases Except.bind_eq_error_iff.1 h with h | ⟨t, -, h⟩
  · obtain ⟨cause, -, rfl⟩ := Except.mapError_eq_error_iff.1 h
    exact ⟨_, rfl, fun _ _ h => nomatch h⟩
  rcases Except.bind_eq_error_iff.1 h with h | ⟨d, -, h⟩
  -- None of the faults of a block is about missing bytes.
  · cases Tables.isBlockFault_of_decodeBlockAt h <;> exact ⟨_, rfl, fun _ _ h => nomatch h⟩
  split at h
  · cases h
    exact ⟨_, rfl, fun _ _ h => nomatch h⟩
  · exact nomatch h

/-- What is wrong with a segment alone is that it is corrupt. -/
theorem isCorrupt_of_decode {e : Error} (h : s.decode = .error e) : e.IsCorrupt := by
  obtain ⟨fault, rfl, -⟩ := exists_fault_of_decode h
  exact ⟨fault, rfl⟩

/-! ### What a header leads to -/

/-- Four bytes are stored for each count. -/
theorem length_countBytes (counts : List UInt32) :
    (countBytes counts).length = 4 * counts.length := by
  induction counts with
  | nil => rfl
  | cons count counts ih =>
    simp only [countBytes, List.flatMap_cons, List.length_append, LittleEndian.length_ofNat,
      List.length_cons] at ih ⊢
    omega

/-- The stored form of a segment has eleven bytes, four for each count, and the payload. -/
theorem length_toBytes (s : Segment) :
    s.toBytes.length = 11 + 4 * s.histogram.alphabetSize + s.payload.length := by
  have hcounts := length_countBytes s.histogram.counts.toList
  rw [countBytes] at hcounts
  simp only [toBytes, headerBytes, List.length_append, LittleEndian.length_ofNat, hcounts,
    Array.length_toList, Histogram.alphabetSize]

/-- Building the tables of a segment takes no number out of its word, whatever its header says. -/
structure BuildsInWords (s : Segment) : Prop where
  total_lt : s.histogram.total < 2 ^ 64
  normalized : TableLogInRange s.tableLog → 0 < s.histogram.total →
    s.histogram.NormalizedInWords s.tableLog
  built : ∀ t, Tables.ofHistogram s.histogram (params s.tableLog) = .ok t → t.BuiltInWords

/-- An alphabet of bytes is small enough for all words. -/
theorem buildsInWords (hsize : s.histogram.alphabetSize ≤ 256) : s.BuildsInWords := by
  have hsize : s.histogram.alphabetSize ≤ maxAlphabetSize := Nat.le_trans hsize (by decide)
  have htotal := Histogram.total_lt hsize
  exact ⟨by omega, fun hlog hpos => Histogram.normalizedInWords hlog hsize hpos,
    fun t _ => t.builtInWords⟩

end Segment

namespace Frame

variable {limit : Option Nat} {data : List UInt8} {rounds produced : Nat} {c c' : Cursor UInt8}

/-! ### Rounds -/

/-- One round of decoding: a segment is read at the cursor and decoded, and the cursor is left
behind it. -/
structure Round (limit : Option Nat) (produced : Nat) (c : Cursor UInt8) (s : Segment)
    (bytes : List UInt8) (c' : Cursor UInt8) : Prop where
  rest_ne_nil : c.rest ≠ []
  read_eq : Segment.read limit produced c = .ok s c'
  decode_eq : s.decode = .ok bytes

/-- Decoding goes on behind a round, with more bytes produced. -/
theorem Round.decodeFrom_eq {s : Segment} {bytes : List UInt8}
    (h : Round limit produced c s bytes c') :
    decodeFrom limit produced c =
      (decodeFrom limit (produced + bytes.length) c').map (bytes ++ ·) := by
  obtain ⟨hne, hread, hdecode⟩ := h
  rw [decodeFrom, if_neg (fun hnil => hne (List.isEmpty_iff.1 hnil))]
  -- Reading the segment cannot fail here, and it gives the segment of the round.
  split
  · next e c₁ he => simp [hread] at he
  · next s₁ c₁ hs =>
    rw [hread] at hs
    cases hs
    rw [hdecode]
    rfl

/-- Decoding fails where a segment cannot be read or decoded, or in what follows it. -/
theorem decodeFrom_eq_error {e : Error} (h : decodeFrom limit produced c = .error e) :
    (∃ c', Segment.read limit produced c = .error e c') ∨
      ∃ s c', Segment.read limit produced c = .ok s c' ∧ (s.decode = .error e ∨
        ∃ bytes, s.decode = .ok bytes ∧
          decodeFrom limit (produced + bytes.length) c' = .error e) := by
  rw [decodeFrom] at h
  split at h
  · cases h
  split at h
  · next e₁ c₁ he =>
    cases h
    exact .inl ⟨c₁, he⟩
  · next s c₁ hs =>
    refine .inr ⟨s, c₁, hs, ?_⟩
    rcases Except.bind_eq_error_iff.1 h with h | ⟨bytes, hbytes, h⟩
    · exact .inl h
    rcases Except.bind_eq_error_iff.1 h with h | ⟨rest, -, h⟩
    · exact .inr ⟨bytes, hbytes, h⟩
    · cases h

/-- Decoding reports what a segment is blamed for, or that the limit is reached. -/
theorem reportable_of_decodeFrom {e : Error} (h : decodeFrom limit produced c = .error e) :
    Segment.Reportable limit e := by
  -- By induction on what is left to read, which is what decoding recurs on.
  obtain ⟨n, hn⟩ : ∃ n, c.rest.length = n := ⟨_, rfl⟩
  induction n using Nat.strongRecOn generalizing c produced with
  | ind n ih =>
    rcases decodeFrom_eq_error h with ⟨c', hread⟩ | ⟨s, c', hread, hdecode | ⟨bytes, -, h⟩⟩
    · exact Segment.raises_read limit produced c e c' hread
    · exact .inl (Segment.isCorrupt_of_decode hdecode)
    · exact ih _ (hn ▸ Segment.rest_length_lt_of_read hread) h rfl

/-- After a number of rounds that decoding takes from the start of some bytes, the cursor is at `c`
and `produced` bytes were decoded. -/
inductive Reaches (limit : Option Nat) (data : List UInt8) :
    (rounds produced : Nat) → (c : Cursor UInt8) → Prop
  | start : Reaches limit data 0 0 (Cursor.ofList data 0)
  | round {rounds produced : Nat} {c c' : Cursor UInt8} {s : Segment} {bytes : List UInt8}
      (h : Reaches limit data rounds produced c) (hround : Round limit produced c s bytes c') :
      Reaches limit data (rounds + 1) (produced + bytes.length) c'

/-- What is decoded from the start is what was produced so far, and what is decoded on from
there. -/
theorem Reaches.decode_eq (h : Reaches limit data rounds produced c) :
    ∃ front, front.length = produced ∧
      decode data limit = (decodeFrom limit produced c).map (front ++ ·) := by
  induction h with
  | start =>
    refine ⟨[], rfl, ?_⟩
    rw [decode]
    -- Nothing is put in front of what is decoded.
    cases decodeFrom limit 0 (Cursor.ofList data 0) <;> simp [Except.map]
  | @round rounds produced c c' s bytes _ hround ih =>
    obtain ⟨front, rfl, hdecode⟩ := ih
    refine ⟨front ++ bytes, List.length_append, ?_⟩
    rw [hdecode, hround.decodeFrom_eq]
    -- What this round produced follows what was there before.
    cases decodeFrom limit (front.length + bytes.length) c' <;> simp [Except.map]

/-- Reading a segment passes its header at least, and stays inside of the bytes. -/
theorem pos_of_read {s : Segment} (h : Segment.read limit produced c = .ok s c') :
    c.pos + 11 ≤ c'.pos ∧ c'.pos + c'.rest.length = c.pos + c.rest.length := by
  obtain ⟨-, -, hrest, hpos⟩ := Segment.read_eq_ok_iff.1 h
  have hlen := s.length_toBytes
  rw [hrest, List.length_append]
  omega

/-- Each round costs eleven bytes, and the cursor stays inside of the bytes. -/
theorem Reaches.progress (h : Reaches limit data rounds produced c) :
    11 * rounds ≤ c.pos ∧ c.pos + c.rest.length = data.length := by
  induction h with
  | start => simp [Cursor.ofList]
  | round _ hround ih =>
    obtain ⟨hpos, hlen⟩ := pos_of_read hround.read_eq
    omega

/-- No more bytes are produced than the limit allows. -/
theorem Reaches.le_limit (h : Reaches limit data rounds produced c) :
    ∀ l ∈ limit, produced ≤ l := by
  induction h with
  | start => exact fun l _ => Nat.zero_le l
  | round _ hround ih =>
    intro l hl
    obtain ⟨hs, hallows, -⟩ := Segment.read_eq_ok_iff.1 hround.read_eq
    -- The length was held against what the limit leaves, and as many bytes were decoded.
    obtain ⟨-, hlength, -⟩ := (Segment.decode_eq_ok_iff hs.alphabetSize_le).1 hround.decode_eq
    have hroom := hallows l hl
    have hle := ih l hl
    omega

/-- Decoding is safe on any bytes. After any number of rounds the cursor is inside of the bytes and
has passed eleven of them for each round, the limit leaves a natural number of bytes, and decoding
on gives what decoding from the start does. Whatever segment is read then, its tables are built
without overflow and decode only ids that are bytes. Decoding reports corrupt bytes, or that the
limit is reached, and nothing else. -/
theorem decode_safe (data : List UInt8) (limit : Option Nat) :
    (∀ rounds produced c, Reaches limit data rounds produced c →
      (11 * rounds ≤ c.pos ∧ c.pos + c.rest.length = data.length) ∧ (∀ l ∈ limit, produced ≤ l) ∧
      (∃ front, front.length = produced ∧
        decode data limit = (decodeFrom limit produced c).map (front ++ ·)) ∧
      ∀ s c', Segment.read limit produced c = .ok s c' →
        c.pos + 11 ≤ c'.pos ∧ s.BuildsInWords ∧
        ∀ t d, Tables.ofHistogram s.histogram { tableLog := s.tableLog, lengthBits := 32 } = .ok t →
          t.decodeBlock ((Bits.ofBytes s.payload).take s.bitCount) = .ok d →
          ∀ id ∈ d.symbols, id.toNat < 256) ∧
    (∀ e, decode data limit = .error e →
      (∃ fault, e = .corrupt fault) ∨ ∃ l ∈ limit, e = .outputLimitExceeded l) := by
  refine ⟨fun rounds produced c h => ⟨h.progress, h.le_limit, h.decode_eq, fun s c' hread => ?_⟩,
    fun e h => reportable_of_decodeFrom h⟩
  have hsize := (Segment.read_eq_ok_iff.1 hread).1.alphabetSize_le
  exact ⟨(pos_of_read hread).1, Segment.buildsInWords hsize,
    fun t d ht hd => Segment.toNat_lt_of_decodeBlockAt hsize ht hd⟩

/-- A segment with a stray byte behind it, under a limit. -/
theorem decode_safe_zeros :
    (Reaches (some 3) (zeros.toBytes ++ [1]) 1 2 ⟨[1], 20⟩ ∧ 11 * 1 ≤ 20 ∧ 2 ≤ 3) ∧
    (Segment.read (some 3) 0 (Cursor.ofList (zeros.toBytes ++ [1]) 0) = .ok zeros ⟨[1], 20⟩ ∧
      zeros.BuildsInWords ∧ ∃ t d,
        Tables.ofHistogram zeros.histogram { tableLog := 1, lengthBits := 32 } = .ok t ∧
        t.decodeBlock ((Bits.ofBytes zeros.payload).take 33) = .ok d ∧
        ∀ id ∈ d.symbols, id.toNat < 256) ∧
    decode (zeros.toBytes ++ [1]) (some 3) = .error (.corrupt (.truncated 4 20)) ∧
    ((∃ fault, Error.corrupt (.truncated 4 20) = .corrupt fault) ∨
      ∃ l ∈ some 3, Error.corrupt (.truncated 4 20) = .outputLimitExceeded l) := by
  obtain ⟨hreaches, herror⟩ := decode_safe (zeros.toBytes ++ [1]) (some 3)
  have hread : Segment.read (some 3) 0 (Cursor.ofList (zeros.toBytes ++ [1]) 0) =
      .ok zeros ⟨[1], 20⟩ := rfl
  have hdecode : zeros.decode = .ok [0, 0] := by decide +kernel
  have hround : Reaches (some 3) (zeros.toBytes ++ [1]) 1 2 ⟨[1], 20⟩ :=
    .round .start ⟨by decide, hread, hdecode⟩
  obtain ⟨hprogress, hlimit, -⟩ := hreaches _ _ _ hround
  obtain ⟨-, -, -, hsegment⟩ := hreaches _ _ _ .start
  obtain ⟨-, hbuilds, hids⟩ := hsegment _ _ hread
  have htotal : ¬ zeros.histogram.total ≠ zeros.length := by decide
  rw [Segment.decode, if_neg htotal] at hdecode
  obtain ⟨t, ht, hdecode⟩ := Except.bind_eq_ok_iff.1 hdecode
  obtain ⟨d, hd, -⟩ := Except.bind_eq_ok_iff.1 hdecode
  have ht := Except.mapError_eq_ok_iff.1 ht
  have hbroken : decode (zeros.toBytes ++ [1]) (some 3) = .error (.corrupt (.truncated 4 20)) := by
    decide +kernel
  exact ⟨⟨hround, hprogress.1, hlimit 3 rfl⟩, ⟨hread, hbuilds, t, d, ht, hd, hids t d ht hd⟩,
    hbroken, herror _ hbroken⟩

end Frame

end Tans
