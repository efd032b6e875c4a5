import Tans.Frame
import Tans.Proofs.Segment

/-!
# Frames and their bytes

A frame is decoded segment by segment. Each segment gives back its chunk and leaves the cursor at
the next one, and the chunks in a row are what was framed.

* `Frame.decodeFrom_eq_ok_iff`: one segment, and what stands behind it.
* `Frame.decodeFrom_flatMap_toBytes`: coded chunks in a row.
* `Frame.decode_encode`: a frame is decoded to what it was made from.
-/

namespace Tans.Frame

variable {limit : Option Nat} {produced : Nat} {c : Cursor UInt8}

/-! ### Segments in a row -/

/-- Decoding ends at the end of the bytes, or decodes a segment and goes on behind it. -/
theorem decodeFrom_eq_ok_iff {bytes : List UInt8} :
    decodeFrom limit produced c = .ok bytes ↔
      (c.rest = [] ∧ bytes = []) ∨
        ∃ segment c' front back, Segment.read limit produced c = .ok segment c' ∧
          segment.decode = .ok front ∧
          decodeFrom limit (produced + front.length) c' = .ok back ∧ bytes = front ++ back := by
  rw [decodeFrom]
  by_cases hrest : c.rest = []
  · rw [if_pos (List.isEmpty_iff.2 hrest)]
    constructor
    · intro h
      cases h
      exact .inl ⟨hrest, rfl⟩
    · intro h
      rcases h with ⟨-, rfl⟩ | ⟨segment, c', front, back, hread, -⟩
      · rfl
      · -- Nothing is read where nothing is left.
        have hlt := Segment.rest_length_lt_of_read hread
        rw [hrest] at hlt
        exact absurd hlt (Nat.not_lt_zero _)
  · rw [if_neg (fun h => hrest (List.isEmpty_iff.1 h))]
    constructor
    · intro h
      -- The segment was read, or decoding would have failed.
      split at h
      · simp at h
      · next segment c' hread =>
        obtain ⟨front, hfront, h⟩ := Except.bind_eq_ok_iff.1 h
        obtain ⟨back, hback, h⟩ := Except.bind_eq_ok_iff.1 h
        cases h
        exact .inr ⟨segment, c', front, back, hread, hfront, hback, rfl⟩
    · intro h
      rcases h with ⟨hnil, -⟩ | ⟨segment, c', front, back, hread, hfront, hback, rfl⟩
      · exact absurd hnil hrest
      · split
        · next e c₁ herror =>
          simp [hread] at herror
        · next segment₁ c₁ hread₁ =>
          rw [hread] at hread₁
          cases hread₁
          exact Except.bind_eq_ok_iff.2 ⟨front, hfront, Except.bind_eq_ok_iff.2 ⟨back, hback, rfl⟩⟩

/-- Coded chunks in a row are decoded to the chunks in a row, if the limit allows their length. -/
theorem decodeFrom_flatMap_toBytes {tableLog : Nat} {parts : List (List UInt8)}
    {segments : List Segment} (h : parts.mapM (Segment.ofBytes tableLog) = .ok segments)
    (hallows : Segment.Allows limit produced parts.flatten.length)
    (hrest : c.rest = segments.flatMap Segment.toBytes) :
    decodeFrom limit produced c = .ok parts.flatten := by
  induction parts generalizing segments produced c with
  | nil =>
    cases h
    exact decodeFrom_eq_ok_iff.2 (.inl ⟨hrest, rfl⟩)
  | cons part parts ih =>
    rw [List.mapM_cons] at h
    obtain ⟨segment, hsegment, h⟩ := Except.bind_eq_ok_iff.1 h
    obtain ⟨segments, hsegments, h⟩ := Except.bind_eq_ok_iff.1 h
    cases h
    rw [List.flatMap_cons] at hrest
    rw [List.flatten_cons, List.length_append] at hallows
    -- What the limit leaves is enough for this chunk, and then for those behind it.
    have hpart : Segment.Allows limit produced segment.length := by
      intro l hl
      have := hallows l hl
      rw [Segment.length_of_ofBytes hsegment]
      omega
    have hparts : Segment.Allows limit (produced + part.length) parts.flatten.length := by
      intro l hl
      have := hallows l hl
      omega
    have hread : Segment.read limit produced c = .ok segment
        ⟨segments.flatMap Segment.toBytes, c.pos + segment.toBytes.length⟩ :=
      Segment.read_eq_ok_iff.2 ⟨Segment.storable_of_ofBytes hsegment, hpart, hrest, rfl⟩
    exact decodeFrom_eq_ok_iff.2 (.inr ⟨segment, _, part, parts.flatten, hread,
      Segment.decode_of_ofBytes hsegment, ih hsegments hparts rfl, rfl⟩)

/-! ### Round trip -/

variable {input : List UInt8} {options : FrameOptions} {frame : Frame}

/-- A frame is the segments of the chunks in a row, with the length of the input. -/
theorem encode_eq_ok_iff :
    encode input options = .ok frame ↔
      TableLogInRange options.tableLog ∧ ∃ segments,
        (chunks (if options.blockSize = 0 then input.length else options.blockSize) input).mapM
          (Segment.ofBytes options.tableLog) = .ok segments ∧
        frame = ⟨segments.flatMap Segment.toBytes, input.length⟩ := by
  unfold encode
  constructor
  · intro h
    obtain ⟨_, hcheck, h⟩ := Except.bind_eq_ok_iff.1 h
    obtain ⟨segments, hsegments, h⟩ := Except.bind_eq_ok_iff.1 h
    cases h
    have hlog := Segment.check_params_eq_ok_iff.1 (Except.mapError_eq_ok_iff.1 hcheck)
    exact ⟨hlog, segments, hsegments, rfl⟩
  · intro h
    obtain ⟨hlog, segments, hsegments, rfl⟩ := h
    apply Except.bind_eq_ok_iff.2
      ⟨(), Except.mapError_eq_ok_iff.2 (Segment.check_params_eq_ok_iff.2 hlog), _⟩
    exact Except.bind_eq_ok_iff.2 ⟨segments, hsegments, rfl⟩

/-- A frame is decoded to its input under any limit that allows it. -/
theorem decode_of_encode (h : encode input options = .ok frame)
    (hallows : Segment.Allows limit 0 input.length) : decode frame.bytes limit = .ok input := by
  -- The chunks in a row are the input again.
  obtain ⟨-, segments, hsegments, rfl⟩ := encode_eq_ok_iff.1 h
  have hflatten := flatten_chunks
    (if options.blockSize = 0 then input.length else options.blockSize) input
  rw [← hflatten] at hallows
  have hdecode := decodeFrom_flatMap_toBytes hsegments hallows
    (c := Cursor.ofList (segments.flatMap Segment.toBytes) 0) rfl
  rwa [hflatten] at hdecode

/-- The empty sequence is framed as no bytes. -/
theorem encode_nil_eq_ok_iff :
    encode [] options = .ok frame ↔ TableLogInRange options.tableLog ∧ frame = ⟨[], 0⟩ := by
  have hchunks (n : Nat) : chunks n ([] : List UInt8) = [] := by rw [chunks]
  rw [encode_eq_ok_iff, hchunks]
  constructor
  · intro h
    obtain ⟨hlog, segments, hsegments, hframe⟩ := h
    cases hsegments
    exact ⟨hlog, hframe⟩
  · intro h
    exact ⟨h.1, [], rfl, h.2⟩

/-- Frames survive a round trip. A frame names the length of what it was made from, and it is
decoded to that under every limit that is not below this length, and under none. The empty sequence
is framed as no bytes. -/
theorem decode_encode (input : List UInt8) (options : FrameOptions) :
    (∀ frame, encode input options = .ok frame →
      frame.inputSize = input.length ∧
        (∀ limit, input.length ≤ limit → decode frame.bytes (some limit) = .ok input) ∧
        decode frame.bytes none = .ok input) ∧
    (∀ frame, encode [] options = .ok frame ↔
      TableLogInRange options.tableLog ∧ frame = ⟨[], 0⟩) := by
  constructor
  · intro frame h
    refine ⟨?_, ?_, ?_⟩
    · obtain ⟨-, segments, -, rfl⟩ := encode_eq_ok_iff.1 h
      rfl
    · intro limit hle
      apply decode_of_encode h
      intro l hl
      cases hl
      exact hle
    · apply decode_of_encode h
      intro l hl
      exact nomatch hl
  · intro frame
    exact encode_nil_eq_ok_iff

/-- A frame of two chunks, the second one shorter. -/
theorem decode_encode_chunks :
    encode [0, 0, 1] ⟨2, 1⟩ = .ok ⟨[2, 0, 0, 0, 33, 0, 0, 0, 1, 1, 0, 2, 0, 0, 0, 0, 0, 0, 2, 0,
      1, 0, 0, 0, 33, 0, 0, 0, 1, 2, 0, 0, 0, 0, 0, 1, 0, 0, 0, 0, 0, 0, 1, 0], 3⟩ ∧
    decode [2, 0, 0, 0, 33, 0, 0, 0, 1, 1, 0, 2, 0, 0, 0, 0, 0, 0, 2, 0,
      1, 0, 0, 0, 33, 0, 0, 0, 1, 2, 0, 0, 0, 0, 0, 1, 0, 0, 0, 0, 0, 0, 1, 0] (some 3) =
        .ok [0, 0, 1] ∧
    encode [] ⟨2, 1⟩ = .ok ⟨[], 0⟩ := by
  have hfront : Segment.ofBytes 1 [0, 0] = .ok ⟨2, 33, 1, ⟨#[2]⟩, [0, 0, 0, 2, 0]⟩ := by
    rw [Segment.ofBytes, Histogram.trimmed_eq]
    decide +kernel
  have hback : Segment.ofBytes 1 [1] = .ok ⟨1, 33, 1, ⟨#[0, 1]⟩, [0, 0, 0, 1, 0]⟩ := by
    rw [Segment.ofBytes, Histogram.trimmed_eq]
    decide +kernel
  have hchunks : chunks 2 ([0, 0, 1] : List UInt8) = [[0, 0], [1]] := by decide +kernel
  have hencode : encode [0, 0, 1] ⟨2, 1⟩ = .ok ⟨_, 3⟩ :=
    encode_eq_ok_iff.2 ⟨by decide, _, by
      rw [if_neg (by decide), hchunks, List.mapM_cons, List.mapM_cons, hfront, hback]
      rfl, rfl⟩
  obtain ⟨hround, hempty⟩ := decode_encode [0, 0, 1] ⟨2, 1⟩
  exact ⟨hencode, (hround _ hencode).2.1 3 (by decide), (hempty _).2 ⟨by decide, rfl⟩⟩

end Tans.Frame
