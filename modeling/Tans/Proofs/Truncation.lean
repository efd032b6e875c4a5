import Tans.Proofs.Concatenation

/-!
# Frames that are cut off

A reader that meets the end of the bytes too early says so. Up to there it reads what it reads from
the whole frame, so a cut inside of a segment is always noticed. A cut between two segments is not,
because nothing in a frame tells how many there are: what is left is the frame of the chunks in
front.

* `Segment.exists_truncated_of_read`: a segment that is cut off.
* `Frame.exists_truncated_of_decode`: a frame that is cut inside of a segment.
* `Frame.decode_take`: every cut of a frame.
-/

namespace Tans

/-- The chunks that an input is framed in. -/
def FrameOptions.split (options : FrameOptions) (input : List UInt8) : List (List UInt8) :=
  chunks (if options.blockSize = 0 then input.length else options.blockSize) input

/-- Runs on bytes that are cut off and on all of them. The first one may stop because bytes are
missing. -/
def Comparison.cut : Comparison UInt8 where
  Cursors c d := c.rest <+: d.rest
  Errors := Eq
  Stops e := ∃ needed position, e = .corrupt (.truncated needed position)

namespace Segment

/-- Taking bytes that are all there gives the same, and stops otherwise. -/
theorem agree_takeBytes_cut (n : Nat) : Comparison.cut.Agree (takeBytes n) (takeBytes n) := by
  intro c d h
  obtain ⟨missing, hrest⟩ : c.rest <+: d.rest := h
  by_cases hn : n ≤ c.rest.length
  · -- What is taken lies within the bytes that are left.
    have hlen : n ≤ d.rest.length := by
      rw [← hrest, List.length_append]
      omega
    have hd : takeBytes n d = .ok (c.rest.take n) ⟨c.rest.drop n ++ missing, d.pos + n⟩ := by
      rw [← List.drop_append_of_le_length hn, ← List.take_append_of_le_length hn, hrest]
      exact Cursor.take_eq_ok_iff.2 ⟨hlen, rfl, rfl⟩
    have hc : takeBytes n c = .ok (c.rest.take n) ⟨c.rest.drop n, c.pos + n⟩ :=
      Cursor.take_eq_ok_iff.2 ⟨hn, rfl, rfl⟩
    rw [hc, hd]
    exact .ok ⟨missing, rfl⟩
  · have hc : takeBytes n c = .error (.corrupt (.truncated n c.pos)) c :=
      Cursor.take_eq_error_iff.2 ⟨Nat.lt_of_not_le hn, rfl, rfl⟩
    rw [hc]
    exact .stop ⟨n, c.pos, rfl⟩

theorem agree_read_cut (produced : Nat) :
    Comparison.cut.Agree (read none produced) (read none produced) :=
  agree_read agree_takeBytes_cut (fun _ => Comparison.agree_pure ()) fun _ => rfl

/-- From a part of a segment no segment is read. -/
theorem exists_truncated_of_read {produced : Nat} {s : Segment} {c : Cursor UInt8}
    (hs : s.Storable) (hpart : c.rest <+: s.toBytes) (hlt : c.rest.length < s.toBytes.length) :
    ∃ needed position c',
      read none produced c = .error (.corrupt (.truncated needed position)) c' := by
  have hallows : Allows none produced s.length := fun _ hl => nomatch hl
  have hwhole : read none produced ⟨s.toBytes, 0⟩ = .ok s ⟨[], 0 + s.toBytes.length⟩ :=
    read_eq_ok_iff.2 ⟨hs, hallows, (List.append_nil _).symm, rfl⟩
  have houtcomes := agree_read_cut produced c ⟨s.toBytes, 0⟩ hpart
  rw [hwhole] at houtcomes
  generalize hread : read none produced c = outcome at houtcomes
  cases houtcomes with
  | stop h =>
    obtain ⟨needed, position, rfl⟩ := h
    exact ⟨needed, position, _, rfl⟩
  | ok _ =>
    -- The same segment would have been read, and all of its bytes with it.
    have hrest := (read_eq_ok_iff.1 hread).2.2.rest_eq
    rw [hrest, List.length_append] at hlt
    omega

end Segment

namespace Frame

variable {tableLog : Nat} {parts : List (List UInt8)} {segments front back : List Segment}
  {s : Segment} {k : Nat}

/-- A part of a segment is no frame. -/
theorem exists_truncated_of_take (hs : s.Storable) (hpos : 0 < k) (hlt : k < s.toBytes.length) :
    ∃ needed position,
      decode (s.toBytes.take k) none = .error (.corrupt (.truncated needed position)) := by
  have hlen : (Cursor.ofList (s.toBytes.take k) 0).rest.length = k :=
    List.length_take_of_le (Nat.le_of_lt hlt)
  obtain ⟨needed, position, c, hread⟩ :=
    Segment.exists_truncated_of_read hs (List.take_prefix k s.toBytes) (by rwa [hlen])
  have hne : (Cursor.ofList (s.toBytes.take k) 0).rest ≠ [] :=
    List.ne_nil_of_length_pos (by rwa [hlen])
  exact ⟨needed, position, decodeFrom_of_read_eq_error hne hread⟩

/-- The first coded chunks in a row are decoded to the first chunks in a row. -/
theorem decode_flatMap_take (h : parts.mapM (Segment.ofBytes tableLog) = .ok segments) (j : Nat) :
    decode ((segments.take j).flatMap Segment.toBytes) none = .ok (parts.take j).flatten := by
  have htake : (parts.take j).mapM (Segment.ofBytes tableLog) = .ok (segments.take j) :=
    Except.mapM_eq_ok_iff_forall₂.2 (List.forall₂_take j (Except.mapM_eq_ok_iff_forall₂.1 h))
  exact decodeFrom_flatMap_toBytes htake (fun _ hl => nomatch hl) rfl

/-- Behind coded chunks a part of a segment is noticed. -/
theorem exists_truncated_of_decode
    (h : parts.mapM (Segment.ofBytes tableLog) = .ok (front ++ s :: back))
    (hpos : 0 < k) (hlt : k < s.toBytes.length) :
    ∃ needed position, decode (front.flatMap Segment.toBytes ++ s.toBytes.take k) none =
      .error (.corrupt (.truncated needed position)) := by
  have hfront := decode_flatMap_take h front.length
  rw [List.take_left] at hfront
  -- The segment that is cut codes one of the parts.
  have hs : s.Storable := by
    have hdrop := List.forall₂_drop_append _ _ _ (Except.mapM_eq_ok_iff_forall₂.1 h)
    obtain ⟨part, _, hpart, -⟩ := List.forall₂_cons_right_iff.1 hdrop
    exact Segment.storable_of_ofBytes hpart
  obtain ⟨needed, position, hdecode⟩ := exists_truncated_of_take hs hpos hlt
  rw [decode_append hfront, Option.map_none, hdecode]
  exact ⟨needed, _, rfl⟩

/-- A cut of coded chunks in a row is between two of them, or it is noticed. -/
theorem decode_take_flatMap (h : parts.mapM (Segment.ofBytes tableLog) = .ok segments)
    {cut : Nat} (hle : cut ≤ (segments.flatMap Segment.toBytes).length)
    (hcut : ∀ j, cut ≠ ((segments.take j).flatMap Segment.toBytes).length) :
    ∃ needed position, decode ((segments.flatMap Segment.toBytes).take cut) none =
      .error (.corrupt (.truncated needed position)) := by
  have hne := hcut segments.length
  rw [List.take_length] at hne
  obtain ⟨front, s, back, k, rfl, rfl, hlt⟩ :=
    List.exists_append_cons_of_lt_length_flatMap (Nat.lt_of_le_of_ne hle hne)
  -- The cut is `k` bytes into the segment `s`, but not right in front of it.
  have hpos : 0 < k := by
    have hfront := hcut front.length
    rw [List.take_left] at hfront
    omega
  have htake : ((front ++ s :: back).flatMap Segment.toBytes).take
      ((front.flatMap Segment.toBytes).length + k) =
        front.flatMap Segment.toBytes ++ s.toBytes.take k := by
    rw [List.flatMap_append, List.take_length_add_append, List.flatMap_cons,
      List.take_append_of_le_length (Nat.le_of_lt hlt)]
  rw [htake]
  exact exists_truncated_of_decode h hpos hlt

/-- Every cut of a frame is noticed, unless it is between two segments. A frame is a row of
segments, one for each chunk of the input. The first of them are decoded to the first chunks, and
what is cut anywhere else is reported as truncated. -/
theorem decode_take {input : List UInt8} {options : FrameOptions} {frame : Frame}
    (h : encode input options = .ok frame) :
    ∃ segments, (options.split input).mapM (Segment.ofBytes options.tableLog) = .ok segments ∧
      frame.bytes = segments.flatMap Segment.toBytes ∧
      ∀ cut ≤ frame.bytes.length,
        (∀ j, cut = ((segments.take j).flatMap Segment.toBytes).length →
          decode (frame.bytes.take cut) none = .ok ((options.split input).take j).flatten) ∧
        ((∀ j, cut ≠ ((segments.take j).flatMap Segment.toBytes).length) →
          ∃ needed position, decode (frame.bytes.take cut) none =
            .error (.corrupt (.truncated needed position))) := by
  obtain ⟨-, segments, hsegments, rfl⟩ := encode_eq_ok_iff.1 h
  refine ⟨segments, hsegments, rfl, fun cut hle => ⟨fun j hj => ?_, fun hcut => ?_⟩⟩
  · have htake : (segments.flatMap Segment.toBytes).take cut =
        (segments.take j).flatMap Segment.toBytes := by
      conv_lhs => rw [← List.take_append_drop j segments, List.flatMap_append]
      exact List.take_left' hj.symm
    rw [htake]
    exact decode_flatMap_take hsegments j
  · exact decode_take_flatMap hsegments hle hcut

/-- Two chunks of two bytes, cut between their segments and one byte behind that. -/
theorem decode_take_zeros :
    encode [0, 0, 0, 0] ⟨2, 1⟩ = .ok ⟨zeros.toBytes ++ zeros.toBytes, 4⟩ ∧
    decode ((zeros.toBytes ++ zeros.toBytes).take 20) none = .ok [0, 0] ∧
    ∃ needed position, decode ((zeros.toBytes ++ zeros.toBytes).take 21) none =
      .error (.corrupt (.truncated needed position)) := by
  have hsplit : FrameOptions.split ⟨2, 1⟩ [0, 0, 0, 0] = [[0, 0], [0, 0]] := by decide +kernel
  have hmap : (FrameOptions.split ⟨2, 1⟩ [0, 0, 0, 0]).mapM (Segment.ofBytes 1) =
      .ok [zeros, zeros] := by
    rw [hsplit, List.mapM_cons, List.mapM_cons, ofBytes_zeros]
    rfl
  have hencode : encode [0, 0, 0, 0] ⟨2, 1⟩ = .ok ⟨zeros.toBytes ++ zeros.toBytes, 4⟩ :=
    encode_eq_ok_iff.2 ⟨by decide, [zeros, zeros], hmap, by simp⟩
  obtain ⟨segments, hsegments, -, hcut⟩ := decode_take hencode
  obtain rfl : [zeros, zeros] = segments := Except.ok.inj (hmap.symm.trans hsegments)
  have hlen : zeros.toBytes.length = 20 := rfl
  refine ⟨hencode, ?_, (hcut 21 (by decide)).2 fun j => ?_⟩
  · have hfirst := (hcut 20 (by decide)).1 1 (by decide)
    rwa [hsplit] at hfirst
  · rcases j with _ | _ | j <;> simp [hlen]

end Frame

end Tans
