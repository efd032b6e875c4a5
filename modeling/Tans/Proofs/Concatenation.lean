import Tans.Proofs.Comparison

/-!
# Frames in a row

Nothing but the number of bytes that were produced is carried from one segment to the next. So a
frame that stands behind another one is decoded as it is on its own, under what the limit leaves;
only its positions and its limit are counted from the front of both. The encoder cuts its input at
multiples of the block size, so it makes frames in a row of inputs in a row.

* `Error.behind`: an error that is reported behind another frame.
* `Frame.decode_append`: a frame behind another one.
* `Frame.encode_append_eq_ok_iff`: an input behind another one.
-/

namespace Tans

/-- A fault that is met behind `length` more bytes. -/
def StreamFault.behind (length : Nat) : StreamFault → StreamFault
  | .truncated needed position => .truncated needed (length + position)
  | fault => fault

/-- Only missing bytes are reported by position. -/
theorem StreamFault.behind_of_ne {length : Nat} {fault : StreamFault}
    (h : ∀ needed position, fault ≠ .truncated needed position) : fault.behind length = fault := by
  cases fault with
  | truncated needed position => exact absurd rfl (h needed position)
  | _ => rfl

/-- An error that is met behind `length` more bytes, which `produced` bytes were decoded from. -/
def Error.behind (length produced : Nat) : Error → Error
  | .corrupt fault => .corrupt (fault.behind length)
  | .outputLimitExceeded limit => .outputLimitExceeded (produced + limit)
  | e => e

/-- Runs on the same bytes, the second one behind `length` more bytes, which `produced` bytes were
decoded from. -/
def Comparison.behind (length produced : Nat) : Comparison UInt8 where
  Cursors c d := d.rest = c.rest ∧ d.pos = length + c.pos
  Errors e e' := e' = e.behind length produced
  Stops _ := False

variable {length produced : Nat} {limit : Option Nat}

/-- Results that correspond are the same, up to what errors name. -/
theorem Comparison.Results.eq_of_behind {β : Type} {r r' : Except Error β}
    (h : (behind length produced).Results r r') :
    r' = r.mapError (Error.behind length produced) := by
  cases h with
  | stop h => exact h.elim
  | error h => exact congrArg Except.error h
  | ok b => rfl

namespace Segment

/-- The same bytes are taken, at positions that differ by the bytes in front. -/
theorem agree_takeBytes_behind (n : Nat) :
    (Comparison.behind length produced).Agree (takeBytes n) (takeBytes n) := by
  intro c d h
  obtain ⟨hrest, hpos⟩ := h
  simp only [takeBytes, Cursor.take, hrest]
  split
  · exact .error (by rw [hpos]; rfl)
  · exact .ok ⟨rfl, by rw [hpos, Nat.add_assoc]⟩

/-- What is left of the limit is checked like the limit. -/
theorem agree_reserve_behind (hle : ∀ l ∈ limit, produced ≤ l) (more n : Nat) :
    (Comparison.behind length produced).Agree (reserve (limit.map (· - produced)) more n)
      (reserve limit (produced + more) n) := by
  cases limit with
  | none => exact Comparison.agree_pure ()
  | some l =>
    have hleft : l - produced - more = l - (produced + more) := Nat.sub_sub l produced more
    simp only [Option.map_some, reserve, hleft]
    split
    · -- What is left names its own number, and the number from the front is the limit.
      apply Comparison.agree_throw
      show Error.outputLimitExceeded l = .outputLimitExceeded (produced + (l - produced))
      rw [Nat.add_sub_cancel' (hle l rfl)]
    · exact Comparison.agree_pure ()

/-- What a segment alone is blamed for does not depend on where it stands. -/
theorem behind_of_decode {s : Segment} {e : Error} (h : s.decode = .error e) :
    e.behind length produced = e := by
  obtain ⟨fault, rfl, hne⟩ := exists_fault_of_decode h
  exact congrArg Error.corrupt (StreamFault.behind_of_ne hne)

end Segment

namespace Frame

/-! ### Decoding -/

/-- Behind a frame decoding goes on, with what the frame stands for in front. -/
theorem decodeFrom_append {more : Nat} {c : Cursor UInt8} {front back output : List UInt8}
    (h : IsFrame front output) (hallows : Segment.Allows limit more output.length)
    (hrest : c.rest = front ++ back) :
    decodeFrom limit more c =
      (decodeFrom limit (more + output.length) ⟨back, c.pos + front.length⟩).map
        (output ++ ·) := by
  -- By induction on the frame in front, with one round of decoding for each of its segments.
  induction h generalizing more c with
  | nil =>
    obtain ⟨rest, pos⟩ := c
    obtain rfl : rest = back := hrest
    cases decodeFrom limit more ⟨rest, pos⟩ <;> simp [Except.map]
  | @cons s bytes front output hs _ ih =>
    -- The limit has room for this segment, and then for the others.
    rw [List.length_append, allows_add_iff] at hallows
    rw [List.append_assoc] at hrest
    have hread := hs.read_eq_ok hallows.1 hrest
    have hdecode := (Segment.standsFor_iff.1 hs).2
    have hne : c.rest ≠ [] :=
      List.ne_nil_of_length_pos (Nat.zero_lt_of_lt (Segment.rest_length_lt_of_read hread))
    rw [Round.decodeFrom_eq ⟨hne, hread, hdecode⟩, ih hallows.2 rfl, List.length_append,
      List.length_append, Nat.add_assoc, Nat.add_assoc]
    cases decodeFrom limit (more + (bytes.length + output.length))
      ⟨back, c.pos + (s.toBytes.length + front.length)⟩ <;> simp [Except.map]

/-- Behind some bytes, which `produced` bytes were decoded from, a frame is decoded as it is on its
own under what the limit leaves. -/
theorem decodeFrom_eq_decode (hle : ∀ l ∈ limit, produced ≤ l) (data : List UInt8) :
    decodeFrom limit produced ⟨data, length⟩ =
      (decode data (limit.map (· - produced))).mapError (Error.behind length produced) := by
  have hread (more : Nat) : (Comparison.behind length produced).Agree
      (Segment.read (limit.map (· - produced)) more) (Segment.read limit (produced + more)) :=
    Segment.agree_read Segment.agree_takeBytes_behind (Segment.agree_reserve_behind hle more)
      fun _ => rfl
  have hcursors : (Comparison.behind length produced).Cursors (Cursor.ofList data 0)
      ⟨data, length⟩ := ⟨rfl, rfl⟩
  -- Nothing was produced yet by the frame itself.
  show decodeFrom limit (produced + 0) _ = _
  exact (results_decodeFrom (fun _ _ h => And.left h) hread
    (fun _ _ h => (Segment.behind_of_decode h).symm) hcursors).eq_of_behind

/-- What stands behind a frame is decoded under what the frame leaves of the limit. -/
theorem decode_append {front back output : List UInt8} (h : decode front limit = .ok output) :
    decode (front ++ back) limit =
      ((decode back (limit.map (· - output.length))).mapError
        (Error.behind front.length output.length)).map (output ++ ·) := by
  have hframe : IsFrame front output := (isFrame_of_decodeFrom h).1
  have hallows : Segment.Allows limit 0 output.length := (isFrame_of_decodeFrom h).2
  have hpos : (Cursor.ofList (front ++ back) 0).pos = 0 := rfl
  rw [← decodeFrom_eq_decode hallows, decode, decodeFrom_append hframe hallows rfl, hpos,
    Nat.zero_add, Nat.zero_add]

/-! ### Encoding -/

variable {options : FrameOptions} {x y : List UInt8} {frame : Frame}

/-- Inputs in a row are framed as frames in a row, where the first is cut at its end. -/
theorem encode_append_eq_ok_iff (hsize : 1 ≤ options.blockSize)
    (hdvd : options.blockSize ∣ x.length) :
    encode (x ++ y) options = .ok frame ↔ ∃ front back,
      encode x options = .ok front ∧ encode y options = .ok back ∧
        frame = ⟨front.bytes ++ back.bytes, front.inputSize + back.inputSize⟩ := by
  have hne : options.blockSize ≠ 0 := Nat.ne_of_gt hsize
  -- The chunks of both are those of the first and those of the second.
  simp only [encode_eq_ok_iff, if_neg hne, chunks_append hsize hdvd, Except.mapM_append_eq_ok_iff]
  constructor
  · intro h
    obtain ⟨hlog, _, ⟨us, vs, hus, hvs, rfl⟩, rfl⟩ := h
    refine ⟨_, _, ⟨hlog, us, hus, rfl⟩, ⟨hlog, vs, hvs, rfl⟩, ?_⟩
    rw [List.flatMap_append, List.length_append]
  · intro h
    obtain ⟨_, _, ⟨hlog, us, hus, rfl⟩, ⟨-, vs, hvs, rfl⟩, rfl⟩ := h
    refine ⟨hlog, _, ⟨us, vs, hus, hvs, rfl⟩, ?_⟩
    rw [List.flatMap_append, List.length_append]

/-- Frames in a row stand for what they stand for, in a row. If the one in front is decoded, the one
behind is decoded as it is on its own, under what is left of the limit, and fails as it does on its
own, only that positions and the limit are counted from the front. Inputs in a row, where the one
in front is made of whole chunks, are encoded exactly if both are, and to their frames in a row. -/
theorem decode_and_encode_append :
    (∀ (front back : List UInt8) (limit : Option Nat) (output : List UInt8),
      decode front limit = .ok output →
      (∀ rest, decode (front ++ back) limit = .ok (output ++ rest) ↔
        decode back (limit.map (· - output.length)) = .ok rest) ∧
      ∀ e, decode back (limit.map (· - output.length)) = .error e →
        decode (front ++ back) limit = .error (e.behind front.length output.length)) ∧
    (∀ (options : FrameOptions) (x y : List UInt8), 1 ≤ options.blockSize →
      options.blockSize ∣ x.length → ∀ frame, encode (x ++ y) options = .ok frame ↔
        ∃ front back, encode x options = .ok front ∧ encode y options = .ok back ∧
          frame = ⟨front.bytes ++ back.bytes, front.inputSize + back.inputSize⟩) := by
  constructor
  · intro front back limit output h
    rw [decode_append h]
    constructor
    · intro rest
      simp [Except.map_eq_ok_iff, Except.mapError_eq_ok_iff]
    · intro e he
      rw [he]
      rfl
  · intro options x y hsize hdvd frame
    exact encode_append_eq_ok_iff hsize hdvd

/-- Two zeros are coded as the segment `zeros`. -/
theorem ofBytes_zeros : Segment.ofBytes 1 [0, 0] = .ok zeros := by
  rw [Segment.ofBytes, Histogram.trimmed_eq]
  decide +kernel

/-- Under a limit of four bytes, two bytes and behind them two more, a stray byte, or four more. And
two chunks that are framed in a row. -/
theorem decode_and_encode_append_zeros :
    (decode zeros.toBytes (some 4) = .ok [0, 0] ∧
      decode (zeros.toBytes ++ zeros.toBytes) (some 4) = .ok ([0, 0] ++ [0, 0])) ∧
    (decode [1] (some 2) = .error (.corrupt (.truncated 4 0)) ∧
      decode (zeros.toBytes ++ [1]) (some 4) = .error (.corrupt (.truncated 4 20))) ∧
    (decode (zeros.toBytes ++ zeros.toBytes) (some 2) = .error (.outputLimitExceeded 2) ∧
      decode (zeros.toBytes ++ (zeros.toBytes ++ zeros.toBytes)) (some 4) =
        .error (.outputLimitExceeded 4)) ∧
    (encode [0, 0] ⟨2, 1⟩ = .ok ⟨zeros.toBytes, 2⟩ ∧
      encode ([0, 0] ++ [0, 0]) ⟨2, 1⟩ = .ok ⟨zeros.toBytes ++ zeros.toBytes, 4⟩) := by
  have hfront : decode zeros.toBytes (some 4) = .ok [0, 0] := by decide +kernel
  have htwo : decode zeros.toBytes (some 2) = .ok [0, 0] := by decide +kernel
  have hstray : decode [1] (some 2) = .error (.corrupt (.truncated 4 0)) := by decide +kernel
  have hlong : decode (zeros.toBytes ++ zeros.toBytes) (some 2) =
      .error (.outputLimitExceeded 2) := by decide +kernel
  have hencode : encode [0, 0] ⟨2, 1⟩ = .ok ⟨zeros.toBytes, 2⟩ := by
    have hchunks : chunks 2 ([0, 0] : List UInt8) = [[0, 0]] := by decide +kernel
    refine encode_eq_ok_iff.2 ⟨by decide, [zeros], ?_, by simp⟩
    rw [if_neg (by decide), hchunks, List.mapM_cons, ofBytes_zeros]
    rfl
  obtain ⟨hdecode, happend⟩ := decode_and_encode_append
  have hbehind := hdecode zeros.toBytes
  exact ⟨⟨hfront, ((hbehind _ _ _ hfront).1 _).2 htwo⟩,
    ⟨hstray, (hbehind _ _ _ hfront).2 _ hstray⟩, ⟨hlong, (hbehind _ _ _ hfront).2 _ hlong⟩,
    hencode, (happend ⟨2, 1⟩ [0, 0] [0, 0] (by decide) (by decide) _).2
      ⟨_, _, hencode, hencode, rfl⟩⟩

end Frame

end Tans
