import Tans.Proofs.Comparison

/-!
# The limit on the output

The length that a segment declares is held against the limit before anything else of the segment is
read. So of two runs on the same bytes the one under the lower limit does what the other one does,
until it stops at a length that its own limit does not leave.

* `Segment.agree_reserve`: the check of the limit under two limits.
* `Frame.decode_eq_or_of_le`: frames under two limits.
* `Frame.decode_of_lower_limit`: a lower limit cuts off, and changes nothing else.
-/

namespace Tans

/-- Runs on the same bytes, the first one under a limit of its own that it may stop at. -/
def Comparison.lower (limit : Nat) : Comparison UInt8 where
  Cursors := Eq
  Errors := Eq
  Stops e := e = .outputLimitExceeded limit

namespace Comparison

variable {β : Type} {a : Nat} {x : Cursor.Reading UInt8 β} {r r' : Except Error β}

/-- What does not depend on the limit is the same under two limits. -/
theorem lower_agree_self : (lower a).Agree x x := by
  intro c d h
  obtain rfl : c = d := h
  cases x c with
  | ok b c' => exact .ok rfl
  | error e c' => exact .error rfl

/-- Results under two limits are the same, or the lower limit was met. -/
theorem Results.eq_or_of_lower (h : (lower a).Results r r') :
    r = .error (.outputLimitExceeded a) ∨ r = r' := by
  cases h with
  | stop h => exact .inl (congrArg Except.error h)
  | error h => exact .inr (congrArg Except.error h)
  | ok b => exact .inr rfl

end Comparison

variable {a : Nat} {b : Option Nat}

namespace Segment

/-- What the lower limit leaves room for the other one does too. -/
theorem agree_reserve (hab : ∀ l ∈ b, a ≤ l) (produced length : Nat) :
    (Comparison.lower a).Agree (reserve (some a) produced length) (reserve b produced length) := by
  by_cases hroom : length ≤ a - produced
  · have hlower : Allows (some a) produced length := by
      intro l hl
      cases hl
      exact hroom
    have hallows : Allows b produced length :=
      fun l hl => Nat.le_trans hroom (Nat.sub_le_sub_right (hab l hl) produced)
    rw [reserve_of_allows hlower, reserve_of_allows hallows]
    exact Comparison.agree_pure ()
  -- The lower limit stops here, so the other one may do anything.
  · rw [reserve_of_lt (Nat.lt_of_not_le hroom)]
    exact Comparison.agree_stop rfl

end Segment

namespace Frame

variable {data output : List UInt8}

/-- Under the lower limit a frame has the same result, or decoding stops at this limit. -/
theorem decode_eq_or_of_le (hab : ∀ l ∈ b, a ≤ l) (data : List UInt8) :
    decode data (some a) = .error (.outputLimitExceeded a) ∨
      decode data (some a) = decode data b := by
  have hread (produced : Nat) : (Comparison.lower a).Agree (Segment.read (some a) produced)
      (Segment.read b (0 + produced)) := by
    rw [Nat.zero_add]
    exact Segment.agree_read (fun _ => Comparison.lower_agree_self)
      (Segment.agree_reserve hab produced) fun _ => rfl
  exact (results_decodeFrom (fun c d h => congrArg Cursor.rest (Eq.symm h)) hread
    (fun _ _ _ => rfl) rfl).eq_or_of_lower

/-- The results under a limit are those under a higher one, as far as they are not too long. -/
theorem decode_eq_ok_iff_of_le (hab : ∀ l ∈ b, a ≤ l) :
    decode data (some a) = .ok output ↔ decode data b = .ok output ∧ output.length ≤ a := by
  constructor
  · intro h
    -- A run that succeeds has read a frame, and a frame is decoded under any limit that allows it.
    obtain ⟨hframe, hallows⟩ := isFrame_of_decodeFrom h
    have hle : output.length ≤ a := hallows a rfl
    exact ⟨decodeFrom_of_isFrame hframe (fun l hl => Nat.le_trans hle (hab l hl)) rfl, hle⟩
  · intro h
    obtain ⟨h, hle⟩ := h
    apply decodeFrom_of_isFrame (isFrame_of_decodeFrom h).1 _ rfl
    intro l hl
    cases hl
    exact hle

/-- A limit that is exceeded is the one that was given. -/
theorem mem_of_outputLimitExceeded {limit : Option Nat} {l : Nat}
    (h : decode data limit = .error (.outputLimitExceeded l)) : l ∈ limit := by
  rcases reportable_of_decodeFrom h with ⟨fault, hfault⟩ | ⟨l', hl', heq⟩
  · exact nomatch hfault
  · cases heq
    exact hl'

/-- A lower limit only cuts decoding off. What is decoded under `b` is decoded under `a`, unless it
is too long, which is reported then. Of the errors under `b`, a corrupt frame stays the same or is
cut off before, and one that is too long for `b` is too long for `a`. Nothing else is ever decoded
under `a`. -/
theorem decode_of_lower_limit (a : Nat) (b : Option Nat) (hab : ∀ l ∈ b, a ≤ l)
    (data : List UInt8) :
    (∀ output, decode data b = .ok output →
      decode data (some a) =
        if output.length ≤ a then .ok output else .error (.outputLimitExceeded a)) ∧
    (∀ fault, decode data b = .error (.corrupt fault) →
      decode data (some a) = .error (.corrupt fault) ∨
        decode data (some a) = .error (.outputLimitExceeded a)) ∧
    (∀ l, decode data b = .error (.outputLimitExceeded l) →
      l ∈ b ∧ decode data (some a) = .error (.outputLimitExceeded a)) ∧
    (∀ output, decode data (some a) = .ok output → decode data b = .ok output) := by
  have hcases := decode_eq_or_of_le hab data
  refine ⟨fun output h => ?_, fun fault h => ?_, fun l h => ?_,
    fun output h => ((decode_eq_ok_iff_of_le hab).1 h).1⟩
  -- A result of `b` is found under `a` too, or it is cut off.
  · split
    · next hle => exact (decode_eq_ok_iff_of_le hab).2 ⟨h, hle⟩
    · next hlong =>
      rcases hcases with hstop | heq
      · exact hstop
      · exact absurd ((decode_eq_ok_iff_of_le hab).1 (heq.trans h)).2 hlong
  · rcases hcases with hstop | heq
    · exact .inr hstop
    · exact .inl (heq.trans h)
  · refine ⟨mem_of_outputLimitExceeded h, ?_⟩
    rcases hcases with hstop | heq
    · exact hstop
    · -- One error under both limits names both of them.
      have hlower := heq.trans h
      obtain rfl : a = l := Option.some.inj (mem_of_outputLimitExceeded hlower)
      exact hlower

/-- Frames of segments that stand for two bytes each, under a limit of four bytes and one of two:
two segments, one with a stray byte behind it, three, and one. -/
theorem decode_of_lower_limit_zeros :
    (∀ l ∈ some 4, 2 ≤ l) ∧
    (decode (zeros.toBytes ++ zeros.toBytes) (some 4) = .ok [0, 0, 0, 0] ∧
      decode (zeros.toBytes ++ zeros.toBytes) (some 2) = .error (.outputLimitExceeded 2)) ∧
    (decode (zeros.toBytes ++ [1]) (some 4) = .error (.corrupt (.truncated 4 20)) ∧
      (decode (zeros.toBytes ++ [1]) (some 2) = .error (.corrupt (.truncated 4 20)) ∨
        decode (zeros.toBytes ++ [1]) (some 2) = .error (.outputLimitExceeded 2))) ∧
    (decode (zeros.toBytes ++ zeros.toBytes ++ zeros.toBytes) (some 4) =
        .error (.outputLimitExceeded 4) ∧
      decode (zeros.toBytes ++ zeros.toBytes ++ zeros.toBytes) (some 2) =
        .error (.outputLimitExceeded 2)) ∧
    (decode zeros.toBytes (some 2) = .ok [0, 0] ∧ decode zeros.toBytes (some 4) = .ok [0, 0]) := by
  have hab : ∀ l ∈ some 4, 2 ≤ l := by simp
  obtain ⟨hok, -⟩ := decode_of_lower_limit 2 (some 4) hab (zeros.toBytes ++ zeros.toBytes)
  obtain ⟨-, hcorrupt, -⟩ := decode_of_lower_limit 2 (some 4) hab (zeros.toBytes ++ [1])
  obtain ⟨-, -, hlimit, -⟩ := decode_of_lower_limit 2 (some 4) hab
    (zeros.toBytes ++ zeros.toBytes ++ zeros.toBytes)
  obtain ⟨-, -, -, hlower⟩ := decode_of_lower_limit 2 (some 4) hab zeros.toBytes
  have htwo : decode (zeros.toBytes ++ zeros.toBytes) (some 4) = .ok [0, 0, 0, 0] := by
    decide +kernel
  have hstray : decode (zeros.toBytes ++ [1]) (some 4) = .error (.corrupt (.truncated 4 20)) := by
    decide +kernel
  have hthree : decode (zeros.toBytes ++ zeros.toBytes ++ zeros.toBytes) (some 4) =
      .error (.outputLimitExceeded 4) := by decide +kernel
  have hone : decode zeros.toBytes (some 2) = .ok [0, 0] := by decide +kernel
  exact ⟨hab, ⟨htwo, hok _ htwo⟩, ⟨hstray, hcorrupt _ hstray⟩, ⟨hthree, (hlimit _ hthree).2⟩,
    hone, hlower _ hone⟩

end Frame

end Tans
