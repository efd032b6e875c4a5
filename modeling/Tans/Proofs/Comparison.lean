import Tans.Proofs.FrameSafety

/-!
# Comparing two runs

How decoding depends on the limit, on the bytes in front and on the bytes behind is a question about
two runs. They are compared step by step: as long as the cursors of both correspond, both read the
same values and go on, both fail with errors that correspond, or the first one stops with an error
that the comparison allows it, whatever the second one does. What holds of each take and of the
check of the limit then holds of a segment, and of a whole frame.

* `Comparison.Agree.bind`: reads in a row are compared one by one.
* `Segment.agree_read`: segments.
* `Frame.results_decodeFrom`: segments in a row.
-/

namespace Tans

/-- What it means for two runs to correspond. -/
structure Comparison (α : Type) where
  /-- The cursors of the two runs correspond. -/
  Cursors : Cursor α → Cursor α → Prop
  /-- The errors of the two runs correspond. -/
  Errors : Error → Error → Prop
  /-- The first run may stop with this error, whatever the second one does. -/
  Stops : Error → Prop

namespace Comparison

variable {α β γ : Type} {k : Comparison α}

/-! ### Readings -/

/-- Outcomes of two readings that correspond. -/
inductive Outcomes (k : Comparison α) :
    EStateM.Result Error (Cursor α) β → EStateM.Result Error (Cursor α) β → Prop
  | stop {e : Error} {c : Cursor α} {r : EStateM.Result Error (Cursor α) β} (h : k.Stops e) :
    Outcomes k (.error e c) r
  | error {e e' : Error} {c d : Cursor α} (h : k.Errors e e') : Outcomes k (.error e c) (.error e' d)
  | ok {b : β} {c d : Cursor α} (h : k.Cursors c d) : Outcomes k (.ok b c) (.ok b d)

/-- From cursors that correspond, two readings have outcomes that do. -/
def Agree (k : Comparison α) (x y : Cursor.Reading α β) : Prop :=
  ∀ c d, k.Cursors c d → k.Outcomes (x c) (y d)

variable {x y : Cursor.Reading α β} {f g : β → Cursor.Reading α γ}

/-- Nothing is read by either run, so the cursors correspond as before. -/
theorem agree_pure (b : β) : k.Agree (pure b) (pure b) :=
  fun _ _ h => .ok h

/-- Two runs fail with errors that correspond. -/
theorem agree_throw {e e' : Error} (h : k.Errors e e') :
    k.Agree (throw e : Cursor.Reading α β) (throw e') :=
  fun _ _ _ => .error h

/-- The first run stops with an error that it is allowed. -/
theorem agree_stop {e : Error} (h : k.Stops e) : k.Agree (throw e) y :=
  fun _ _ _ => .stop h

/-- Reads in a row agree if they do one by one. -/
theorem Agree.bind (hx : k.Agree x y) (hf : ∀ b, k.Agree (f b) (g b)) :
    k.Agree (x >>= f) (y >>= g) := by
  intro c d h
  have houtcomes := hx c d h
  -- The first reads are run, and their outcomes decide how each run goes on.
  simp only [Bind.bind, EStateM.bind]
  generalize x c = r at houtcomes
  generalize y d = s at houtcomes
  cases houtcomes with
  | stop h => exact .stop h
  | error h => exact .error h
  | ok h => exact hf _ _ _ h

/-- Values that agree are mapped alike. -/
theorem Agree.map (hx : k.Agree x y) (f : β → γ) : k.Agree (f <$> x) (f <$> y) := by
  intro c d h
  have houtcomes := hx c d h
  simp only [Functor.map, EStateM.map]
  generalize x c = r at houtcomes
  generalize y d = s at houtcomes
  cases houtcomes with
  | stop h => exact .stop h
  | error h => exact .error h
  | ok h => exact .ok h

/-! ### Results -/

/-- Results of two computations that correspond: the same value, or errors that do. -/
inductive Results (k : Comparison α) : Except Error β → Except Error β → Prop
  | stop {e : Error} {r : Except Error β} (h : k.Stops e) : Results k (.error e) r
  | error {e e' : Error} (h : k.Errors e e') : Results k (.error e) (.error e')
  | ok (b : β) : Results k (.ok b) (.ok b)

/-- Results that correspond are mapped alike. -/
theorem Results.map {r r' : Except Error β} (h : k.Results r r') (f : β → γ) :
    k.Results (r.map f) (r'.map f) := by
  cases h with
  | stop h => exact .stop h
  | error h => exact .error h
  | ok b => exact .ok (f b)

end Comparison

/-! ### Segments -/

namespace Segment

variable {k : Comparison UInt8}

/-- A length that the limit allows passes the check. -/
theorem reserve_of_allows {limit : Option Nat} {produced length : Nat}
    (h : Allows limit produced length) : reserve limit produced length = pure () :=
  funext fun _ => reserve_eq_ok_iff.2 ⟨h, rfl⟩

/-- A length that exceeds what is left of the limit is refused, with the limit. -/
theorem reserve_of_lt {limit produced length : Nat} (h : limit - produced < length) :
    reserve (some limit) produced length = throw (.outputLimitExceeded limit) :=
  if_pos h

/-- Numbers are read alike where bytes are taken alike. -/
theorem agree_readNat (htake : ∀ n, k.Agree (takeBytes n) (takeBytes n)) (size : Nat) :
    k.Agree (readNat size) (readNat size) :=
  (htake size).map _

/-- Counts are read alike where bytes are taken alike. -/
theorem agree_readCounts (htake : ∀ n, k.Agree (takeBytes n) (takeBytes n)) (n : Nat)
    (counts : Array UInt32) : k.Agree (readCounts n counts) (readCounts n counts) := by
  induction n generalizing counts with
  | zero => exact Comparison.agree_pure _
  | succ n ih => exact (agree_readNat htake 4).bind fun count => ih _

/-- Segments are read alike where bytes are taken alike and the limits are checked alike. -/
theorem agree_read {limit limit' : Option Nat} {produced produced' : Nat}
    (htake : ∀ n, k.Agree (takeBytes n) (takeBytes n))
    (hreserve : ∀ length, k.Agree (reserve limit produced length) (reserve limit' produced' length))
    (halphabet : ∀ size, k.Errors (.corrupt (.byteAlphabet size)) (.corrupt (.byteAlphabet size))) :
    k.Agree (read limit produced) (read limit' produced') := by
  -- The fields are read in the order of the format, with the check of the limit after the first.
  refine (agree_readNat htake 4).bind fun length => ?_
  refine (hreserve length).bind fun _ => ?_
  refine (agree_readNat htake 4).bind fun bitCount => ?_
  refine (agree_readNat htake 1).bind fun tableLog => ?_
  refine (agree_readNat htake 2).bind fun alphabetSize => ?_
  -- Both runs refuse an alphabet that is not one of bytes, or neither does.
  split
  · exact Comparison.agree_throw (halphabet alphabetSize)
  refine (agree_readCounts htake alphabetSize #[]).bind fun counts => ?_
  exact (htake _).bind fun payload => Comparison.agree_pure _

end Segment

/-! ### Segments in a row -/

namespace Frame

variable {limit limit' : Option Nat} {produced offset : Nat} {c c' d : Cursor UInt8} {s : Segment}
  {e : Error}

/-- A frame ends where no bytes are left. -/
theorem decodeFrom_of_rest_eq_nil (h : c.rest = []) : decodeFrom limit produced c = .ok [] :=
  decodeFrom_eq_ok_iff.2 (.inl ⟨h, rfl⟩)

/-- A frame fails where a segment cannot be read. -/
theorem decodeFrom_of_read_eq_error (hne : c.rest ≠ [])
    (hread : Segment.read limit produced c = .error e c') :
    decodeFrom limit produced c = .error e := by
  rw [decodeFrom, if_neg (fun hnil => hne (List.isEmpty_iff.1 hnil))]
  split
  · next e₁ c₁ he =>
    rw [hread] at he
    cases he
    rfl
  · next s₁ c₁ hs => simp [hread] at hs

/-- A frame fails where the block of a segment cannot be decoded. -/
theorem decodeFrom_of_decode_eq_error (hne : c.rest ≠ [])
    (hread : Segment.read limit produced c = .ok s c') (hdecode : s.decode = .error e) :
    decodeFrom limit produced c = .error e := by
  rw [decodeFrom, if_neg (fun hnil => hne (List.isEmpty_iff.1 hnil))]
  split
  · next e₁ c₁ he => simp [hread] at he
  · next s₁ c₁ hs =>
    rw [hread] at hs
    cases hs
    rw [hdecode]
    rfl

/-- Frames are decoded alike where segments are read alike from the same bytes, after as many bytes
as were produced and `offset` bytes more. -/
theorem results_decodeFrom {k : Comparison UInt8}
    (hrest : ∀ c d, k.Cursors c d → d.rest = c.rest)
    (hread : ∀ produced,
      k.Agree (Segment.read limit produced) (Segment.read limit' (offset + produced)))
    (hdecode : ∀ (s : Segment) (e : Error), s.decode = .error e → k.Errors e e)
    (hcursors : k.Cursors c d) :
    k.Results (decodeFrom limit produced c) (decodeFrom limit' (offset + produced) d) := by
  -- By induction on what is left to read, which is the same in both runs.
  obtain ⟨n, hn⟩ : ∃ n, c.rest.length = n := ⟨_, rfl⟩
  induction n using Nat.strongRecOn generalizing c d produced with
  | ind n ih =>
    have heq := hrest c d hcursors
    by_cases hne : c.rest = []
    · rw [decodeFrom_of_rest_eq_nil hne, decodeFrom_of_rest_eq_nil (heq.trans hne)]
      exact .ok []
    have hne' : d.rest ≠ [] := heq ▸ hne
    have houtcomes := hread produced c d hcursors
    generalize hx : Segment.read limit produced c = x at houtcomes
    generalize hy : Segment.read limit' (offset + produced) d = y at houtcomes
    -- The segment is compared first. If both runs read it, they read the same one, and decode it
    -- alike.
    cases houtcomes with
    | stop h =>
      rw [decodeFrom_of_read_eq_error hne hx]
      exact .stop h
    | error h =>
      rw [decodeFrom_of_read_eq_error hne hx, decodeFrom_of_read_eq_error hne' hy]
      exact .error h
    | @ok s c' d' h =>
      cases hs : s.decode with
      | error e =>
        rw [decodeFrom_of_decode_eq_error hne hx hs, decodeFrom_of_decode_eq_error hne' hy hs]
        exact .error (hdecode s e hs)
      | ok bytes =>
        -- A segment takes at least its header, so less is left to read.
        have hlt := Segment.rest_length_lt_of_read hx
        rw [Round.decodeFrom_eq ⟨hne, hx, hs⟩, Round.decodeFrom_eq ⟨hne', hy, hs⟩, Nat.add_assoc]
        exact (ih _ (hn ▸ hlt) h rfl).map _

end Frame

end Tans
