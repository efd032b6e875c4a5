import Tans.Bits.Lemmas

/-!
# Reading back what was written

A read that succeeds moves the cursor over some elements. What was written in a fixed size is read
back from where it stands, and nothing else is read as the same value.

* `Cursor.Moved`: the elements that lie between two cursors.
* `Cursor.moved_append_iff`: they are passed one part after the other.
* `Cursor.Raises.bind`: what two reads in a row report.
* `Bits.read_eq_ok_iff_moved`: a read of bits passes the field of the number that it returns.
-/

namespace Tans

namespace Cursor

variable {α β γ : Type} {c c' c₁ : Cursor α} {xs ys : List α}

/-- The elements `xs` are next at the cursor `c`, and `c'` is just behind them. -/
structure Moved (c : Cursor α) (xs : List α) (c' : Cursor α) : Prop where
  rest_eq : c.rest = xs ++ c'.rest
  pos_eq : c'.pos = c.pos + xs.length

/-- Nothing lies between a cursor and itself, and between no two others. -/
theorem moved_nil_iff : c.Moved [] c' ↔ c' = c := by
  constructor
  · intro h
    obtain ⟨rest, pos⟩ := c
    obtain ⟨rest', pos'⟩ := c'
    obtain ⟨hrest, hpos⟩ := h
    simp only [List.nil_append] at hrest
    simp only [List.length_nil, Nat.add_zero] at hpos
    rw [hrest, hpos]
  · intro h
    rw [h]
    exact ⟨rfl, rfl⟩

/-- Elements are passed one part after the other. -/
theorem moved_append_iff : c.Moved (xs ++ ys) c' ↔ ∃ c₁, c.Moved xs c₁ ∧ c₁.Moved ys c' := by
  constructor
  · intro h
    -- The cursor in between has passed `xs` and has `ys` ahead.
    refine ⟨⟨ys ++ c'.rest, c.pos + xs.length⟩, ⟨?_, rfl⟩, ⟨rfl, ?_⟩⟩
    · rw [h.rest_eq, List.append_assoc]
    · rw [h.pos_eq, List.length_append, Nat.add_assoc]
  · intro h
    obtain ⟨c₁, hxs, hys⟩ := h
    constructor
    · rw [hxs.rest_eq, hys.rest_eq, List.append_assoc]
    · rw [hys.pos_eq, hxs.pos_eq, List.length_append, Nat.add_assoc]

/-- Two moves in a row are one. -/
theorem Moved.append (hxs : c.Moved xs c₁) (hys : c₁.Moved ys c') : c.Moved (xs ++ ys) c' :=
  moved_append_iff.2 ⟨c₁, hxs, hys⟩

/-- Taking `n` elements moves the cursor over them. -/
theorem take_eq_ok_iff_moved {n : Nat} {short : Cursor α → StreamFault} :
    take n short c = .ok xs c' ↔ xs.length = n ∧ c.Moved xs c' := by
  rw [take_eq_ok_iff]
  constructor
  · intro h
    obtain ⟨hle, rfl, rfl⟩ := h
    have hlen : (c.rest.take n).length = n := List.length_take_of_le hle
    exact ⟨hlen, (List.take_append_drop n c.rest).symm, by rw [hlen]⟩
  · intro h
    obtain ⟨rfl, hrest, hpos⟩ := h
    rw [hrest, List.take_left, List.drop_left, ← hpos]
    exact ⟨by rw [List.length_append]; omega, rfl, rfl⟩

/-- A mapped reading moves the cursor as the reading does. -/
theorem map_eq_ok_iff {x : Reading α β} {f : β → γ} {b : γ} :
    (f <$> x) c = .ok b c' ↔ ∃ a, x c = .ok a c' ∧ f a = b := by
  simp only [Functor.map, EStateM.map]
  split
  · next a c₁ h =>
    rw [h]
    simp only [EStateM.Result.ok.injEq]
    constructor
    · intro ⟨hb, hc⟩
      exact ⟨a, ⟨rfl, hc⟩, hb⟩
    · intro ⟨_, ⟨ha, hc⟩, hb⟩
      exact ⟨by rw [ha, hb], hc⟩
  · next e c₁ h => simp [h]

/-- Values that are stored in `n` elements each are read back, if unpacking undoes packing and the
other way round. -/
theorem map_take_eq_ok_iff {n : Nat} {short : Cursor α → StreamFault} {unpack : List α → β}
    {pack : β → List α} {Fits : β → Prop}
    (hunpack : ∀ xs, xs.length = n → Fits (unpack xs) ∧ pack (unpack xs) = xs)
    (hpack : ∀ b, Fits b → (pack b).length = n ∧ unpack (pack b) = b) {b : β} :
    (unpack <$> take n short) c = .ok b c' ↔ Fits b ∧ c.Moved (pack b) c' := by
  rw [map_eq_ok_iff]
  constructor
  · intro h
    -- What was taken is the packed form of what it is unpacked to.
    obtain ⟨xs, htake, rfl⟩ := h
    obtain ⟨hlen, hmoved⟩ := take_eq_ok_iff_moved.1 htake
    obtain ⟨hfits, hxs⟩ := hunpack xs hlen
    rw [hxs]
    exact ⟨hfits, hmoved⟩
  · intro h
    obtain ⟨hfits, hmoved⟩ := h
    obtain ⟨hlen, hb⟩ := hpack b hfits
    exact ⟨pack b, take_eq_ok_iff_moved.2 ⟨hlen, hmoved⟩, hb⟩

/-- After a read that succeeded, the next one starts where it stopped. -/
theorem bind_of_eq_ok {x : Reading α β} {f : β → Reading α γ} {b : β} (h : x c = .ok b c') :
    (x >>= f) c = f b c' := by
  simp [bind, EStateM.bind, h]

/-! ### Errors -/

/-- What a reading reports at a cursor, if it fails there, has a property. -/
def Raises (P : Error → Prop) (x : Reading α β) (c : Cursor α) : Prop :=
  ∀ e c', x c = .error e c' → P e

variable {P : Error → Prop} {x : Reading α β} {f : β → Reading α γ}

/-- What reads nothing reports nothing. -/
theorem raises_pure (b : β) : Raises P (pure b : Reading α β) c :=
  fun _ _ h => nomatch h

/-- A reading that only fails leaves the cursor where it is. -/
theorem throw_eq_error_iff {e e' : Error} :
    (throw e : Reading α β) c = .error e' c' ↔ c' = c ∧ e' = e := by
  show EStateM.Result.error e c = .error e' c' ↔ _
  rw [EStateM.Result.error.injEq, and_comm, eq_comm, eq_comm (a := e)]

/-- A failure reports its error. -/
theorem raises_throw {e : Error} (he : P e) : Raises P (throw e : Reading α β) c := by
  intro e' c' h
  rwa [(throw_eq_error_iff.1 h).2]

/-- Two reads in a row fail where one of them does. -/
theorem bind_eq_error_iff {e : Error} :
    (x >>= f) c = .error e c' ↔
      x c = .error e c' ∨ ∃ b c₁, x c = .ok b c₁ ∧ f b c₁ = .error e c' := by
  simp only [Bind.bind, EStateM.bind]
  split
  · next b c₁ h => simp [h]
  · next e₁ c₁ h => simp [h]

/-- Two reads in a row report what one of them does. -/
theorem Raises.bind (hx : Raises P x c) (hf : ∀ b c₁, x c = .ok b c₁ → Raises P (f b) c₁) :
    Raises P (x >>= f) c := by
  intro e c' h
  rcases bind_eq_error_iff.1 h with hx' | ⟨b, c₁, hb, hf'⟩
  · exact hx e c' hx'
  · exact hf b c₁ hb e c' hf'

/-- A mapped reading fails where the reading does. -/
theorem map_eq_error_iff {g : β → γ} {e : Error} :
    (g <$> x) c = .error e c' ↔ x c = .error e c' := by
  simp only [Functor.map, EStateM.map]
  split
  · next a c₁ h => simp [h]
  · next e₁ c₁ h => simp [h]

/-- A mapped reading reports what the reading does. -/
theorem Raises.map (hx : Raises P x c) (g : β → γ) : Raises P (g <$> x) c :=
  fun e c' h => hx e c' (map_eq_error_iff.1 h)

end Cursor

/-- A read fails if fewer bits are left than it asks for, and does not move then. -/
theorem Bits.read_eq_error_iff {width : Nat} {c c' : Cursor Bool} {e : Error} :
    read width c = .error e c' ↔
      c.rest.length < width ∧ e = .corrupt (.shortRead width c.pos c.remaining) ∧ c' = c := by
  rw [read, Cursor.map_eq_error_iff, Cursor.take_eq_error_iff]

/-- A read succeeds where the field of the number that it returns was written. -/
theorem Bits.read_eq_ok_iff_moved {width value : Nat} {c c' : Cursor Bool} :
    read width c = .ok value c' ↔ value < 2 ^ width ∧ c.Moved (ofNat width value) c' := by
  -- Bits are packed numbers: `width` of them show a number below `2 ^ width`, and back.
  apply Cursor.map_take_eq_ok_iff
  · intro bits hlen
    subst hlen
    exact ⟨toNat_lt bits, ofNat_toNat bits⟩
  · intro value hlt
    rw [toNat_ofNat, Nat.mod_eq_of_lt hlt]
    exact ⟨length_ofNat width value, rfl⟩

end Tans
