import Tans.Error

/-!
# Cursors

A cursor is a place in a list that is read front to back: what is left of the list, and how many
elements lie before. Bits and bytes are both read through cursors.

A read either moves the cursor past what it returns, or reports an error and leaves the cursor
where it stands.

* `Cursor.take_eq_ok_iff`: a take succeeds with exactly the next elements and moves just past them.
* `EStateM.bind_eq_ok_iff`: two reads in a row succeed when each does where the other left off.
-/

/-- Two computations in a row succeed when each does in the state that the one before it left. -/
theorem EStateM.bind_eq_ok_iff {ε σ α β : Type} {x : EStateM ε σ α} {f : α → EStateM ε σ β}
    {s s'' : σ} {b : β} :
    (x >>= f) s = .ok b s'' ↔ ∃ a s', x s = .ok a s' ∧ f a s' = .ok b s'' := by
  simp only [bind, EStateM.bind]
  split
  · next a s' h =>
    refine ⟨fun hf => ⟨a, s', h, hf⟩, ?_⟩
    rintro ⟨a', s₁, hx, hf⟩
    rw [h] at hx
    cases hx
    exact hf
  · next e s' h => simp [h]

namespace Tans

/-- What is left to read of a list, and the number of elements that were passed. -/
structure Cursor (α : Type) where
  rest : List α
  pos : Nat

namespace Cursor

variable {α β : Type}

/-- The cursor at an index of a list, which may lie past the end. -/
def ofList (xs : List α) (offset : Nat) : Cursor α := ⟨xs.drop offset, offset⟩

/-- The number of elements that are left. -/
def remaining (c : Cursor α) : Nat := c.rest.length

/-- A computation that reads through a cursor. Its outcome says where the cursor is left. -/
abbrev Reading (α β : Type) := EStateM Error (Cursor α) β

/-- Takes the next `n` elements. If fewer are left the cursor stays and `short` names the fault. -/
def take (n : Nat) (short : Cursor α → StreamFault) : Reading α (List α) := fun c =>
  let xs := c.rest.take n
  if xs.length < n then .error (.corrupt (short c)) c
  else .ok xs ⟨c.rest.drop n, c.pos + n⟩

/-- A take succeeds if as many elements are left, and returns the next ones. -/
theorem take_eq_ok_iff {n : Nat} {short : Cursor α → StreamFault} {c c' : Cursor α}
    {xs : List α} :
    take n short c = .ok xs c' ↔
      n ≤ c.rest.length ∧ xs = c.rest.take n ∧ c' = ⟨c.rest.drop n, c.pos + n⟩ := by
  unfold take
  simp only [List.length_take]
  split
  · next h => simp; omega
  · next h =>
    simp only [EStateM.Result.ok.injEq]
    exact ⟨fun ⟨h₁, h₂⟩ => ⟨by omega, h₁.symm, h₂.symm⟩, fun ⟨_, h₁, h₂⟩ => ⟨h₁.symm, h₂.symm⟩⟩

/-- A take fails if fewer elements are left, and leaves the cursor where it is. -/
theorem take_eq_error_iff {n : Nat} {short : Cursor α → StreamFault} {c c' : Cursor α}
    {e : Error} :
    take n short c = .error e c' ↔ c.rest.length < n ∧ e = .corrupt (short c) ∧ c' = c := by
  unfold take
  simp only [List.length_take]
  split
  · next h =>
    simp only [EStateM.Result.error.injEq]
    exact ⟨fun ⟨h₁, h₂⟩ => ⟨by omega, h₁.symm, h₂.symm⟩, fun ⟨_, h₁, h₂⟩ => ⟨h₁.symm, h₂.symm⟩⟩
  · next h => simp; omega

end Cursor

end Tans
