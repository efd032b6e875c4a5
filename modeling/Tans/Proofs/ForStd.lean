import Mathlib.Data.List.Count
import Mathlib.Data.List.Forall2

/-!
# Lemmas for the standard library

General facts on computations that may fail, and on counting and setting in lists. Nothing here
knows of coding tables.
-/

namespace Except

variable {ε ε' α β : Type}

/-- Two computations in a row succeed when each does with what the one before it returned. -/
theorem bind_eq_ok_iff {x : Except ε α} {f : α → Except ε β} {b : β} :
    (x >>= f) = .ok b ↔ ∃ a, x = .ok a ∧ f a = .ok b := by
  cases x with
  | error e => simp [bind, Except.bind]
  | ok a => simp [bind, Except.bind]

/-- Two computations in a row fail where one of them does. -/
theorem bind_eq_error_iff {x : Except ε α} {f : α → Except ε β} {e : ε} :
    (x >>= f) = .error e ↔ x = .error e ∨ ∃ a, x = .ok a ∧ f a = .error e := by
  cases x with
  | error e' => simp [bind, Except.bind]
  | ok a => simp [bind, Except.bind]

/-- A mapped computation succeeds when the computation does, with the mapped result. -/
theorem map_eq_ok_iff {f : α → β} {x : Except ε α} {b : β} :
    x.map f = .ok b ↔ ∃ a, x = .ok a ∧ f a = b := by
  cases x with
  | error e => simp [Except.map]
  | ok a => simp [Except.map]

/-- A mapped result changes no error. -/
theorem map_eq_error_iff {f : α → β} {x : Except ε α} {e : ε} :
    x.map f = .error e ↔ x = .error e := by
  cases x <;> simp [Except.map]

/-- A mapped error changes no success. -/
theorem mapError_eq_ok_iff {f : ε → ε'} {x : Except ε α} {a : α} :
    x.mapError f = .ok a ↔ x = .ok a := by
  cases x <;> simp [Except.mapError]

/-- A computation with mapped errors fails when the computation does, with the mapped error. -/
theorem mapError_eq_error_iff {f : ε → ε'} {x : Except ε α} {e' : ε'} :
    x.mapError f = .error e' ↔ ∃ e, x = .error e ∧ f e = e' := by
  cases x <;> simp [Except.mapError]

/-- A list is mapped when each of its elements is. -/
theorem mapM_eq_ok_iff_forall₂ {f : α → Except ε β} {xs : List α} {ys : List β} :
    xs.mapM f = .ok ys ↔ List.Forall₂ (fun x y => f x = .ok y) xs ys := by
  induction xs generalizing ys with
  | nil => simp [pure, Except.pure, eq_comm]
  | cons x xs ih =>
    rw [List.mapM_cons, List.forall₂_cons_left_iff]
    constructor
    · intro h
      -- The head is mapped first, then the tail.
      obtain ⟨y, hy, h⟩ := bind_eq_ok_iff.1 h
      obtain ⟨ys, hys, h⟩ := bind_eq_ok_iff.1 h
      cases h
      exact ⟨y, ys, hy, ih.1 hys, rfl⟩
    · intro h
      obtain ⟨y, ys, hy, hys, rfl⟩ := h
      exact bind_eq_ok_iff.2 ⟨y, hy, bind_eq_ok_iff.2 ⟨ys, ih.2 hys, rfl⟩⟩

/-- A list can be mapped when each of its elements can. -/
theorem exists_mapM_eq_ok_iff {f : α → Except ε β} {xs : List α} :
    (∃ ys, xs.mapM f = .ok ys) ↔ ∀ x ∈ xs, ∃ y, f x = .ok y := by
  induction xs with
  | nil => simp [pure, Except.pure]
  | cons x xs ih =>
    rw [List.forall_mem_cons, ← ih, List.mapM_cons]
    constructor
    · intro ⟨ys, h⟩
      obtain ⟨y, hy, h⟩ := bind_eq_ok_iff.1 h
      obtain ⟨ys, hys, -⟩ := bind_eq_ok_iff.1 h
      exact ⟨⟨y, hy⟩, ys, hys⟩
    · intro ⟨⟨y, hy⟩, ys, hys⟩
      exact ⟨y :: ys, bind_eq_ok_iff.2 ⟨y, hy, bind_eq_ok_iff.2 ⟨ys, hys, rfl⟩⟩⟩

/-- A list is not mapped when one of its elements is not, and the first such element says why. -/
theorem mapM_eq_error_iff {f : α → Except ε β} {xs : List α} {e : ε} :
    xs.mapM f = .error e ↔ ∃ front x back, xs = front ++ x :: back ∧
      (∀ x' ∈ front, ∃ y, f x' = .ok y) ∧ f x = .error e := by
  induction xs with
  | nil => simp [pure, Except.pure]
  | cons x xs ih =>
    rw [List.mapM_cons, bind_eq_error_iff]
    constructor
    -- Either the head fails, or it is mapped and the tail fails; the list built from both cannot.
    · intro h
      rcases h with h | ⟨y, hy, h⟩
      · exact ⟨[], x, xs, rfl, by simp, h⟩
      rcases bind_eq_error_iff.1 h with h | ⟨ys, -, h⟩
      · obtain ⟨front, x', back, rfl, hfront, hx'⟩ := ih.1 h
        exact ⟨x :: front, x', back, rfl, List.forall_mem_cons.2 ⟨⟨y, hy⟩, hfront⟩, hx'⟩
      · cases h
    · intro ⟨front, x', back, hxs, hfront, hx'⟩
      -- An empty `front` puts the failing element at the head, where nothing is mapped before it.
      cases front with
      | nil =>
        cases hxs
        exact .inl hx'
      | cons _ front =>
        obtain ⟨rfl, rfl⟩ := List.cons_eq_cons.1 hxs
        obtain ⟨⟨y, hy⟩, hfront⟩ := List.forall_mem_cons.1 hfront
        exact .inr ⟨y, hy, bind_eq_error_iff.2 (.inl (ih.2 ⟨front, x', back, rfl, hfront, hx'⟩))⟩

/-- A fold from the right fails at an element up to which, from the back, it does not. -/
theorem foldrM_eq_error_iff {f : α → β → Except ε β} {init : β} {xs : List α} {e : ε} :
    xs.foldrM f init = .error e ↔ ∃ front x back b, xs = front ++ x :: back ∧
      back.foldrM f init = .ok b ∧ f x b = .error e := by
  induction xs with
  | nil => simp [pure, Except.pure]
  | cons x xs ih =>
    rw [List.foldrM_cons, bind_eq_error_iff]
    constructor
    -- From the right, the tail is folded first: it fails, or the head does on what it gives.
    · intro h
      rcases h with h | ⟨b, hb, h⟩
      · obtain ⟨front, x', back, b, rfl, hb, hx'⟩ := ih.1 h
        exact ⟨x :: front, x', back, b, rfl, hb, hx'⟩
      · exact ⟨[], x, xs, b, rfl, hb, h⟩
    · intro ⟨front, x', back, b, hxs, hb, hx'⟩
      cases front with
      | nil =>
        cases hxs
        exact .inr ⟨b, hb, hx'⟩
      | cons _ front =>
        obtain ⟨rfl, rfl⟩ := List.cons_eq_cons.1 hxs
        exact .inl (ih.2 ⟨front, x', back, b, rfl, hb, hx'⟩)

/-- A fold from the left fails at an element up to which it does not. -/
theorem foldlM_eq_error_iff {f : β → α → Except ε β} {init : β} {xs : List α} {e : ε} :
    xs.foldlM f init = .error e ↔ ∃ front x back b, xs = front ++ x :: back ∧
      front.foldlM f init = .ok b ∧ f b x = .error e := by
  -- The accumulator changes from step to step, so the induction is for all of them.
  induction xs generalizing init with
  | nil => simp [pure, Except.pure]
  | cons x xs ih =>
    rw [List.foldlM_cons, bind_eq_error_iff]
    constructor
    · intro h
      rcases h with h | ⟨b₁, hb₁, h⟩
      · exact ⟨[], x, xs, init, rfl, rfl, h⟩
      · obtain ⟨front, x', back, b, rfl, hb, hx'⟩ := ih.1 h
        exact ⟨x :: front, x', back, b, rfl, bind_eq_ok_iff.2 ⟨b₁, hb₁, hb⟩, hx'⟩
    · intro ⟨front, x', back, b, hxs, hb, hx'⟩
      cases front with
      | nil =>
        cases hxs
        cases hb
        exact .inl hx'
      | cons _ front =>
        obtain ⟨rfl, rfl⟩ := List.cons_eq_cons.1 hxs
        obtain ⟨b₁, hb₁, hb⟩ := bind_eq_ok_iff.1 hb
        exact .inr ⟨b₁, hb₁, ih.2 ⟨front, x', back, b, rfl, hb, hx'⟩⟩

/-- Two lists in a row are mapped when each of them is. -/
theorem mapM_append_eq_ok_iff {f : α → Except ε β} {xs ys : List α} {zs : List β} :
    (xs ++ ys).mapM f = .ok zs ↔
      ∃ us vs, xs.mapM f = .ok us ∧ ys.mapM f = .ok vs ∧ zs = us ++ vs := by
  rw [List.mapM_append]
  constructor
  · intro h
    obtain ⟨us, hus, h⟩ := bind_eq_ok_iff.1 h
    obtain ⟨vs, hvs, h⟩ := bind_eq_ok_iff.1 h
    cases h
    exact ⟨us, vs, hus, hvs, rfl⟩
  · intro h
    obtain ⟨us, vs, hus, hvs, rfl⟩ := h
    exact bind_eq_ok_iff.2 ⟨us, hus, bind_eq_ok_iff.2 ⟨vs, hvs, rfl⟩⟩

end Except

namespace List

/-- An index into pieces in a row is one into the first pieces, or into the one behind them. -/
theorem exists_append_cons_of_lt_length_flatMap {β γ : Type} {f : β → List γ} {xs : List β}
    {i : Nat} (h : i < (xs.flatMap f).length) :
    ∃ front x back k, xs = front ++ x :: back ∧ i = (front.flatMap f).length + k ∧
      k < (f x).length := by
  -- Induction on the pieces: an index is in the first one, or is that far behind it.
  induction xs generalizing i with
  | nil => exact absurd h (Nat.not_lt_zero _)
  | cons x xs ih =>
    rw [flatMap_cons, length_append] at h
    by_cases hi : i < (f x).length
    · exact ⟨[], x, xs, i, rfl, (Nat.zero_add i).symm, hi⟩
    · obtain ⟨front, y, back, k, rfl, hk, hlt⟩ := ih (i := i - (f x).length) (by omega)
      refine ⟨x :: front, y, back, k, rfl, ?_, hlt⟩
      rw [flatMap_cons, length_append]
      omega

/-- Elements that give nothing can be left out. -/
theorem flatMap_filter_of_eq_nil {β γ : Type} {f : β → List γ} {p : β → Bool} {xs : List β}
    (h : ∀ x ∈ xs, p x = false → f x = []) : (xs.filter p).flatMap f = xs.flatMap f := by
  induction xs with
  | nil => rfl
  | cons x xs ih =>
    obtain ⟨hx, hxs⟩ := forall_mem_cons.1 h
    rw [filter_cons, flatMap_cons, ← ih hxs]
    by_cases hp : p x
    · rw [if_pos hp, flatMap_cons]
    · rw [if_neg hp, hx (by simpa using hp), nil_append]

/-! ### Largest elements -/

/-- One more than the largest element bounds all elements, and is the least number that does. -/
theorem elim_max?_succ_le_iff {l : List Nat} {n : Nat} :
    l.max?.elim 0 (· + 1) ≤ n ↔ ∀ a ∈ l, a < n := by
  cases h : l.max? with
  -- Without a largest element there is none at all.
  | none =>
    rw [max?_eq_none_iff.1 h]
    simp
  | some m =>
    obtain ⟨hmem, hle⟩ := max?_eq_some_iff.1 h
    exact ⟨fun hm a ha => Nat.lt_of_le_of_lt (hle a ha) hm, fun hall => hall m hmem⟩

/-- The last element of an ascending list is the largest. -/
theorem getLast?_eq_max? {l : List Nat} (hl : l.Pairwise (· < ·)) : l.getLast? = l.max? := by
  cases h : l.getLast? with
  | none => rw [getLast?_eq_none_iff.1 h, max?_nil]
  | some m =>
    obtain ⟨front, rfl⟩ := getLast?_eq_some_iff.1 h
    have hfront := (pairwise_append.1 hl).2.2
    -- `m` is in the list, and all before it are smaller.
    refine (max?_eq_some_iff.2 ⟨by simp, fun a ha => ?_⟩).symm
    rcases mem_append.1 ha with ha | ha
    · exact Nat.le_of_lt (hfront a ha m (mem_singleton_self m))
    · exact Nat.le_of_eq (mem_singleton.1 ha)

variable {α : Type} [BEq α]

/-! ### First occurrences -/

/-- An element that has occurred adds no first occurrence. -/
theorem eraseDups_append_singleton_of_mem [LawfulBEq α] {l : List α} {a : α} (h : a ∈ l) :
    (l ++ [a]).eraseDups = l.eraseDups := by
  rw [eraseDups_append, removeAll, filter_cons_of_neg (by simpa using h), filter_nil,
    eraseDups_nil, append_nil]

/-- An element that has not occurred is a first occurrence, at the end. -/
theorem eraseDups_append_singleton_of_notMem [LawfulBEq α] {l : List α} {a : α} (h : a ∉ l) :
    (l ++ [a]).eraseDups = l.eraseDups ++ [a] := by
  rw [eraseDups_append, removeAll, filter_cons_of_pos (by simpa using h), filter_nil,
    eraseDups_cons, filter_nil, eraseDups_nil]

/-! ### Occurrences

The occurrences of an element in a list are numbered from zero: the one at index `i` has the number
`(l.take i).count a`. -/

/-- A longer part has no fewer occurrences. -/
theorem count_take_le {l : List α} {a : α} {i k : Nat} (h : i ≤ k) :
    (l.take i).count a ≤ (l.take k).count a :=
  (List.take_sublist_take_left h).count_le a

variable [LawfulBEq α]

/-- The part that ends behind an occurrence has one more. -/
theorem count_take_succ {l : List α} {a : α} {i : Nat} (h : l[i]? = some a) :
    (l.take (i + 1)).count a = (l.take i).count a + 1 := by
  rw [List.take_add_one, h]
  simp

/-- The number of an occurrence is below the number of occurrences. -/
theorem count_take_lt {l : List α} {a : α} {i : Nat} (h : l[i]? = some a) :
    (l.take i).count a < l.count a := by
  have hsucc := count_take_succ h
  have hle : (l.take (i + 1)).count a ≤ l.count a := (List.take_sublist _ _).count_le a
  omega

/-- An earlier occurrence has a smaller number. -/
theorem count_take_lt_count_take {l : List α} {a : α} {i k : Nat} (h : l[i]? = some a)
    (hik : i < k) : (l.take i).count a < (l.take k).count a := by
  have hsucc := count_take_succ h
  have hle : (l.take (i + 1)).count a ≤ (l.take k).count a := count_take_le hik
  omega

/-- Different occurrences of an element have different numbers. -/
theorem eq_of_count_take_eq {l : List α} {a : α} {i k : Nat} (hi : l[i]? = some a)
    (hk : l[k]? = some a) (h : (l.take i).count a = (l.take k).count a) : i = k := by
  -- The numbers would differ if one occurrence were before the other.
  rcases Nat.lt_trichotomy i k with hlt | heq | hgt
  · have := count_take_lt_count_take hi hlt
    omega
  · exact heq
  · have := count_take_lt_count_take hk hgt
    omega

/-- Every number below the number of occurrences belongs to one of them. -/
theorem exists_getElem?_eq_and_count_take {l : List α} {a : α} {j : Nat} (h : j < l.count a) :
    ∃ i, l[i]? = some a ∧ (l.take i).count a = j := by
  have hlt := idxOfNth_lt_length_of_lt_count h
  refine ⟨l.idxOfNth a j, ?_, ?_⟩
  · rw [getElem?_eq_getElem hlt, getElem_idxOfNth_eq]
  · rw [← countBefore_eq_count_take, countBefore_idxOfNth_of_lt_count h]

end List

namespace Array

variable {α β : Type}

/-- An array is listed by its indices. -/
theorem toList_eq_map_range (xs : Array α) (d : α) :
    xs.toList = (List.range xs.size).map fun i => xs.getD i d := by
  apply List.ext_getElem
  · simp
  · intro i hi _
    have hi : i < xs.size := by simpa using hi
    simp [hi]

/-- Modifying an element leaves those at other indices alone. -/
theorem getD_modify (xs : Array α) (f : α → α) {i : Nat} (hi : i < xs.size) (d : α) (j : Nat) :
    (xs.modify i f).getD j d = if j = i then f (xs.getD i d) else xs.getD j d := by
  by_cases hj : j = i
  · subst hj
    simp [hi, Array.getElem_modify]
  · simp [hj, Array.getElem?_modify, Ne.symm hj]

/-- Setting elements keeps the size. -/
theorem size_foldl_setIfInBounds {pairs : List (Nat × β)} {xs : Array α} (f : β → α) :
    (pairs.foldl (fun xs p => xs.setIfInBounds p.1 (f p.2)) xs).size = xs.size := by
  induction pairs generalizing xs with
  | nil => rfl
  | cons p pairs ih => rw [List.foldl_cons, ih, Array.size_setIfInBounds]

/-- Setting elements leaves those at other indices alone. -/
theorem getElem?_foldl_setIfInBounds_of_notMem {pairs : List (Nat × β)} {xs : Array α}
    (f : β → α) {i : Nat} (h : i ∉ pairs.map Prod.fst) :
    (pairs.foldl (fun xs p => xs.setIfInBounds p.1 (f p.2)) xs)[i]? = xs[i]? := by
  -- Each step sets an index that is not `i`.
  induction pairs generalizing xs with
  | nil => rfl
  | cons p pairs ih =>
    rw [List.map_cons, List.mem_cons, not_or] at h
    rw [List.foldl_cons, ih h.2, Array.getElem?_setIfInBounds_ne (Ne.symm h.1)]

/-- Setting elements at distinct indices puts each of them in its place. -/
theorem getElem?_foldl_setIfInBounds {pairs : List (Nat × β)} {xs : Array α} (f : β → α)
    {p : Nat × β} (hp : p ∈ pairs) (hnodup : (pairs.map Prod.fst).Nodup) (hlt : p.1 < xs.size) :
    (pairs.foldl (fun xs p => xs.setIfInBounds p.1 (f p.2)) xs)[p.1]? = some (f p.2) := by
  induction pairs generalizing xs with
  | nil => exact nomatch hp
  | cons q pairs ih =>
    rw [List.map_cons, List.nodup_cons] at hnodup
    rw [List.foldl_cons]
    -- The first pair is set now, and no later pair has its index; all others are set later.
    rcases List.mem_cons.1 hp with rfl | hp
    · rw [getElem?_foldl_setIfInBounds_of_notMem f hnodup.1,
        Array.getElem?_setIfInBounds_self_of_lt hlt]
    · exact ih hp hnodup.2 (by simpa using hlt)

end Array
