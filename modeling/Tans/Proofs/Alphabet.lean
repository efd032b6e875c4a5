import Mathlib.Algebra.Order.BigOperators.Group.List
import Mathlib.Algebra.Order.Ring.Nat
import Mathlib.Data.List.Forall2
import Tans.Alphabet
import Tans.Proofs.ForStd

/-!
# What an alphabet records

The symbols of a sequence and their ids determine each other. An alphabet that was built from
counted symbols lists them in the order of their first arrival, and its histogram has the sum of
the counts of each symbol, up to the largest number of 32 bits.

* `Alphabet.symbolsOf_eq_ok_iff`: looking up ids and looking up symbols undo each other.
* `Alphabet.Counted.Records.add`, `Alphabet.records_of_ofCounts`: what is recorded after one pair
  and after all of them.
* `Alphabet.exists_ofCounts`: enough ids are all that is needed.
-/

namespace Tans

namespace Histogram

/-- The count of an id grows by a number, but not past the largest number of 32 bits. -/
def bump (h : Histogram) (id : Nat) (n : UInt32) : Histogram :=
  ⟨h.counts.modify id fun m => UInt32.ofNat (min (m.toNat + n.toNat) 0xFFFFFFFF)⟩

/-- Only the count of the bumped id changes, and it saturates. -/
theorem count_bump {h : Histogram} {id : Nat} (hid : id < h.alphabetSize) (n : UInt32) (i : Nat) :
    (h.bump id n).count i =
      if i = id then min (h.count i + n.toNat) (2 ^ 32 - 1) else h.count i := by
  have hid : id < h.counts.size := hid
  by_cases hi : i = id
  · subst hi
    -- The saturated sum is a number of 32 bits, so nothing is cut off.
    have hlt : min (h.counts[i].toNat + n.toNat) 0xFFFFFFFF < UInt32.size :=
      Nat.lt_of_le_of_lt (Nat.min_le_right _ _) (by decide)
    rw [if_pos rfl]
    simp only [count, bump, Array.getD_eq_getD_getElem?, Array.getElem?_modify, if_true,
      Array.getElem?_eq_getElem hid, Option.map_some, Option.getD_some]
    exact UInt32.toNat_ofNat_of_lt' hlt
  · rw [if_neg hi]
    simp [count, bump, Array.getElem?_modify, Ne.symm hi]

/-- Pushing a count leaves those of other ids alone. -/
theorem count_push (h : Histogram) (n : UInt32) (i : Nat) :
    (⟨h.counts.push n⟩ : Histogram).count i = if i = h.alphabetSize then n.toNat else h.count i := by
  simp only [count, alphabetSize, Array.getD_eq_getD_getElem?, Array.getElem?_push]
  split <;> rfl

end Histogram

namespace Alphabet

/-! ### Counts of a symbol -/

section

variable {σ : Type} [BEq σ]

/-- The sum of the counts that come with a symbol. -/
def countOf (pairs : List (σ × UInt32)) (s : σ) : Nat :=
  ((pairs.filter fun p => p.1 == s).map fun p => p.2.toNat).sum

/-- Counts of a symbol add up over pairs in a row. -/
theorem countOf_append (pairs pairs' : List (σ × UInt32)) (s : σ) :
    countOf (pairs ++ pairs') s = countOf pairs s + countOf pairs' s := by
  simp [countOf]

variable [LawfulBEq σ]

/-- A pair counts its symbol. -/
theorem countOf_singleton_self (s : σ) (n : UInt32) : countOf [(s, n)] s = n.toNat := by
  simp [countOf]

/-- A pair counts no other symbol. -/
theorem countOf_singleton_of_ne {s s' : σ} (h : s ≠ s') (n : UInt32) :
    countOf [(s, n)] s' = 0 := by
  simp [countOf, h]

/-- A symbol that comes in no pair has no count. -/
theorem countOf_eq_zero {pairs : List (σ × UInt32)} {s : σ} (h : s ∉ pairs.map Prod.fst) :
    countOf pairs s = 0 := by
  have hnone : pairs.filter (fun p => p.1 == s) = [] := by
    rw [List.filter_eq_nil_iff]
    intro p hp heq
    exact h (List.mem_map.2 ⟨p, hp, eq_of_beq heq⟩)
  rw [countOf, hnone, List.map_nil, List.sum_nil]

/-- A symbol that comes with a positive count has a positive sum. -/
theorem countOf_pos {pairs : List (σ × UInt32)} {s : σ} {n : UInt32} (h : (s, n) ∈ pairs)
    (hn : 0 < n) : 0 < countOf pairs s := by
  have hmem : n.toNat ∈ (pairs.filter fun p => p.1 == s).map fun p => p.2.toNat :=
    List.mem_map.2 ⟨(s, n), List.mem_filter.2 ⟨h, beq_self_eq_true s⟩, rfl⟩
  exact Nat.lt_of_lt_of_le (UInt32.lt_iff_toNat_lt.1 hn) (List.le_sum_of_mem hmem)

end

variable {σ : Type} [BEq σ] [Hashable σ] {a : Alphabet σ}

/-! ### Looking up sequences -/

/-- The ids of a sequence are the ids of its symbols, one by one. -/
theorem idsFrom_eq_ok_iff {position : Nat} {data : List σ} {ids : List UInt16} :
    a.idsFrom position data = .ok ids ↔
      List.Forall₂ (fun s id => a.id? s = some id) data ids := by
  induction data generalizing position ids with
  | nil => simp [idsFrom, eq_comm]
  | cons s data ih =>
    rw [idsFrom, List.forall₂_cons_left_iff]
    -- The first symbol has an id, or the sequence ends with an error at it.
    cases hs : a.id? s with
    | none => simp
    | some id =>
      simp only [Except.map_eq_ok_iff, ih, Option.some.injEq]
      constructor
      · intro h
        obtain ⟨rest, hrest, rfl⟩ := h
        exact ⟨id, rest, rfl, hrest, rfl⟩
      · intro h
        obtain ⟨_, rest, rfl, hrest, rfl⟩ := h
        exact ⟨rest, hrest, rfl⟩

/-- The symbols of a sequence of ids are those that have these ids, one by one. -/
theorem symbolsOf_eq_ok_iff_forall₂ {ids : List UInt16} {data : List σ} :
    a.symbolsOf ids = .ok data ↔ List.Forall₂ (fun s id => a.id? s = some id) data ids := by
  induction ids generalizing data with
  | nil => simp [symbolsOf, eq_comm]
  | cons id ids ih =>
    rw [symbolsOf, List.forall₂_cons_right_iff]
    -- A symbol has an id when the id has the symbol, so the other table is looked at.
    simp only [id?_eq_some_iff]
    simp only [id?_eq_some_iff] at ih
    cases hid : a.symbol? id with
    | none => simp
    | some s =>
      simp only [Except.map_eq_ok_iff, ih, Option.some.injEq]
      constructor
      · intro h
        obtain ⟨rest, hrest, rfl⟩ := h
        exact ⟨s, rest, rfl, hrest, rfl⟩
      · intro h
        obtain ⟨_, rest, rfl, hrest, rfl⟩ := h
        exact ⟨rest, hrest, rfl⟩

/-- Looking up ids and looking up symbols undo each other. -/
theorem symbolsOf_eq_ok_iff {ids : List UInt16} {data : List σ} :
    a.symbolsOf ids = .ok data ↔ a.idsOf data = .ok ids := by
  rw [symbolsOf_eq_ok_iff_forall₂, idsOf, idsFrom_eq_ok_iff]

/-- A sequence has ids if each of its symbols does. -/
theorem exists_idsOf {data : List σ} (h : ∀ s ∈ data, ∃ id, a.id? s = some id) :
    ∃ ids, a.idsOf data = .ok ids := by
  simp only [idsOf, idsFrom_eq_ok_iff]
  induction data with
  | nil => exact ⟨[], .nil⟩
  | cons s data ih =>
    obtain ⟨hs, hdata⟩ := List.forall_mem_cons.1 h
    obtain ⟨id, hid⟩ := hs
    obtain ⟨ids, hids⟩ := ih hdata
    exact ⟨id :: ids, .cons hid hids⟩

/-- The ids that a sequence is turned into are ids of its symbols. -/
theorem exists_mem_of_idsOf {data : List σ} {ids : List UInt16} (h : a.idsOf data = .ok ids) :
    ∀ id ∈ ids, ∃ s ∈ data, a.id? s = some id := by
  rw [idsOf, idsFrom_eq_ok_iff] at h
  induction h with
  | nil => simp
  | cons hs _ ih =>
    intro id hid
    rcases List.mem_cons.1 hid with rfl | hid
    · exact ⟨_, List.mem_cons_self, hs⟩
    · obtain ⟨s, hmem, hs⟩ := ih id hid
      exact ⟨s, List.mem_cons_of_mem _ hmem, hs⟩

/-- The symbols that have an id are those that are listed. -/
theorem exists_id?_eq_some_iff {s : σ} : (∃ id, a.id? s = some id) ↔ s ∈ a.symbols := by
  constructor
  · intro h
    obtain ⟨id, hid⟩ := h
    exact Array.mem_of_getElem? ((a.id?_eq_some_iff s id).1 hid)
  · intro h
    obtain ⟨i, hi⟩ := Array.mem_iff_getElem?.1 h
    -- The index is an id, because the alphabet is not larger than sixteen bits can tell apart.
    have hlt : i < UInt16.size :=
      Nat.lt_of_lt_of_le (Array.getElem?_eq_some_iff.1 hi).1 a.size_le
    refine ⟨UInt16.ofNat i, (a.id?_eq_some_iff s _).2 ?_⟩
    rwa [symbol?, UInt16.toNat_ofNat_of_lt' hlt]

namespace Counted

variable {c c' : Counted σ} {pairs : List (σ × UInt32)} {s : σ} {n : UInt32}

/-- Counted symbols are a record of some pairs: the symbols are listed in the order of their first
arrival, and the count of each one is the sum of the counts it came with, or the largest number of
32 bits if that is less. -/
structure Records (c : Counted σ) (pairs : List (σ × UInt32)) : Prop where
  symbols_eq : c.alphabet.symbols.toList = (pairs.map Prod.fst).eraseDups
  alphabetSize_eq : c.histogram.alphabetSize = c.alphabet.size
  count_eq : ∀ s id, c.alphabet.id? s = some id →
    c.histogram.count id.toNat = min (countOf pairs s) (2 ^ 32 - 1)

/-- There are as many symbols as different ones in the pairs. -/
theorem Records.size_eq (h : c.Records pairs) :
    c.alphabet.size = (pairs.map Prod.fst).eraseDups.length := by
  rw [← h.symbols_eq, Array.length_toList, size]

/-- An id of the alphabet has a count in the histogram. -/
theorem Records.toNat_lt (h : c.Records pairs) {id : UInt16} (hid : c.alphabet.id? s = some id) :
    id.toNat < c.histogram.alphabetSize := by
  rw [h.alphabetSize_eq]
  exact (Array.getElem?_eq_some_iff.1 ((c.alphabet.id?_eq_some_iff s id).1 hid)).1

variable [LawfulBEq σ]

/-- A symbol that is known is counted under its id. A new one is listed last. -/
theorem add_cases (h : c.add s n = .ok c') :
    (∃ id, c.alphabet.id? s = some id ∧ c'.alphabet = c.alphabet ∧
      c'.histogram = c.histogram.bump id.toNat n) ∨
    (c.alphabet.id? s = none ∧ c'.alphabet.symbols = c.alphabet.symbols.push s ∧
      c'.histogram = ⟨c.histogram.counts.push n⟩) := by
  -- The two branches that return are a known symbol and one that was pushed.
  unfold add at h
  split at h
  · next id hs =>
    cases h
    exact .inl ⟨id, hs, rfl, rfl⟩
  · next hs =>
    split at h
    · next alphabet hpush =>
      cases h
      unfold push? at hpush
      split at hpush
      · cases hpush
        exact .inr ⟨hs, rfl, rfl⟩
      · exact nomatch hpush
    · exact nomatch h

/-- A symbol is added if it is known or if there is an id left for it. -/
theorem exists_add (h : s ∈ c.alphabet.symbols ∨ c.alphabet.size < maxAlphabetSize) :
    ∃ c', c.add s n = .ok c' := by
  unfold add
  split
  · exact ⟨_, rfl⟩
  · next hs =>
    -- A symbol that was not found is not listed, so it needs an id.
    have hnew : s ∉ c.alphabet.symbols := by
      rw [← exists_id?_eq_some_iff, hs]
      simp
    have hsize : c.alphabet.symbols.size < maxAlphabetSize := h.resolve_left hnew
    rw [push?, dif_pos hsize]
    exact ⟨_, rfl⟩

/-! ### What is recorded -/

/-- The symbols that are listed are those of the pairs. -/
theorem Records.mem_symbols_iff (h : c.Records pairs) :
    s ∈ c.alphabet.symbols ↔ s ∈ pairs.map Prod.fst := by
  rw [← Array.mem_toList_iff, h.symbols_eq, List.mem_eraseDups]

/-- Nothing counted is a record of no pairs. -/
theorem records_empty : (⟨empty, ⟨#[]⟩⟩ : Counted σ).Records [] := by
  refine ⟨rfl, rfl, fun s id hid => ?_⟩
  exact absurd hid (by simp [empty, id?])

/-- A known symbol is recorded by counting it under its id. -/
theorem Records.bump {id : UInt16} (h : c.Records pairs) (hid : c.alphabet.id? s = some id)
    (halphabet : c'.alphabet = c.alphabet)
    (hhistogram : c'.histogram = c.histogram.bump id.toNat n) :
    c'.Records (pairs ++ [(s, n)]) := by
  have hknown : s ∈ pairs.map Prod.fst :=
    h.mem_symbols_iff.1 (exists_id?_eq_some_iff.1 ⟨id, hid⟩)
  refine ⟨?_, ?_, fun s' id' hid' => ?_⟩
  · rw [halphabet, h.symbols_eq, List.map_append, List.map_cons, List.map_nil,
      List.eraseDups_append_singleton_of_mem hknown]
  · rw [halphabet, ← h.alphabetSize_eq, hhistogram]
    simp [Histogram.bump, Histogram.alphabetSize]
  · rw [halphabet] at hid'
    rw [hhistogram, Histogram.count_bump (h.toNat_lt hid), h.count_eq s' id' hid', countOf_append]
    -- The count of `s` grows, past the bound or not; those of other symbols stay.
    by_cases hs : s = s'
    · subst hs
      obtain rfl : id = id' := Option.some.inj (hid.symm.trans hid')
      rw [if_pos rfl, countOf_singleton_self]
      -- The minimum of a sum with a minimum.
      omega
    · -- Another symbol has another id.
      have hne : id'.toNat ≠ id.toNat := by
        intro heq
        rw [UInt16.toNat_inj.1 heq, id?_eq_some_iff] at hid'
        rw [id?_eq_some_iff] at hid
        exact hs (Option.some.inj (hid.symm.trans hid'))
      rw [if_neg hne, countOf_singleton_of_ne hs, Nat.add_zero]

/-- A new symbol is recorded by listing it last, with its count. -/
theorem Records.push (h : c.Records pairs) (hnone : c.alphabet.id? s = none)
    (hsymbols : c'.alphabet.symbols = c.alphabet.symbols.push s)
    (hhistogram : c'.histogram = ⟨c.histogram.counts.push n⟩) :
    c'.Records (pairs ++ [(s, n)]) := by
  have hnew : s ∉ pairs.map Prod.fst := by
    rw [← h.mem_symbols_iff, ← exists_id?_eq_some_iff, hnone]
    simp
  refine ⟨?_, ?_, fun s' id' hid' => ?_⟩
  · rw [hsymbols, Array.toList_push, h.symbols_eq, List.map_append, List.map_cons, List.map_nil,
      List.eraseDups_append_singleton_of_notMem hnew]
  · have hsize := h.alphabetSize_eq
    simp only [Histogram.alphabetSize, size] at hsize
    simp [hhistogram, hsymbols, hsize, Histogram.alphabetSize, size]
  · rw [id?_eq_some_iff, symbol?, hsymbols, Array.getElem?_push] at hid'
    rw [hhistogram, Histogram.count_push, h.alphabetSize_eq, size, countOf_append]
    -- The last id is the new one, and all others were there before.
    by_cases hlast : id'.toNat = c.alphabet.symbols.size
    · rw [if_pos hlast] at hid'
      obtain rfl := Option.some.inj hid'
      have hn := n.toNat_lt
      rw [if_pos hlast, countOf_eq_zero hnew, countOf_singleton_self]
      omega
    · rw [if_neg hlast] at hid'
      have hold : c.alphabet.id? s' = some id' := (c.alphabet.id?_eq_some_iff s' id').2 hid'
      have hs : s ≠ s' := by
        rintro rfl
        exact nomatch hnone.symm.trans hold
      rw [if_neg hlast, countOf_singleton_of_ne hs, Nat.add_zero, h.count_eq s' id' hold]

/-- One pair more is recorded. -/
theorem Records.add (h : c.Records pairs) (hadd : c.add s n = .ok c') :
    c'.Records (pairs ++ [(s, n)]) := by
  rcases add_cases hadd with ⟨id, hid, halphabet, hhistogram⟩ | ⟨hnone, hsymbols, hhistogram⟩
  · exact h.bump hid halphabet hhistogram
  · exact h.push hnone hsymbols hhistogram

/-- All pairs are recorded, behind those that were before. -/
theorem Records.foldlM {done : List (σ × UInt32)} (h : c.Records done)
    (hfold : pairs.foldlM (fun c (s, count) => c.add s count) c = .ok c') :
    c'.Records (done ++ pairs) := by
  -- Induction on the pairs still to come, over all records of those before.
  induction pairs generalizing done c with
  | nil =>
    cases hfold
    rwa [List.append_nil]
  | cons p pairs ih =>
    rw [List.foldlM_cons] at hfold
    obtain ⟨c₁, hadd, hfold⟩ := Except.bind_eq_ok_iff.1 hfold
    rw [← List.singleton_append, ← List.append_assoc]
    exact ih (h.add hadd) hfold

/-- Pairs are recorded as long as there are ids for their symbols and for those before. -/
theorem Records.exists_foldlM {done : List (σ × UInt32)} (h : c.Records done)
    (hle : ((done ++ pairs).map Prod.fst).eraseDups.length ≤ maxAlphabetSize) :
    ∃ c', pairs.foldlM (fun c (s, count) => c.add s count) c = .ok c' := by
  induction pairs generalizing done c with
  | nil => exact ⟨c, rfl⟩
  | cons p pairs ih =>
    obtain ⟨s, n⟩ := p
    have hroom : s ∈ c.alphabet.symbols ∨ c.alphabet.size < maxAlphabetSize := by
      by_cases hs : s ∈ done.map Prod.fst
      · exact .inl (h.mem_symbols_iff.2 hs)
      · -- The symbols so far and this one are among those that fit.
        have hsize := h.size_eq
        rw [List.append_cons, List.map_append, List.map_append, List.map_cons, List.map_nil,
          List.eraseDups_append, List.eraseDups_append_singleton_of_notMem hs,
          List.length_append, List.length_append, List.length_singleton] at hle
        exact .inr (by omega)
    -- So this pair is added, and the others behind it.
    obtain ⟨c₁, hadd⟩ := exists_add (n := n) hroom
    obtain ⟨c', hfold⟩ := ih (h.add hadd) (by simpa using hle)
    exact ⟨c', by rw [List.foldlM_cons]; exact Except.bind_eq_ok_iff.2 ⟨c₁, hadd, hfold⟩⟩

/-- A symbol that comes with a positive count has an id, and its count is positive. -/
theorem Records.exists_count_pos (h : c.Records pairs) (hmem : (s, n) ∈ pairs) (hn : 0 < n) :
    ∃ id, c.alphabet.id? s = some id ∧ 0 < c.histogram.count id.toNat := by
  have hs : s ∈ c.alphabet.symbols := h.mem_symbols_iff.2 (List.mem_map.2 ⟨_, hmem, rfl⟩)
  obtain ⟨id, hid⟩ := exists_id?_eq_some_iff.2 hs
  have hpos := countOf_pos hmem hn
  have hcount := h.count_eq s id hid
  exact ⟨id, hid, by omega⟩

end Counted

variable [LawfulBEq σ]

/-- What is built from pairs is a record of them. -/
theorem records_of_ofCounts {pairs : List (σ × UInt32)} {c : Counted σ}
    (h : ofCounts pairs = .ok c) : c.Records pairs :=
  Counted.records_empty.foldlM h

/-- Pairs of no more than `2 ^ 16` symbols have an alphabet. -/
theorem exists_ofCounts {pairs : List (σ × UInt32)}
    (hle : (pairs.map Prod.fst).eraseDups.length ≤ maxAlphabetSize) :
    ∃ c, ofCounts pairs = .ok c :=
  Counted.records_empty.exists_foldlM hle

end Alphabet

end Tans
