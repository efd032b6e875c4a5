import Tans.Proofs.Alphabet

/-!
# Numbering symbols

An alphabet numbers symbols from zero in the order of their first arrival, and its two directions of
look-up invert each other, for single symbols and for sequences. There are three ways to fail: more
symbols than ids when the alphabet is built, a symbol without an id, and an id without a symbol. The
first one in a sequence is reported.

* `Alphabet.ofCounts_eq_error_iff`: more symbols than ids.
* `Alphabet.idsFrom_eq_error_iff`, `Alphabet.symbolsOf_eq_error_iff`: sequences.
* `Alphabet.ofCounts_outcome`: all together.
-/

namespace Tans.Alphabet

variable {σ : Type} [BEq σ] [Hashable σ] {a : Alphabet σ}

/-! ### Looking up sequences -/

/-- An id has a symbol if it is below the number of symbols. -/
theorem exists_symbol?_eq_some_iff {id : UInt16} :
    (∃ s, a.symbol? id = some s) ↔ id.toNat < a.size := by
  rw [symbol?, ← Option.isSome_iff_exists, isSome_getElem?, size]

/-- An id that is not below the number of symbols has none. -/
theorem symbol?_eq_none_iff {id : UInt16} : a.symbol? id = none ↔ a.size ≤ id.toNat := by
  rw [symbol?, Array.getElem?_eq_none_iff, size]

/-- A symbol that is not listed has no id. -/
theorem id?_eq_none_iff {s : σ} : a.id? s = none ↔ s ∉ a.symbols := by
  rw [← exists_id?_eq_some_iff, ← Option.isSome_iff_exists, Option.not_isSome_iff_eq_none]

/-- All ids of a sequence are found if its symbols are all listed. -/
theorem exists_idsOf_iff {data : List σ} :
    (∃ ids, a.idsOf data = .ok ids) ↔ ∀ s ∈ data, s ∈ a.symbols := by
  constructor
  · intro h
    obtain ⟨ids, h⟩ := h
    rw [idsOf, idsFrom_eq_ok_iff] at h
    induction h with
    | nil => simp
    | cons hs _ ih => exact List.forall_mem_cons.2 ⟨exists_id?_eq_some_iff.1 ⟨_, hs⟩, ih⟩
  · intro h
    exact exists_idsOf fun s hs => exists_id?_eq_some_iff.2 (h s hs)

/-- The first symbol that is not listed is reported, by where it stands. -/
theorem idsFrom_eq_error_iff {position : Nat} {data : List σ} {e : Error} :
    a.idsFrom position data = .error e ↔ ∃ front s back, data = front ++ s :: back ∧
      (∀ s' ∈ front, s' ∈ a.symbols) ∧ s ∉ a.symbols ∧
      e = .unknownSymbol (position + front.length) := by
  -- By induction on the sequence, over all positions that it may start at.
  induction data generalizing position with
  | nil => simp [idsFrom]
  | cons s data ih =>
    rw [idsFrom]
    split
    · next hs =>
      rw [id?_eq_none_iff] at hs
      constructor
      · intro h
        cases h
        exact ⟨[], s, data, rfl, by simp, hs, rfl⟩
      · intro h
        obtain ⟨front, s', back, hdata, hfront, hs', he⟩ := h
        cases front with
        | nil => rw [he]; rfl
        | cons s'' front =>
          -- A listed symbol cannot come first.
          cases hdata
          exact absurd (hfront s List.mem_cons_self) hs
    · next id hid =>
      have hs := exists_id?_eq_some_iff.1 ⟨id, hid⟩
      -- This symbol has an id, so the error is one of the rest.
      rw [Except.map_eq_error_iff, ih]
      constructor
      · intro h
        obtain ⟨front, s', back, hdata, hfront, hs', he⟩ := h
        refine ⟨s :: front, s', back, by rw [hdata]; rfl, List.forall_mem_cons.2 ⟨hs, hfront⟩,
          hs', ?_⟩
        rw [he, List.length_cons, Nat.add_right_comm, Nat.add_assoc]
      · intro h
        obtain ⟨front, s', back, hdata, hfront, hs', he⟩ := h
        cases front with
        | nil =>
          cases hdata
          exact absurd hs hs'
        | cons s'' front =>
          cases hdata
          refine ⟨front, s', back, rfl, (List.forall_mem_cons.1 hfront).2, hs', ?_⟩
          rw [he, List.length_cons, Nat.add_right_comm, Nat.add_assoc]

/-- The symbol of an id, or what is reported of an id that has none. -/
def symbolOf (a : Alphabet σ) (id : UInt16) : Except Error σ :=
  match a.symbol? id with
  | none => .error (.corrupt (.unknownId id.toNat))
  | some s => .ok s

/-- Looking up a sequence of ids is looking up one id after the other. -/
theorem symbolsOf_eq_mapM (ids : List UInt16) : a.symbolsOf ids = ids.mapM a.symbolOf := by
  induction ids with
  | nil => rfl
  | cons id ids ih =>
    rw [symbolsOf, List.mapM_cons, ← ih, symbolOf]
    cases a.symbol? id with
    | none => rfl
    | some s => cases a.symbolsOf ids <;> rfl

/-- An id below the number of symbols has a symbol. -/
theorem exists_symbolOf_iff {id : UInt16} :
    (∃ s, a.symbolOf id = .ok s) ↔ id.toNat < a.size := by
  rw [← exists_symbol?_eq_some_iff, symbolOf]
  cases a.symbol? id <;> simp

/-- Any other id is reported as corrupt. -/
theorem symbolOf_eq_error_iff {id : UInt16} {e : Error} :
    a.symbolOf id = .error e ↔ a.size ≤ id.toNat ∧ e = .corrupt (.unknownId id.toNat) := by
  rw [← symbol?_eq_none_iff, symbolOf]
  cases a.symbol? id <;> simp [eq_comm]

/-- All symbols of a sequence of ids are found if the ids are all below the number of symbols. -/
theorem exists_symbolsOf_iff {ids : List UInt16} :
    (∃ data, a.symbolsOf ids = .ok data) ↔ ∀ id ∈ ids, id.toNat < a.size := by
  simp only [symbolsOf_eq_mapM, Except.exists_mapM_eq_ok_iff, exists_symbolOf_iff]

/-- The first id that has no symbol is reported. -/
theorem symbolsOf_eq_error_iff {ids : List UInt16} {e : Error} :
    a.symbolsOf ids = .error e ↔ ∃ front id back, ids = front ++ id :: back ∧
      (∀ id' ∈ front, id'.toNat < a.size) ∧ a.size ≤ id.toNat ∧
      e = .corrupt (.unknownId id.toNat) := by
  simp only [symbolsOf_eq_mapM, Except.mapM_eq_error_iff, exists_symbolOf_iff,
    symbolOf_eq_error_iff]

/-! ### What is recorded -/

/-- The id of a symbol is its number among the first arrivals. -/
theorem Counted.Records.symbol?_eq {c : Counted σ} {pairs : List (σ × UInt32)}
    (h : c.Records pairs) (id : UInt16) :
    c.alphabet.symbol? id = (pairs.map Prod.fst).eraseDups[id.toNat]? := by
  rw [← h.symbols_eq, Array.getElem?_toList, symbol?]

/-- The counts of a symbol are summed up under its number. -/
theorem Counted.Records.count_eq_of_getElem? {c : Counted σ} {pairs : List (σ × UInt32)}
    (h : c.Records pairs) {i : Nat} {s : σ} (hs : (pairs.map Prod.fst).eraseDups[i]? = some s) :
    c.histogram.count i = min (2 ^ 32 - 1) (countOf pairs s) := by
  have hi : i < c.alphabet.size := by
    rw [h.size_eq]
    exact (List.getElem?_eq_some_iff.1 hs).1
  -- There are no more numbers than ids, so this one is an id.
  have hid : (UInt16.ofNat i).toNat = i :=
    UInt16.toNat_ofNat_of_lt' (Nat.lt_of_lt_of_le hi c.alphabet.size_le)
  have hsymbol : c.alphabet.symbol? (UInt16.ofNat i) = some s := by rw [h.symbol?_eq, hid, hs]
  have hcount := h.count_eq s _ ((c.alphabet.id?_eq_some_iff s _).2 hsymbol)
  rw [hid] at hcount
  rw [hcount, Nat.min_comm]

/-! ### Building an alphabet -/

variable [LawfulBEq σ]

/-- A symbol is refused if it is new and all ids are taken. -/
theorem Counted.add_eq_error_iff {c : Counted σ} {s : σ} {n : UInt32} {e : SetupError} :
    c.add s n = .error e ↔ e = .distribution .tooManySymbols ∧ s ∉ c.alphabet.symbols ∧
      maxAlphabetSize ≤ c.alphabet.size := by
  constructor
  · intro h
    -- Otherwise the symbol would have been added.
    have hnot : ¬ (s ∈ c.alphabet.symbols ∨ c.alphabet.size < maxAlphabetSize) := by
      intro hroom
      obtain ⟨c', hc'⟩ := exists_add (n := n) hroom
      exact nomatch h.symm.trans hc'
    refine ⟨?_, fun hs => hnot (.inl hs), Nat.le_of_not_lt fun hlt => hnot (.inr hlt)⟩
    unfold add at h
    split at h
    · cases h
    · split at h
      · cases h
      · cases h
        rfl
  · intro h
    obtain ⟨he, hs, hsize⟩ := h
    subst he
    -- The symbol is not found, and there is no id left for it.
    unfold add
    split
    · next id hid => exact absurd (exists_id?_eq_some_iff.1 ⟨id, hid⟩) hs
    · next hnone =>
      have hsize : ¬ c.alphabet.symbols.size < maxAlphabetSize := Nat.not_lt.2 hsize
      rw [push?, dif_neg hsize]

/-- Building fails if there are more symbols than ids, and for no other reason. -/
theorem ofCounts_eq_error_iff {pairs : List (σ × UInt32)} {e : SetupError} :
    ofCounts pairs = .error e ↔ e = .distribution .tooManySymbols ∧
      maxAlphabetSize < (pairs.map Prod.fst).eraseDups.length := by
  have hreason (e : SetupError) (h : ofCounts pairs = .error e) :
      e = .distribution .tooManySymbols ∧
        maxAlphabetSize < (pairs.map Prod.fst).eraseDups.length := by
    obtain ⟨front, ⟨s, n⟩, back, c, rfl, hfront, hadd⟩ := Except.foldlM_eq_error_iff.1 h
    obtain ⟨he, hs, hfull⟩ := Counted.add_eq_error_iff.1 hadd
    -- The symbols before this one have taken all ids, and this one is not among them.
    have hrecords := records_of_ofCounts hfront
    rw [hrecords.size_eq] at hfull
    rw [hrecords.mem_symbols_iff] at hs
    rw [List.append_cons, List.map_append, List.map_append, List.map_cons, List.map_nil,
      List.eraseDups_append, List.eraseDups_append_singleton_of_notMem hs, List.length_append,
      List.length_append, List.length_singleton]
    exact ⟨he, by omega⟩
  constructor
  · exact hreason e
  · intro h
    obtain ⟨he, hmany⟩ := h
    cases h : ofCounts pairs with
    | ok c =>
      have hsize := c.alphabet.size_le
      rw [← (records_of_ofCounts h).size_eq] at hmany
      exact absurd hmany (Nat.not_lt.2 hsize)
    | error e' => rw [he, (hreason e' h).1]

/-- What an alphabet does, whatever pairs of symbols and counts it is built from. Building fails if
there are more than `2 ^ 16` different symbols, and only then. Otherwise the different symbols are
numbered in the order of their first arrival, symbols and ids determine each other, and the count of
a symbol is the sum of the counts it came with, or the largest number of 32 bits if that is less. The
ids of a sequence are found if all its symbols are numbered, and otherwise the position of the first
one that is not is reported; the symbols of a sequence of ids are found if all the ids are given
away, and otherwise the first one that is not is reported; and where one of the two gives a sequence,
the other one gives back the sequence it is from. -/
theorem ofCounts_outcome (σ : Type) [BEq σ] [Hashable σ] [LawfulBEq σ]
    (pairs : List (σ × UInt32)) :
    (∀ e, ofCounts pairs = .error e ↔
      e = .distribution .tooManySymbols ∧ 65536 < (pairs.map Prod.fst).eraseDups.length) ∧
    ((pairs.map Prod.fst).eraseDups.length ≤ 65536 → ∃ c, ofCounts pairs = .ok c ∧
      c.alphabet.size = (pairs.map Prod.fst).eraseDups.length ∧
      (∀ id, c.alphabet.symbol? id = (pairs.map Prod.fst).eraseDups[id.toNat]?) ∧
      (∀ s id, c.alphabet.id? s = some id ↔ c.alphabet.symbol? id = some s) ∧
      c.histogram.alphabetSize = c.alphabet.size ∧
      (∀ i s, (pairs.map Prod.fst).eraseDups[i]? = some s →
        c.histogram.count i = min (2 ^ 32 - 1) (countOf pairs s)) ∧
      (∀ data, ((∃ ids, c.alphabet.idsOf data = .ok ids) ↔
          ∀ s ∈ data, s ∈ pairs.map Prod.fst) ∧
        ∀ e, c.alphabet.idsOf data = .error e ↔ ∃ front s back, data = front ++ s :: back ∧
          (∀ s' ∈ front, s' ∈ pairs.map Prod.fst) ∧ s ∉ pairs.map Prod.fst ∧
          e = .unknownSymbol front.length) ∧
      (∀ ids, ((∃ data, c.alphabet.symbolsOf ids = .ok data) ↔
          ∀ id ∈ ids, id.toNat < c.alphabet.size) ∧
        ∀ e, c.alphabet.symbolsOf ids = .error e ↔ ∃ front id back, ids = front ++ id :: back ∧
          (∀ id' ∈ front, id'.toNat < c.alphabet.size) ∧ c.alphabet.size ≤ id.toNat ∧
          e = .corrupt (.unknownId id.toNat)) ∧
      (∀ data ids, c.alphabet.idsOf data = .ok ids ↔ c.alphabet.symbolsOf ids = .ok data)) := by
  refine ⟨fun e => ofCounts_eq_error_iff, fun hfew => ?_⟩
  obtain ⟨c, hc⟩ := exists_ofCounts hfew
  have hrecords := records_of_ofCounts hc
  refine ⟨c, hc, hrecords.size_eq, hrecords.symbol?_eq, c.alphabet.id?_eq_some_iff,
    hrecords.alphabetSize_eq, fun i s hs => hrecords.count_eq_of_getElem? hs,
    fun data => ⟨?_, fun e => ?_⟩, fun ids => ⟨exists_symbolsOf_iff, fun e =>
    symbolsOf_eq_error_iff⟩, fun data ids => symbolsOf_eq_ok_iff.symm⟩
  · simp only [exists_idsOf_iff, hrecords.mem_symbols_iff]
  · simp only [idsOf, idsFrom_eq_error_iff, hrecords.mem_symbols_iff, Nat.zero_add]

/-- A symbol whose count is full, sequences with and without an unknown symbol, and an id that is not
given away. -/
theorem ofCounts_outcome_three :
    ∃ c, ofCounts [("A", 0xFFFFFFFF), ("B", 3), ("A", 5), ("C", 2)] = .ok c ∧
      c.alphabet.size = 3 ∧ c.alphabet.symbol? 2 = some "C" ∧ c.alphabet.id? "C" = some 2 ∧
      c.histogram.count 0 = 0xFFFFFFFF ∧ c.histogram.count 1 = 3 ∧
      c.alphabet.idsOf ["C", "X", "A", "Y"] = .error (.unknownSymbol 1) ∧
      c.alphabet.symbolsOf [2, 9, 0, 8] = .error (.corrupt (.unknownId 9)) ∧
      ∃ ids, c.alphabet.idsOf ["C", "A"] = .ok ids ∧ c.alphabet.symbolsOf ids = .ok ["C", "A"] := by
  obtain ⟨c, hc, hsize, hsymbol, hid, -, hcount, hids, hsymbols, hinverse⟩ :=
    (ofCounts_outcome String [("A", 0xFFFFFFFF), ("B", 3), ("A", 5), ("C", 2)]).2
      (by decide +kernel)
  have hthree : c.alphabet.size = 3 := hsize.trans (by decide +kernel)
  have hlast : c.alphabet.symbol? 2 = some "C" := (hsymbol 2).trans (by decide +kernel)
  obtain ⟨ids, hknown⟩ := (hids ["C", "A"]).1.2 (by simp)
  refine ⟨c, hc, hthree, hlast, (hid "C" 2).2 hlast,
    (hcount 0 "A" (by decide +kernel)).trans (by decide +kernel),
    (hcount 1 "B" (by decide +kernel)).trans (by decide +kernel),
    ((hids _).2 _).2 ⟨["C"], "X", ["A", "Y"], rfl, by simp, by simp, rfl⟩,
    ((hsymbols _).2 _).2 ⟨[2], 9, [0, 8], rfl, by simp [hthree], by simp [hthree], rfl⟩,
    ids, hknown, (hinverse _ _).1 hknown⟩

end Tans.Alphabet
