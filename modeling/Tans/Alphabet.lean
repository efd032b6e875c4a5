import Std.Data.HashMap
import Tans.Histogram

/-!
# Alphabets

Symbols of any type are coded through an alphabet, which numbers them in the order in which they
are first seen.

* `Alphabet.id?_eq_some_iff`: looking up a symbol and looking up an id invert each other.
-/

namespace Tans

/-- Distinct symbols, numbered from zero in the order of their arrival. -/
structure Alphabet (σ : Type) [BEq σ] [Hashable σ] where
  /-- The symbols, by id. -/
  symbols : Array σ
  /-- The ids, by symbol. -/
  ids : Std.HashMap σ UInt16
  size_le : symbols.size ≤ maxAlphabetSize
  getElem?_ids : ∀ (s : σ) (id : UInt16), ids[s]? = some id ↔ symbols[id.toNat]? = some s

namespace Alphabet

variable {σ : Type} [BEq σ] [Hashable σ]

/-- The alphabet without symbols. -/
def empty [LawfulBEq σ] : Alphabet σ := ⟨#[], ∅, by simp [maxAlphabetSize], by simp⟩

/-- The number of symbols. -/
def size (a : Alphabet σ) : Nat := a.symbols.size

/-- The id of a symbol. -/
def id? (a : Alphabet σ) (s : σ) : Option UInt16 := a.ids[s]?

/-- The symbol of an id. -/
def symbol? (a : Alphabet σ) (id : UInt16) : Option σ := a.symbols[id.toNat]?

/-- A symbol has an id exactly if the id has the symbol. -/
theorem id?_eq_some_iff (a : Alphabet σ) (s : σ) (id : UInt16) :
    a.id? s = some id ↔ a.symbol? id = some s :=
  a.getElem?_ids s id

/-- Numbering a new symbol keeps the two directions of the look-up in step. -/
theorem getElem?_insert_iff [LawfulBEq σ] {a : Alphabet σ} {s : σ} (hs : a.id? s = none)
    (hsize : a.symbols.size < maxAlphabetSize) (s' : σ) (id : UInt16) :
    (a.ids.insert s (UInt16.ofNat a.symbols.size))[s']? = some id ↔
      (a.symbols.push s)[id.toNat]? = some s' := by
  have hid : (UInt16.ofNat a.symbols.size).toNat = a.symbols.size :=
    UInt16.toNat_ofNat_of_lt' hsize
  rw [Std.HashMap.getElem?_insert, Array.getElem?_push]
  by_cases heq : s = s'
  · subst heq
    simp only [beq_self_eq_true, if_true, Option.some.injEq]
    constructor
    · rintro rfl; simp [hid]
    · intro h
      split at h
      · next he => rw [← UInt16.toNat_inj, hid, he]
      · -- A symbol of the array would have had an id before.
        have hsome : a.ids[s]? = some id := (a.getElem?_ids s id).2 h
        exact absurd (hs.symm.trans hsome) (by simp)
  · simp only [beq_eq_false_iff_ne.2 heq, Bool.false_eq_true, if_false]
    rw [a.getElem?_ids s' id]
    split
    · next he => simp [he, heq]
    · rfl

theorem size_push_le {a : Alphabet σ} {s : σ} (hsize : a.symbols.size < maxAlphabetSize) :
    (a.symbols.push s).size ≤ maxAlphabetSize := by
  rw [Array.size_push]; exact hsize

/-- Numbers a new symbol, if there is an id left for it. -/
def push? [LawfulBEq σ] (a : Alphabet σ) (s : σ) (hs : a.id? s = none) : Option (Alphabet σ) :=
  if hsize : a.symbols.size < maxAlphabetSize then
    some {
      symbols := a.symbols.push s
      ids := a.ids.insert s (UInt16.ofNat a.symbols.size)
      size_le := size_push_le hsize
      getElem?_ids := getElem?_insert_iff hs hsize }
  else none

/-- An alphabet with the counts of its symbols. -/
structure Counted (σ : Type) [BEq σ] [Hashable σ] where
  alphabet : Alphabet σ
  histogram : Histogram

/-- Adds to the count of a symbol, which stays at the largest 32-bit number once it would pass it.
A new symbol is numbered first. -/
def Counted.add [LawfulBEq σ] (c : Counted σ) (s : σ) (count : UInt32) :
    Except SetupError (Counted σ) :=
  match hs : c.alphabet.id? s with
  | some id =>
    .ok ⟨c.alphabet, ⟨c.histogram.counts.modify id.toNat fun n =>
      UInt32.ofNat (min (n.toNat + count.toNat) 0xFFFFFFFF)⟩⟩
  | none =>
    match c.alphabet.push? s hs with
    | some alphabet => .ok ⟨alphabet, ⟨c.histogram.counts.push count⟩⟩
    | none => .error (.distribution .tooManySymbols)

/-- The alphabet and histogram of symbols that come with counts. Counts of one symbol add up. -/
def ofCounts [LawfulBEq σ] (pairs : List (σ × UInt32)) : Except SetupError (Counted σ) :=
  pairs.foldlM (fun c (s, count) => c.add s count) ⟨empty, ⟨#[]⟩⟩

/-- The alphabet and histogram of a sequence of symbols. -/
def ofSymbols [LawfulBEq σ] (data : List σ) : Except SetupError (Counted σ) :=
  ofCounts (data.map fun s => (s, 1))

/-- The ids of a sequence of symbols, from a given position of the data on. -/
def idsFrom (a : Alphabet σ) (position : Nat) : List σ → Except Error (List UInt16)
  | [] => .ok []
  | s :: rest =>
    match a.id? s with
    | none => .error (.unknownSymbol position)
    | some id => (a.idsFrom (position + 1) rest).map (id :: ·)

/-- The ids of a sequence of symbols. -/
def idsOf (a : Alphabet σ) (data : List σ) : Except Error (List UInt16) := a.idsFrom 0 data

/-- The symbols of a sequence of ids. -/
def symbolsOf (a : Alphabet σ) : List UInt16 → Except Error (List σ)
  | [] => .ok []
  | id :: rest =>
    match a.symbol? id with
    | none => .error (.corrupt (.unknownId id.toNat))
    | some s => (a.symbolsOf rest).map (s :: ·)

end Alphabet

end Tans
