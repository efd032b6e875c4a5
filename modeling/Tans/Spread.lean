import Tans.Weights

/-!
# Spread

Which symbol each state of a table belongs to. Symbols are laid out in ascending order, each as
often as its weight says, and the slot moves on by a fixed step from one to the next. The step is
odd and the table size a power of two, so the walk meets every slot once and the states of a
symbol end up scattered.

* `Spread.getElem?_number`: numbering the slots tells how often a symbol was met before.
-/

namespace Tans

/-- The step from one slot to the next. Making it odd only matters for two and for eight states. -/
def spreadStep (tableSize : Nat) : Nat := (tableSize / 2 + tableSize / 8 + 3) ||| 1

/-- A table whose slots are being filled. -/
structure Layout where
  slots : Array (Option UInt16)
  /-- The slot to try next. -/
  cursor : Nat
  /-- The number of slots filled so far. -/
  placed : Nat

namespace Layout

/-- A table of `tableSize` free slots. -/
def empty (tableSize : Nat) : Layout := ⟨Array.replicate tableSize none, 0, 0⟩

/-- The slot that follows another one. -/
def after (l : Layout) (slot : Nat) : Nat := (slot + spreadStep l.slots.size) % l.slots.size

/-- The first free slot among the `n` slots from a given one onward. -/
def probe (l : Layout) : (n slot : Nat) → Option Nat
  | 0, _ => none
  | n + 1, slot =>
    match l.slots.getD slot none with
    | none => some slot
    | some _ => l.probe n (l.after slot)

/-- Puts a symbol into the first free slot. -/
def place (l : Layout) (symbol : Nat) : Except SetupError Layout :=
  if maxAlphabetSize ≤ symbol then .error (.placement (.idTooLarge symbol))
  else
    match l.probe l.slots.size l.cursor with
    | none => .error (.placement (.noFreeSlot symbol l.placed))
    | some slot =>
      let cursor := l.after slot
      .ok ⟨l.slots.setIfInBounds slot (some (UInt16.ofNat symbol)), cursor, l.placed + 1⟩

/-- The symbols of all slots, from a given slot on, if none of them is free. -/
def symbolsFrom (slot : Nat) : List (Option UInt16) → Except SetupError (List UInt16)
  | [] => .ok []
  | none :: _ => .error (.placement (.emptySlot slot))
  | some symbol :: rest => (symbolsFrom (slot + 1) rest).map (symbol :: ·)

end Layout

/-- The symbol of each state. -/
structure Spread where
  symbols : Array UInt16
deriving DecidableEq, Repr

namespace Spread

/-- Lays the symbols out over the states by their weights. -/
def ofWeights (w : Weights) : Except SetupError Spread := do
  let layout ← w.runs.foldlM Layout.place (Layout.empty w.tableSize)
  let symbols ← Layout.symbolsFrom 0 layout.slots.toList
  return ⟨symbols.toArray⟩

/-- The number of states. -/
def size (s : Spread) : Nat := s.symbols.size

/-- The number of states of a symbol. -/
def occurrences (s : Spread) (symbol : UInt16) : Nat := s.symbols.count symbol

/-- Numbers the elements of a list of symbols: each one gets the counter of its symbol, which then
goes up by one. -/
def number (counters : Array Nat) : List UInt16 → List Nat
  | [] => []
  | symbol :: rest =>
    counters.getD symbol.toNat 0 :: number (counters.modify symbol.toNat (· + 1)) rest

@[simp]
theorem length_number (counters : Array Nat) (symbols : List UInt16) :
    (number counters symbols).length = symbols.length := by
  induction symbols generalizing counters with
  | nil => rfl
  | cons symbol rest ih => simp [number, ih]

/-- A symbol gets its counter plus the number of times that it came before. -/
theorem getElem?_number (counters : Array Nat) (symbols : List UInt16) (i : Nat)
    (h : ∀ s ∈ symbols, s.toNat < counters.size) :
    (number counters symbols)[i]? =
      symbols[i]?.map fun s => counters.getD s.toNat 0 + (symbols.take i).count s := by
  induction symbols generalizing counters i with
  | nil => rfl
  | cons symbol rest ih =>
    cases i with
    | zero => simp [number]
    | succ i =>
      rw [number, List.getElem?_cons_succ, List.getElem?_cons_succ,
        ih _ i fun s hs => by simpa using h s (List.mem_cons_of_mem symbol hs)]
      -- The counter has moved for the first symbol, which is one more that came before.
      cases hs : rest[i]? with
      | none => rfl
      | some s =>
        have hlt := h s (List.mem_cons_of_mem symbol (List.mem_of_getElem? hs))
        simp only [Option.map_some, List.take_succ_cons, List.count_cons]
        by_cases heq : symbol = s
        · subst heq
          simp [hlt, Array.getElem_modify]
          omega
        · have hne : symbol.toNat ≠ s.toNat := fun hn => heq (UInt16.toNat_inj.1 hn)
          simp [hlt, heq, hne, Array.getElem_modify]

end Spread

end Tans
