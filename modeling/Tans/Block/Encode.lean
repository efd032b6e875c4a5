import Tans.Block
import Tans.Tables

/-!
# Encoding

An encoder state lies in `[tableSize, 2 * tableSize)`. To encode a symbol the low bits of the state
are flushed until it is a sub-state of the symbol, and the next-state table gives the state that
follows.

A block is encoded from its last symbol to its first, and what each step flushes is put in front of
what came before. So a decoder that reads front to back meets the steps in the opposite order, and
the symbols in theirs. In front of the payload stand the length of the block and the last state.
-/

namespace Tans.Tables

/-- Encodes a symbol from a state: the state that follows, and the bits that are flushed. -/
def encodeSymbol (t : Tables) (state symbol : Nat) : Except Error (Nat × Bits.Field) :=
  if state < t.tableSize ∨ 2 * t.tableSize ≤ state then
    .error (.stateOutOfRange state t.tableSize (2 * t.tableSize))
  else
    match t.transform? symbol with
    | none => .error (.alphabetMismatch symbol t.alphabetSize)
    | some transform =>
      -- The bias carries into bit sixteen for the states that have to flush one bit more.
      let width := ((UInt32.ofNat state + transform.widthBias) >>> 16).toNat
      -- What is left of the state is a sub-state, and the offset takes off the weight.
      let rank := ((state >>> width : Nat) + transform.rankOffset).toNat
      .ok ((t.nextStates.getD rank 0).toNat, ⟨state % (1 <<< width), width⟩)

/-- Encodes symbols, the last one first, from the least state: the last state, and all bits that
are flushed. -/
def encodeSymbols (t : Tables) (symbols : List Nat) : Except Error (Nat × Bits) :=
  symbols.foldrM (fun symbol (state, payload) => do
    let (state, flushed) ← t.encodeSymbol state symbol
    return (state, flushed.bits ++ payload)) (t.tableSize, [])

/-- Encodes a block of symbols. An empty block is a length field and nothing else. -/
def encodeBlock (t : Tables) (symbols : List Nat) : Except Error Block :=
  if t.params.maxBlockLen < symbols.length then
    .error (.blockTooLarge symbols.length t.params.maxBlockLen)
  else do
    let (state, payload) ← t.encodeSymbols symbols
    let header := Bits.ofNat t.params.lengthBits symbols.length
    if symbols.isEmpty then return .ofBits header
    else return .ofBits (header ++ Bits.ofNat t.params.tableLog (state - t.tableSize) ++ payload)

end Tans.Tables
