import Tans.Block
import Tans.Tables

/-!
# Decoding

A decoder state is an encoder state less the table size, and so an index of the decode table. Each
step emits the symbol of its state and reads the bits that lead to the next one. A block has to end
in state zero, which is where its encoding started.
-/

namespace Tans

/-- What was decoded from one block. -/
structure DecodedBlock where
  symbols : Array UInt16
  /-- The number of bits the block takes up, its header included. -/
  bitsConsumed : Nat
deriving DecidableEq, Repr

namespace Tables

/-- Decodes a symbol from a state: the symbol, and the state that follows. -/
def decodeSymbol (t : Tables) (state : Nat) : Cursor.Reading Bool (UInt16 × Nat) :=
  match t.decodeTable[state]? with
  | none => throw (.stateOutOfRange state 0 t.tableSize)
  | some entry => do
    let value ← Bits.read entry.width.toNat
    return (entry.symbol, entry.base.toNat + value)

/-- Decodes `n` symbols from a state behind those decoded so far: all of them, and the last
state. -/
def decodeSymbols (t : Tables) :
    (n state : Nat) → (symbols : Array UInt16) → Cursor.Reading Bool (Array UInt16 × Nat)
  | 0, state, symbols => return (symbols, state)
  | n + 1, state, symbols => do
    let (symbol, state) ← t.decodeSymbol state
    t.decodeSymbols n state (symbols.push symbol)

/-- Decodes the symbols of the block at a cursor. -/
def readBlock (t : Tables) : Cursor.Reading Bool (Array UInt16) := do
  let length ← Bits.read t.params.lengthBits
  -- An empty block ends with its length field.
  if length = 0 then return #[]
  else
    let state ← Bits.read t.params.tableLog
    let (symbols, last) ← t.decodeSymbols length state #[]
    if last = 0 then return symbols
    else throw (.corrupt (.finalState last))

/-- Decodes the block that starts at an index of a bit sequence. -/
def decodeBlockAt (t : Tables) (bits : Bits) (offset : Nat) : Except Error DecodedBlock :=
  if bits.length < offset then .error (.corrupt (.startPastEnd offset bits.length))
  else
    match t.readBlock (Cursor.ofList bits offset) with
    | .ok symbols c => .ok ⟨symbols, c.pos - offset⟩
    | .error e _ => .error e

/-- Decodes the block that a bit sequence starts with. -/
def decodeBlock (t : Tables) (bits : Bits) : Except Error DecodedBlock := t.decodeBlockAt bits 0

end Tables

end Tans
