import Tans.Block.Encode
import Tans.Block.Decode
import Tans.LittleEndian

/-!
# Segments

A segment is a stretch of bytes coded on its own: a block, and in front of it all that is needed to
rebuild the tables it was encoded with. Numbers in the header are stored least significant byte
first.

| Field | Size in bytes |
|---|---|
| number of bytes coded | 4 |
| number of bits in the payload | 4 |
| logarithm of the table size | 1 |
| number of counts | 2 |
| counts | 4 each |
| payload | as many as hold its bits |

* `Segment.rest_length_lt_of_read`: reading a segment leaves less to read.
-/

namespace Tans

/-- A coded stretch of bytes, as it is stored. -/
structure Segment where
  /-- The number of bytes that were coded. -/
  length : Nat
  /-- The number of bits in the payload. -/
  bitCount : Nat
  tableLog : Nat
  histogram : Histogram
  payload : List UInt8
deriving DecidableEq, Repr

namespace Segment

/-- The largest number that a four-byte field holds. -/
def maxField : Nat := 0xFFFFFFFF

/-- The parameters of the block in a segment. -/
def params (tableLog : Nat) : Params := { tableLog }

/-- Codes a stretch of bytes. -/
def ofBytes (tableLog : Nat) (bytes : List UInt8) : Except Error Segment :=
  if maxField < bytes.length then .error (.blockTooLarge bytes.length maxField)
  else do
    let histogram := (Histogram.ofBytes bytes).trimmed
    let tables ← (Tables.ofHistogram histogram (params tableLog)).mapError Error.setup
    let block ← tables.encodeBlock (bytes.map UInt8.toNat)
    if maxField < block.bitLength then throw (.blockTooLarge block.bitLength maxField)
    else
      return {
        length := bytes.length
        bitCount := block.bitLength
        tableLog
        histogram
        payload := block.toBytes }

/-- The stored form of a segment's header. -/
def headerBytes (s : Segment) : List UInt8 :=
  LittleEndian.ofNat 4 s.length ++ LittleEndian.ofNat 4 s.bitCount ++
    LittleEndian.ofNat 1 s.tableLog ++ LittleEndian.ofNat 2 s.histogram.alphabetSize ++
    s.histogram.counts.toList.flatMap fun count => LittleEndian.ofNat 4 count.toNat

/-- The stored form of a segment. -/
def toBytes (s : Segment) : List UInt8 := s.headerBytes ++ s.payload

/-! ### Reading -/

/-- Takes the next `n` bytes. -/
def takeBytes (n : Nat) : Cursor.Reading UInt8 (List UInt8) :=
  Cursor.take n fun c => .truncated n c.pos

/-- Reads a number of `size` bytes. -/
def readNat (size : Nat) : Cursor.Reading UInt8 Nat := LittleEndian.toNat <$> takeBytes size

/-- Reads `n` counts behind those read so far. -/
def readCounts : (n : Nat) → (counts : Array UInt32) → Cursor.Reading UInt8 (Array UInt32)
  | 0, counts => return counts
  | n + 1, counts => do
    let count ← readNat 4
    readCounts n (counts.push (UInt32.ofNat count))

/-- Refuses `length` more bytes if that is more than a limit leaves after `produced` bytes. -/
def reserve (limit : Option Nat) (produced length : Nat) : Cursor.Reading UInt8 Unit :=
  match limit with
  | none => return ()
  | some limit =>
    if limit - produced < length then throw (.outputLimitExceeded limit) else return ()

/-- Reads the segment at a cursor. The limit, if there is one, is on the sum of the `produced`
bytes and those that the segment stands for. -/
def read (limit : Option Nat) (produced : Nat) : Cursor.Reading UInt8 Segment := do
  let length ← readNat 4
  reserve limit produced length
  let bitCount ← readNat 4
  let tableLog ← readNat 1
  let alphabetSize ← readNat 2
  if 256 < alphabetSize then throw (.corrupt (.byteAlphabet alphabetSize))
  else
    let counts ← readCounts alphabetSize #[]
    let payload ← takeBytes (Bits.byteCount bitCount)
    return { length, bitCount, tableLog, histogram := ⟨counts⟩, payload }

/-- The bytes that a segment stands for. -/
def decode (s : Segment) : Except Error (List UInt8) :=
  if s.histogram.total ≠ s.length then
    .error (.corrupt (.totalMismatch s.histogram.total s.length))
  else do
    let tables ← (Tables.ofHistogram s.histogram (params s.tableLog)).mapError
      (Error.corrupt ∘ StreamFault.header)
    let block ← tables.decodeBlock ((Bits.ofBytes s.payload).take s.bitCount)
    if block.symbols.size ≠ s.length then
      throw (.corrupt (.lengthMismatch s.length block.symbols.size))
    -- The alphabet has at most 256 ids, so every symbol is a byte.
    else return block.symbols.toList.map UInt16.toUInt8

/-! ### Progress -/

/-- Bytes that are taken are no longer left. -/
theorem rest_length_eq_of_takeBytes {n : Nat} {c c' : Cursor UInt8} {bytes : List UInt8}
    (h : takeBytes n c = .ok bytes c') : c'.rest.length + n = c.rest.length := by
  obtain ⟨hle, -, rfl⟩ := Cursor.take_eq_ok_iff.1 h
  simp only [List.length_drop]
  omega

theorem rest_length_eq_of_readNat {n : Nat} {c c' : Cursor UInt8} {value : Nat}
    (h : readNat n c = .ok value c') : c'.rest.length + n = c.rest.length := by
  unfold readNat at h
  simp only [Functor.map, EStateM.map] at h
  split at h
  · next ht => cases h; exact rest_length_eq_of_takeBytes ht
  · exact nomatch h

theorem rest_length_eq_of_readCounts {n : Nat} {counts counts' : Array UInt32}
    {c c' : Cursor UInt8} (h : readCounts n counts c = .ok counts' c') :
    c'.rest.length + 4 * n = c.rest.length := by
  induction n generalizing counts c with
  | zero =>
    unfold readCounts at h
    cases h
    rfl
  | succ n ih =>
    unfold readCounts at h
    obtain ⟨count, c₁, h₁, h₂⟩ := EStateM.bind_eq_ok_iff.1 h
    have := rest_length_eq_of_readNat h₁
    have := ih h₂
    omega

theorem eq_of_reserve {limit : Option Nat} {produced length : Nat} {c c' : Cursor UInt8} {u : Unit}
    (h : reserve limit produced length c = .ok u c') : c' = c := by
  unfold reserve at h
  split at h
  · cases h; rfl
  · split at h
    · exact nomatch h
    · cases h; rfl

/-- A segment takes bytes, so less is left behind it than in front of it. -/
theorem rest_length_lt_of_read {limit : Option Nat} {produced : Nat} {c c' : Cursor UInt8}
    {s : Segment} (h : read limit produced c = .ok s c') : c'.rest.length < c.rest.length := by
  unfold read at h
  obtain ⟨length, c₁, h₁, h⟩ := EStateM.bind_eq_ok_iff.1 h
  obtain ⟨_, c₁', h₁', h⟩ := EStateM.bind_eq_ok_iff.1 h
  rw [eq_of_reserve h₁'] at h
  obtain ⟨bitCount, c₂, h₂, h⟩ := EStateM.bind_eq_ok_iff.1 h
  obtain ⟨tableLog, c₃, h₃, h⟩ := EStateM.bind_eq_ok_iff.1 h
  obtain ⟨alphabetSize, c₄, h₄, h⟩ := EStateM.bind_eq_ok_iff.1 h
  split at h
  · exact nomatch h
  · obtain ⟨counts, c₅, h₅, h⟩ := EStateM.bind_eq_ok_iff.1 h
    obtain ⟨payload, c₆, h₆, h⟩ := EStateM.bind_eq_ok_iff.1 h
    cases h
    -- The fields of fixed size alone take eleven bytes.
    have := rest_length_eq_of_readNat h₁
    have := rest_length_eq_of_readNat h₂
    have := rest_length_eq_of_readNat h₃
    have := rest_length_eq_of_readNat h₄
    have := rest_length_eq_of_readCounts h₅
    have := rest_length_eq_of_takeBytes h₆
    omega

end Segment

end Tans
