/-!
# Errors

What can go wrong while tables are set up, blocks are coded and frames are parsed. Each type lists
causes; the wording of a cause is in its `message` and nowhere else.

* `SetupError`: no tables can be built from the given parameters and histogram.
* `StreamFault`: bits or bytes that no encoder with the same tables wrote.
* `Error`: everything that an operation of the library reports.
-/

namespace Tans

/-- Why counts or weights do not describe a distribution over the states of a table. -/
inductive DistributionFault where
  /-- Weights given as normalized have the wrong sum. -/
  | weightSum (sum expected : Nat)
  /-- All counts are zero. -/
  | zeroTotal
  /-- More symbols occur than there are states. -/
  | tooManyPresent (present tableSize : Nat)
  /-- Rounded weights still miss the table size by `left` units after the repair. -/
  | unreconciled (left : Int)
  /-- The alphabet has more ids than a table can name. -/
  | alphabetTooLarge (size : Nat)
  /-- More distinct symbols were seen than there are ids. -/
  | tooManySymbols
deriving DecidableEq, Repr

/-- Why symbols could not be laid out over the states of a table. -/
inductive PlacementFault where
  /-- A symbol that is too large to be stored in a slot. -/
  | idTooLarge (symbol : Nat)
  /-- Every slot was probed and found taken. -/
  | noFreeSlot (symbol placed : Nat)
  /-- A slot that no symbol was placed in. -/
  | emptySlot (state : Nat)
deriving DecidableEq, Repr

/-- Why no tables can be built. -/
inductive SetupError where
  /-- The logarithm of the table size is out of range. -/
  | tableLog (given max : Nat)
  /-- The width of the length field is out of range. -/
  | lengthBits (given : Nat)
  | distribution (fault : DistributionFault)
  | placement (fault : PlacementFault)
deriving DecidableEq, Repr

/-- Why bits or bytes cannot be decoded. -/
inductive StreamFault where
  /-- A block is said to be longer than the bytes that hold it. -/
  | bitLength (declared available : Nat)
  /-- A field reaches past the last bit. -/
  | shortRead (width position available : Nat)
  /-- Decoding was asked to start past the last bit. -/
  | startPastEnd (start length : Nat)
  /-- A block did not end in the state that encoding starts from. -/
  | finalState (state : Nat)
  /-- A decoded id that stands for no symbol. -/
  | unknownId (id : Nat)
  /-- A frame ends inside a field. -/
  | truncated (needed position : Nat)
  /-- A frame declares an alphabet that is too large for bytes. -/
  | byteAlphabet (size : Nat)
  /-- The counts of a frame's block do not add up to its length. -/
  | totalMismatch (total declared : Nat)
  /-- No tables can be built from the header of a frame's block. -/
  | header (cause : SetupError)
  /-- A frame's block decodes to another number of bytes than its header says. -/
  | lengthMismatch (declared decoded : Nat)
deriving DecidableEq, Repr

/-- What an operation of the library reports instead of a result. -/
inductive Error where
  | setup (cause : SetupError)
  | corrupt (fault : StreamFault)
  /-- A symbol without any state of its own was to be encoded. -/
  | alphabetMismatch (symbol alphabetSize : Nat)
  /-- A length does not fit the field that has to hold it. -/
  | blockTooLarge (length max : Nat)
  /-- A coder state outside the half-open range that the step accepts. -/
  | stateOutOfRange (state min max : Nat)
  /-- A symbol that the alphabet does not list, at an index of the data. -/
  | unknownSymbol (position : Nat)
  /-- Decoding would produce more bytes than allowed. -/
  | outputLimitExceeded (limit : Nat)
deriving DecidableEq, Repr

/-- The wording of a fault of a distribution. -/
def DistributionFault.message : DistributionFault → String
  | .weightSum sum expected => s!"weights sum to {sum}, expected {expected}"
  | .zeroTotal => "total frequency is zero"
  | .tooManyPresent present tableSize =>
    s!"{present} symbols cannot fit in a table of {tableSize} states"
  | .unreconciled left => s!"could not reconcile weights, {left} units left over"
  | .alphabetTooLarge size => s!"alphabet of {size} symbols exceeds 65536 ids"
  | .tooManySymbols => "more than 65536 distinct symbols"

/-- The wording of a fault of a placement. -/
def PlacementFault.message : PlacementFault → String
  | .idTooLarge symbol => s!"symbol {symbol} does not fit a u16 id"
  | .noFreeSlot symbol placed => s!"no free slot for symbol {symbol} after {placed} placements"
  | .emptySlot state => s!"state {state} left unassigned"

/-- The wording of a setup error. -/
def SetupError.message : SetupError → String
  | .tableLog given max => s!"invalid table_log {given}: must be in [1, {max}]"
  | .lengthBits given => s!"invalid block size field width: {given} bits"
  | .distribution fault => s!"invalid distribution: {fault.message}"
  | .placement fault => s!"table construction failed: {fault.message}"

/-- The wording of a fault of a stream. -/
def StreamFault.message : StreamFault → String
  | .bitLength declared available => s!"bit length {declared} exceeds {available} available bits"
  | .shortRead width position available =>
    s!"needed {width} bits at position {position}, only {available} available"
  | .startPastEnd start length => s!"offset {start} past end of {length} bits"
  | .finalState state => s!"final decoder state {state}, expected 0"
  | .unknownId id => s!"decoded id {id} has no symbol"
  | .truncated needed position => s!"frame truncated: needed {needed} bytes at offset {position}"
  | .byteAlphabet size => s!"byte alphabet of {size} symbols"
  | .totalMismatch total declared =>
    s!"histogram totals {total} but block declares {declared} bytes"
  | .header cause => s!"block header: {cause.message}"
  | .lengthMismatch declared decoded => s!"block declared {declared} bytes, decoded {decoded}"

/-- The wording of an error. -/
def Error.message : Error → String
  | .setup cause => cause.message
  | .corrupt fault => s!"corrupt stream: {fault.message}"
  | .alphabetMismatch symbol alphabetSize =>
    s!"symbol {symbol} not in alphabet of size {alphabetSize}"
  | .blockTooLarge length max => s!"block of {length} exceeds length field maximum {max}"
  | .stateOutOfRange state min max => s!"state {state} outside [{min}, {max})"
  | .unknownSymbol position => s!"unknown symbol at input position {position}"
  | .outputLimitExceeded limit => s!"decoded output would exceed limit of {limit} bytes"

end Tans
