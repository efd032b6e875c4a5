import Tans.Tables.Decode
import Tans.Tables.Encode
import Tans.Weights.Normalize

/-!
# Tables

Everything that coding needs, built once from weights and shared by encoder and decoder. The type
records that all tables belong to the same weights and parameters, so whatever holds of tables
holds of all of them.
-/

namespace Tans

/-- The tables of a coding session. -/
structure Tables where
  params : Params
  weights : Weights
  spread : Spread
  decodeTable : Array DecodeEntry
  nextStates : Array UInt16
  transforms : Array Transform
  check_eq : params.check = .ok ()
  tableLog_eq : weights.tableLog = params.tableLog
  spread_eq : Spread.ofWeights weights = .ok spread
  decodeTable_eq : decodeTable = spread.decodeTable weights
  nextStates_eq : nextStates = spread.nextStates weights
  transforms_eq : transforms = weights.transforms

namespace Tables

/-- Builds tables from weights. The parameters have to name the same table size. -/
def ofWeights (w : Weights) (params : Params) : Except SetupError Tables :=
  match hcheck : params.check with
  | .error e => .error e
  | .ok () =>
    -- The weights may have been normalized for a table of another size.
    if hlog : w.tableLog = params.tableLog then
      match hspread : Spread.ofWeights w with
      | .error e => .error e
      | .ok spread =>
        .ok {
          params
          weights := w
          spread
          decodeTable := spread.decodeTable w
          nextStates := spread.nextStates w
          transforms := w.transforms
          check_eq := hcheck
          tableLog_eq := hlog
          spread_eq := hspread
          decodeTable_eq := rfl
          nextStates_eq := rfl
          transforms_eq := rfl }
    else .error (.tableLog w.tableLog params.tableLog)

/-- Normalizes a histogram and builds tables from it. -/
def ofHistogram (h : Histogram) (params : Params) : Except SetupError Tables := do
  params.check
  let w ← Weights.ofHistogram h params.tableLog
  ofWeights w params

/-- The number of states. -/
def tableSize (t : Tables) : Nat := t.params.tableSize

/-- The number of symbol ids. -/
def alphabetSize (t : Tables) : Nat := t.weights.alphabetSize

/-- The transform of a symbol, if it has a state to be encoded with. -/
def transform? (t : Tables) (symbol : Nat) : Option Transform :=
  if 0 < t.weights.weight symbol then t.transforms[symbol]? else none

/-- A line that says what the tables were built for. -/
def summary (t : Tables) : String :=
  let log := t.params.tableLog
  let bits := t.params.lengthBits
  let size := t.alphabetSize
  s!"FseTables \x7b table_log: {log}, block_size_bits: {bits}, alphabet_size: {size}, .. \x7d"

end Tables

end Tans
