import Tans.Params

/-!
# Histograms

How often each symbol id occurs. The alphabet of a histogram is an initial range of ids; an id of
count zero belongs to it but takes no part in coding.
-/

namespace Tans

/-- The sum of a list of numbers. -/
def sum (xs : List Nat) : Nat := xs.foldr (· + ·) 0

theorem sum_cons (x : Nat) (xs : List Nat) : sum (x :: xs) = x + sum xs := rfl

/-- The number of occurrences of each id below the size of the alphabet, counted in 32 bits. -/
structure Histogram where
  counts : Array UInt32
deriving DecidableEq, Repr

namespace Histogram

/-- Counts one more occurrence of an id, extending the alphabet to it if needed. A counter that
passes the largest 32-bit number starts again at zero. -/
def add (h : Histogram) (id : Nat) : Histogram :=
  let counts := if h.counts.size ≤ id then
      h.counts ++ Array.replicate (id + 1 - h.counts.size) 0
    else h.counts
  ⟨counts.modify id (· + 1)⟩

/-- The histogram of a sequence of ids, whose alphabet ends with the largest of them. -/
def ofSymbols (ids : List Nat) : Histogram := ids.foldl add ⟨#[]⟩

/-- The histogram of a sequence of bytes, over all 256 of them. -/
def ofBytes (bytes : List UInt8) : Histogram :=
  bytes.foldl (fun h b => h.add b.toNat) ⟨Array.replicate 256 0⟩

/-- The same counts over an alphabet that ends with the largest id that occurs. -/
def trimmed (h : Histogram) : Histogram := ⟨h.counts.popWhile (· = 0)⟩

/-- The number of ids in the alphabet. -/
def alphabetSize (h : Histogram) : Nat := h.counts.size

/-- The count of an id, zero outside the alphabet. -/
def count (h : Histogram) (id : Nat) : Nat := (h.counts.getD id 0).toNat

/-- The sum of all counts. -/
def total (h : Histogram) : Nat := sum (h.counts.toList.map UInt32.toNat)

/-- The ids that occur, in ascending order. -/
def present (h : Histogram) : List Nat :=
  (List.range h.alphabetSize).filter fun id => 0 < h.count id

/-- The Shannon entropy of the counts, in bits per symbol. -/
def entropy (h : Histogram) : Float :=
  let total := h.total.toFloat
  h.present.foldl (fun sum id =>
    let p := (h.count id).toFloat / total
    sum + (-p) * p.log2) 0

end Histogram

end Tans
