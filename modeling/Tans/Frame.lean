import Tans.Frame.Segment

/-!
# Frames

A frame is the stored form of a byte sequence: its chunks, each coded as a segment, one after the
other and with nothing between.

* `flatten_chunks`: chunks split a sequence.
* `chunks_append`: behind whole chunks a sequence is split on its own.
-/

namespace Tans

/-- Splits a list into chunks of `n` elements, the last one possibly shorter. Chunks are not empty,
so `n = 0` splits as `n = 1` does. -/
def chunks {α : Type} (n : Nat) : List α → List (List α)
  | [] => []
  | x :: xs => (x :: xs.take (n - 1)) :: chunks n (xs.drop (n - 1))
termination_by xs => xs.length
decreasing_by simp only [List.length_drop, List.length_cons]; omega

/-- Chunks in a row are the list that was split. -/
theorem flatten_chunks {α : Type} (n : Nat) (xs : List α) : (chunks n xs).flatten = xs := by
  fun_induction chunks n xs with
  | case1 => rfl
  | case2 x xs ih => simp [ih]

/-- A list is split after a number of whole chunks. -/
theorem chunks_append {α : Type} {n : Nat} {xs ys : List α} (hn : 1 ≤ n) (h : n ∣ xs.length) :
    chunks n (xs ++ ys) = chunks n xs ++ chunks n ys := by
  fun_induction chunks n xs with
  | case1 => rfl
  | case2 x xs ih =>
    rw [List.length_cons] at h
    -- The list is not empty and its length a multiple of `n`, so the first chunk is whole.
    have hle : n - 1 ≤ xs.length := by
      have := Nat.le_of_dvd (Nat.succ_pos _) h
      omega
    have hdrop : n ∣ (xs.drop (n - 1)).length := by
      have hlen : (xs.drop (n - 1)).length = xs.length + 1 - n := by
        rw [List.length_drop]
        omega
      rw [hlen]
      exact Nat.dvd_sub h (Nat.dvd_refl n)
    rw [List.cons_append, chunks, List.take_append_of_le_length hle,
      List.drop_append_of_le_length hle, ih hdrop, List.cons_append]

/-- How a byte sequence is framed. -/
structure FrameOptions where
  /-- The number of bytes in a segment; zero puts all of them into one. -/
  blockSize : Nat := 32768
  tableLog : Nat := 12
deriving DecidableEq, Repr

/-- A byte sequence in stored form, and how long it was. -/
structure Frame where
  bytes : List UInt8
  inputSize : Nat
deriving DecidableEq, Repr

namespace Frame

/-- The size of a frame as a fraction of what it stores. -/
def ratio (f : Frame) : Float :=
  if f.inputSize = 0 then 0 else f.bytes.length.toFloat / f.inputSize.toFloat

/-- Frames a byte sequence. -/
def encode (input : List UInt8) (options : FrameOptions) : Except Error Frame := do
  (Segment.params options.tableLog).check.mapError Error.setup
  -- An empty input has no chunks, so its size zero is never used.
  let size := if options.blockSize = 0 then input.length else options.blockSize
  let segments ← (chunks size input).mapM (Segment.ofBytes options.tableLog)
  return ⟨segments.flatMap Segment.toBytes, input.length⟩

/-- The bytes stored behind a cursor, where `produced` bytes were decoded before it. -/
def decodeFrom (limit : Option Nat) (produced : Nat) (c : Cursor UInt8) :
    Except Error (List UInt8) :=
  if c.rest.isEmpty then .ok []
  else
    match _h : Segment.read limit produced c with
    | .error e _ => .error e
    | .ok segment c' => do
      let bytes ← segment.decode
      let rest ← decodeFrom limit (produced + bytes.length) c'
      return bytes ++ rest
termination_by c.rest.length
decreasing_by exact Segment.rest_length_lt_of_read _h

/-- The byte sequence that a frame stores, if it is not longer than the limit. The length that a
segment declares is held against the limit before the segment is decoded. -/
def decode (data : List UInt8) (limit : Option Nat) : Except Error (List UInt8) :=
  decodeFrom limit 0 (Cursor.ofList data 0)

end Frame

end Tans
