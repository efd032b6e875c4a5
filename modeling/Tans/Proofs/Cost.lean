import Mathlib.Algebra.Ring.Int.Defs
import Tans.Proofs.EncoderStep
import Tans.Proofs.Stream
import Tans.Proofs.Tiling

/-!
# What a symbol costs

A symbol of weight `w` costs `tableLog - log2 w` bits or one bit less. The decoder reads the larger
number in as many states of the symbol as `w` lacks to the next power of two, and the encoder
flushes it from the states that are at least `w` shifted by that many bits. So the length of a block
is known up to one bit for each symbol.

* `Tables.exists_entriesOf_eq_append`, `Tables.width_of_encodeSymbol`: who reads and who flushes how
  many bits.
* `Tables.IsBlock.length_bounds`: the length of a block.
-/

namespace Tans

/-! ### Sub-states of one symbol -/

namespace DecodeEntry

variable {tableLog w : Nat}

/-- The sub-states of a symbol of weight `w`, split at the power of two among them. -/
theorem range'_eq_append (hpos : 0 < w) :
    List.range' w w = List.range' w (2 ^ (w.log2 + 1) - w) ++
      List.range' (2 ^ (w.log2 + 1)) (2 * w - 2 ^ (w.log2 + 1)) := by
  have hlow : 2 ^ w.log2 ≤ w := Nat.log2_self_le (Nat.ne_of_gt hpos)
  have hhigh : w < 2 ^ (w.log2 + 1) := Nat.lt_log2_self
  -- The power of two lies between the weight and twice the weight.
  have hlen : w = (2 ^ (w.log2 + 1) - w) + (2 * w - 2 ^ (w.log2 + 1)) := by
    rw [Nat.pow_succ] at *
    omega
  calc List.range' w w
      = List.range' w ((2 ^ (w.log2 + 1) - w) + (2 * w - 2 ^ (w.log2 + 1))) := by rw [← hlen]
    _ = List.range' w (2 ^ (w.log2 + 1) - w) ++
        List.range' (w + (2 ^ (w.log2 + 1) - w)) (2 * w - 2 ^ (w.log2 + 1)) :=
      List.range'_append_1.symm
    _ = _ := by rw [Nat.add_sub_cancel' (Nat.le_of_lt hhigh)]

/-- Sub-states below the next power of two lack as many bits as the least one. -/
theorem missingBits_of_lt {y : Nat} (hpos : 0 < w) (hle : w ≤ y) (hlt : y < 2 ^ (w.log2 + 1)) :
    missingBits tableLog y = missingBits tableLog w := by
  have hw : 2 ^ w.log2 ≤ w := Nat.log2_self_le (Nat.ne_of_gt hpos)
  have hlog : y.log2 = w.log2 := (Nat.log2_eq_iff (by omega)).2 ⟨by omega, hlt⟩
  rw [missingBits, missingBits, hlog]

/-- The other sub-states lack one bit less. -/
theorem missingBits_add_one_of_le {y : Nat} (hle : w ≤ 2 ^ tableLog)
    (hge : 2 ^ (w.log2 + 1) ≤ y) (hlt : y < 2 * w) :
    missingBits tableLog y + 1 = missingBits tableLog w := by
  have hw : w < 2 ^ (w.log2 + 1) := Nat.lt_log2_self
  have hy : 0 < y := Nat.lt_of_lt_of_le (Nat.two_pow_pos _) hge
  have hlog : y.log2 = w.log2 + 1 :=
    (Nat.log2_eq_iff (by omega)).2 ⟨hge, by rw [Nat.pow_succ]; omega⟩
  have hlog_le : y.log2 ≤ tableLog := log2_le_of_lt hy (by omega)
  unfold missingBits
  omega

end DecodeEntry

namespace Tables

variable {t : Tables}

/-- The number of bits that a symbol costs at most. -/
def cost (t : Tables) (symbol : Nat) : Nat :=
  t.params.tableLog - (t.weights.weight symbol).log2

/-! ### Decoding -/

/-- The first entries of a symbol read its cost, as many as its weight lacks to the next power of
two. All others read a bit less. -/
theorem exists_entriesOf_eq_append {symbol : UInt16}
    (hpos : 0 < t.weights.weight symbol.toNat) :
    ∃ wide narrow, t.entriesOf symbol = wide ++ narrow ∧
      (∀ entry ∈ wide, entry.width.toNat = t.cost symbol.toNat) ∧
      wide.length + t.weights.weight symbol.toNat =
        2 ^ ((t.weights.weight symbol.toNat).log2 + 1) ∧
      (∀ entry ∈ narrow, entry.width.toNat + 1 = t.cost symbol.toNat) ∧
      narrow.length + 2 ^ ((t.weights.weight symbol.toNat).log2 + 1) =
        2 * t.weights.weight symbol.toNat := by
  have hlow := Nat.log2_self_le (Nat.ne_of_gt hpos)
  have hhigh : t.weights.weight symbol.toNat < 2 ^ ((t.weights.weight symbol.toNat).log2 + 1) :=
    Nat.lt_log2_self
  have heq := entriesOf_eq hpos
  rw [DecodeEntry.range'_eq_append hpos, List.map_append] at heq
  refine ⟨_, _, heq, fun entry h => ?_, ?_, fun entry h => ?_, ?_⟩
  -- An entry of the first part is made for a sub-state below the power of two.
  · obtain ⟨y, hy, rfl⟩ := List.mem_map.1 h
    rw [List.mem_range'_1] at hy
    rw [DecodeEntry.toNat_width_ofSubState _ _ _ t.tableLog_inRange]
    exact DecodeEntry.missingBits_of_lt hpos hy.1 (by omega)
  · rw [List.length_map, List.length_range']
    omega
  -- An entry of the second part is made for one from the power of two on.
  · obtain ⟨y, hy, rfl⟩ := List.mem_map.1 h
    rw [List.mem_range'_1] at hy
    rw [DecodeEntry.toNat_width_ofSubState _ _ _ t.tableLog_inRange]
    exact DecodeEntry.missingBits_add_one_of_le (t.weight_le symbol.toNat) hy.1 (by omega)
  · rw [List.length_map, List.length_range', Nat.pow_succ]
    omega

/-- How many states of a symbol read its cost, and how many a bit less. -/
theorem countP_width_entriesOf {symbol : UInt16} (hpos : 0 < t.weights.weight symbol.toNat) :
    (t.entriesOf symbol).countP (fun e => e.width.toNat = t.cost symbol.toNat) +
        t.weights.weight symbol.toNat = 2 ^ ((t.weights.weight symbol.toNat).log2 + 1) ∧
      (t.entriesOf symbol).countP (fun e => e.width.toNat + 1 = t.cost symbol.toNat) +
        2 ^ ((t.weights.weight symbol.toNat).log2 + 1) = 2 * t.weights.weight symbol.toNat := by
  obtain ⟨wide, narrow, heq, hwide, hwideLen, hnarrow, hnarrowLen⟩ :=
    exists_entriesOf_eq_append hpos
  rw [heq, List.countP_append, List.countP_append, ← hwideLen]
  constructor
  · rw [List.countP_eq_length.2 fun entry h => decide_eq_true (hwide entry h),
      List.countP_eq_zero.2 fun entry h => ?_, Nat.add_zero]
    have hwidth := hnarrow entry h
    rw [decide_eq_true_iff]
    omega
  · rw [List.countP_eq_length.2 fun entry h => decide_eq_true (hnarrow entry h),
      List.countP_eq_zero.2 fun entry h => ?_, Nat.zero_add, hwideLen, hnarrowLen]
    have hwidth := hwide entry h
    rw [decide_eq_true_iff]
    omega

/-! ### Encoding -/

/-- A weight, shifted by the cost, lies among the encoder states or just above them. -/
theorem weight_mul_two_pow_cost {symbol : Nat} (hpos : 0 < t.weights.weight symbol) :
    2 ^ t.params.tableLog ≤ t.weights.weight symbol * 2 ^ t.cost symbol ∧
      t.weights.weight symbol * 2 ^ t.cost symbol ≤ 2 * 2 ^ t.params.tableLog := by
  have hle := t.weight_le symbol
  have hscale := DecodeEntry.two_pow_le_mul_missingBits t.params.tableLog hpos (by omega)
  exact ⟨hscale.1, Nat.le_trans (Nat.mul_le_mul_right _ (Nat.le_succ _)) hscale.2⟩

/-- The encoder flushes the cost of a symbol from its large states, and a bit less from others. -/
theorem width_of_encodeSymbol {x symbol x' : Nat} {field : Bits.Field}
    (h : t.encodeSymbol x symbol = .ok (x', field)) :
    (t.weights.weight symbol * 2 ^ t.cost symbol ≤ x → field.width = t.cost symbol) ∧
    (x < t.weights.weight symbol * 2 ^ t.cost symbol → field.width + 1 = t.cost symbol) := by
  obtain ⟨hlow, hhigh⟩ := inRange_of_encodeSymbol h
  have hpos := weight_pos_of_encodeSymbol h
  obtain ⟨id, rfl⟩ := exists_toNat_eq hpos
  obtain ⟨n, u, hle, hlt, -, hencode⟩ := exists_encodeSymbol_eq_ok hlow hhigh hpos
  cases h.symm.trans hencode
  rw [tableSize_eq] at hlow hhigh
  have hsplit := div_two_pow_of_threshold (t.weight_le id.toNat) (weight_mul_two_pow_cost hpos) hlow
    hhigh
  -- Whatever leaves a sub-state is what was flushed.
  constructor
  · intro hx
    obtain ⟨hle', hlt'⟩ := hsplit.1 hx
    exact width_unique hle hlt hle' hlt'
  · intro hx
    obtain ⟨n', hn', hle', hlt'⟩ := hsplit.2 hx
    rw [width_unique hle hlt hle' hlt']
    exact hn'

/-! ### Blocks -/

/-- A step reads the cost of its symbol, or one bit less. -/
theorem Step.width_bounds {u u' : Nat} {symbol : UInt16} {field : Bits.Field}
    (h : t.Step u symbol field u') :
    field.width ≤ t.cost symbol.toNat ∧ t.cost symbol.toNat ≤ field.width + 1 := by
  obtain ⟨hlarge, hsmall⟩ := width_of_encodeSymbol h.encodeSymbol
  rcases Nat.lt_or_ge (t.tableSize + u') (t.weights.weight symbol.toNat * 2 ^ t.cost symbol.toNat)
    with hx | hx
  · have := hsmall hx
    omega
  · have := hlarge hx
    omega

/-- Each step of a run adds its own bounds. The least width may be one below zero, when a symbol has
the table to itself. -/
theorem Run.length_bounds {u u' : Nat} {symbols : List UInt16} {bits : Bits}
    (h : t.Run u symbols bits u') :
    (symbols.map fun s => (t.cost s.toNat : Int) - 1).sum ≤ bits.length ∧
      (bits.length : Int) ≤ (symbols.map fun s => (t.cost s.toNat : Int)).sum := by
  -- By induction on the run, each step reads within its bounds.
  induction h with
  | nil u => simp
  | @cons u u₁ u' symbol symbols field bits hstep _ ih =>
    have hlen : field.bits.length = field.width := Bits.length_ofNat _ _
    have hwidth := hstep.width_bounds
    simp only [List.map_cons, List.sum_cons, List.length_append, hlen]
    omega

/-- A block has its header, and what its symbols cost. -/
theorem IsBlock.length_bounds {symbols : List UInt16} {bits : Bits} (h : t.IsBlock symbols bits)
    (hne : symbols ≠ []) :
    (t.params.lengthBits + t.params.tableLog : Int) +
        (symbols.map fun s => (t.cost s.toNat : Int) - 1).sum ≤ bits.length ∧
      (bits.length : Int) ≤ (t.params.lengthBits + t.params.tableLog : Int) +
        (symbols.map fun s => (t.cost s.toNat : Int)).sum := by
  cases h with
  | empty => exact absurd rfl hne
  | run _ _ hrun =>
    have hpayload := hrun.length_bounds
    simp only [List.length_append, Bits.length_ofNat]
    omega

/-- What a symbol of weight `w` costs. With `k = tableLog - log2 w`, as many of its states as `w`
lacks to the next power of two read `k` bits, and all others `k - 1`. The encoder flushes `k` bits
from the states that are at least `w * 2 ^ k`, and `k - 1` from those below. So a block that is not
empty is encoded in its header and at most `k` bits for each of its symbols, and no symbol saves
more than one bit. -/
theorem cost_split (t : Tables) :
    (∀ symbol : UInt16, ∀ w, w = t.weights.weight symbol.toNat → 0 < w →
      (t.entriesOf symbol).countP (fun e => e.width.toNat = t.cost symbol.toNat) + w =
        2 ^ (w.log2 + 1) ∧
      (t.entriesOf symbol).countP (fun e => e.width.toNat + 1 = t.cost symbol.toNat) +
        2 ^ (w.log2 + 1) = 2 * w ∧
      (t.entriesOf symbol).length = w ∧
      ∀ x, t.tableSize ≤ x → x < 2 * t.tableSize →
        ∃ x' field, t.encodeSymbol x symbol.toNat = .ok (x', field) ∧
          (w * 2 ^ t.cost symbol.toNat ≤ x → field.width = t.cost symbol.toNat) ∧
          (x < w * 2 ^ t.cost symbol.toNat → field.width + 1 = t.cost symbol.toNat)) ∧
    (∀ symbols, symbols ≠ [] → symbols.length ≤ t.params.maxBlockLen →
      (∀ s ∈ symbols, 0 < t.weights.weight s) →
      ∃ block, t.encodeBlock symbols = .ok block ∧
        (t.params.lengthBits + t.params.tableLog : Int) +
            (symbols.map fun s => (t.cost s : Int) - 1).sum ≤ block.bitLength ∧
        (block.bitLength : Int) ≤ (t.params.lengthBits + t.params.tableLog : Int) +
            (symbols.map fun s => (t.cost s : Int)).sum) := by
  constructor
  · intro symbol w hw hpos
    subst hw
    obtain ⟨hwide, hnarrow⟩ := countP_width_entriesOf hpos
    refine ⟨hwide, hnarrow, length_entriesOf hpos, fun x hlow hhigh => ?_⟩
    -- The step exists, and its width is known from the state.
    obtain ⟨n, u, -, -, -, hencode⟩ := exists_encodeSymbol_eq_ok hlow hhigh hpos
    exact ⟨_, _, hencode, width_of_encodeSymbol hencode⟩
  · intro symbols hne hlen hpos
    obtain ⟨block, hblock⟩ := Encodable.exists_encodeBlock ⟨hpos, hlen⟩
    obtain ⟨ids, rfl⟩ := exists_map_toNat_eq hpos
    have hids : ids ≠ [] := fun hnil => hne (by rw [hnil, List.map_nil])
    have hbounds := (isBlock_of_encodeBlock hblock).length_bounds hids
    rw [Block.length_bits] at hbounds
    rw [List.map_map, List.map_map]
    exact ⟨block, hblock, hbounds⟩

/-- Two of the six states of a symbol read two bits, and state 24 is the first to flush as many. The
symbol of a table of its own costs no bits, where the lower bound counts one less. -/
theorem cost_split_sixteen :
    (6 = sixteen.weights.weight 0 ∧
      (sixteen.entriesOf 0).countP (fun e => e.width.toNat = 2) + 6 = 8 ∧
      (sixteen.entriesOf 0).countP (fun e => e.width.toNat + 1 = 2) + 8 = 2 * 6 ∧
      (∃ x' field, sixteen.encodeSymbol 23 0 = .ok (x', field) ∧ field.width + 1 = 2) ∧
      ∃ x' field, sixteen.encodeSymbol 24 0 = .ok (x', field) ∧ field.width = 2) ∧
    ∃ block, two.encodeBlock [0, 0, 0] = .ok block ∧
      (3 + 1 : Int) + (-1 + -1 + -1) ≤ block.bitLength ∧
      (block.bitLength : Int) ≤ (3 + 1 : Int) + 0 := by
  obtain ⟨hwide, hnarrow, -, hencode⟩ := (cost_split sixteen).1 0 6 (by decide) (by decide)
  obtain ⟨x₁, field₁, hencode₁, -, hsmall⟩ := hencode 23 (by decide) (by decide)
  obtain ⟨x₂, field₂, hencode₂, hlarge, -⟩ := hencode 24 (by decide) (by decide)
  exact ⟨⟨by decide, hwide, hnarrow, ⟨x₁, field₁, hencode₁, hsmall (by decide)⟩,
    x₂, field₂, hencode₂, hlarge (by decide)⟩,
    (cost_split two).2 [0, 0, 0] (by decide) (by decide) (by decide)⟩

end Tables

end Tans
