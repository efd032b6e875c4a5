import Tans.Proofs.Words

/-!
# Exact table arithmetic

Tables are computed and used with operations that wrap around and with casts that keep low bits
only. None of that ever shows. At the largest table size the bounds are met exactly: encoder states
go up to `2 ^ 16 - 1`, and the threshold of a symbol that has all the states is `2 ^ 16`, which is
also what it is subtracted from.

* `Transform.threshold_le`, `Transform.add_widthBias_lt`: the bias, and a state added to it.
* `Transform.rank_mem_range`: the places in the next-state table that a transform leads to.
* `Weights.tables_exact`: everything that is computed for a slot, a symbol and a state.
-/

namespace Tans

namespace Transform

/-- The least state from which the larger number of bits is flushed. -/
def threshold (tableLog weight : Nat) : Nat := weight <<< maxWidth tableLog weight

/-- The place in the next-state table that a transform sends an encoder state to. The offset may be
negative, so this is a sum of signed numbers. -/
def rank (transform : Transform) (state : Nat) : Int :=
  (state >>> transform.width state : Nat) + transform.rankOffset

variable {tableLog weight : Nat}

/-- The threshold is at most what it is subtracted from. -/
theorem threshold_le (hlog : TableLogInRange tableLog) (hpos : 0 < weight)
    (hle : weight ≤ 2 ^ tableLog) :
    threshold tableLog weight ≤ 2 ^ 16 ∧
      threshold tableLog weight ≤ maxWidth tableLog weight <<< 16 := by
  have hpow := hlog.two_pow_le
  have hwidth := maxWidth_pos hlog.1 hpos hle
  have hthreshold := (mul_two_pow_maxWidth hpos hle).2
  rw [threshold, Nat.shiftLeft_eq, Nat.shiftLeft_eq]
  -- At least one bit is flushed above the threshold, so `2 ^ 16` is subtracted from.
  omega

/-- The bias is the exact difference. -/
theorem toNat_widthBias_eq_sub (start : Nat) (hlog : TableLogInRange tableLog) (hpos : 0 < weight)
    (hle : weight ≤ 2 ^ tableLog) :
    (ofWeight tableLog weight start).widthBias.toNat =
      maxWidth tableLog weight <<< 16 - threshold tableLog weight := by
  rw [toNat_widthBias start hlog hpos hle, threshold, Nat.shiftLeft_eq, Nat.shiftLeft_eq]

/-- Adding a state to the bias does not carry out of 32 bits. -/
theorem add_widthBias_lt (start : Nat) {x : Nat} (hlog : TableLogInRange tableLog)
    (hpos : 0 < weight) (hle : weight ≤ 2 ^ tableLog) (hx : x < 2 * 2 ^ tableLog) :
    x + (ofWeight tableLog weight start).widthBias.toNat < 2 ^ 32 := by
  have hpow := hlog.two_pow_le
  have hwidth : maxWidth tableLog weight ≤ 15 := Nat.le_trans maxWidth_le hlog.2
  rw [toNat_widthBias start hlog hpos hle]
  omega

/-- The width is what the sum has above bit sixteen, as if it were not computed in 32 bits. -/
theorem width_eq_shiftRight (start : Nat) {x : Nat} (hlog : TableLogInRange tableLog)
    (hpos : 0 < weight) (hle : weight ≤ 2 ^ tableLog) (hx : x < 2 * 2 ^ tableLog) :
    (ofWeight tableLog weight start).width x =
      (x + (ofWeight tableLog weight start).widthBias.toNat) >>> 16 := by
  have hsum := add_widthBias_lt start hlog hpos hle hx
  -- An encoder state fits 32 bits by far.
  have hx : (UInt32.ofNat x).toNat = x :=
    UInt32.toNat_ofNat_of_lt' (by simp only [UInt32.size]; omega)
  rw [width, UInt32.toNat_shiftRight, UInt32.toNat_add, hx, Nat.mod_eq_of_lt hsum]
  rfl

/-- A transform leads to the places of its own symbol. -/
theorem rank_mem_range (start : Nat) {x : Nat} (hlog : TableLogInRange tableLog)
    (hpos : 0 < weight) (hle : weight ≤ 2 ^ tableLog) (hlow : 2 ^ tableLog ≤ x)
    (hhigh : x < 2 * 2 ^ tableLog) :
    (start : Int) ≤ (ofWeight tableLog weight start).rank x ∧
      (ofWeight tableLog weight start).rank x < start + weight := by
  have hsubState := div_two_pow_width start hlog hpos hle hlow hhigh
  rw [rank, rankOffset_ofWeight hpos, Nat.shiftRight_eq_div_pow]
  -- What is left of the state is in `[weight, 2 * weight)`, and the offset takes a weight off.
  omega

end Transform

namespace Weights

variable {w : Weights}

/-- A symbol's transform leads from any encoder state to one of the symbol's places in the
next-state table. -/
theorem rank_mem_places {symbol x : Nat} {transform : Transform} (hpos : 0 < w.weight symbol)
    (htransform : w.transforms[symbol]? = some transform) (hlow : w.tableSize ≤ x)
    (hhigh : x < 2 * w.tableSize) :
    (w.start symbol : Int) ≤ transform.rank x ∧
      transform.rank x < w.start symbol + w.weight symbol := by
  have hle := w.weight_le symbol
  rw [tableSize_eq_two_pow] at hle hlow hhigh
  rw [getElem?_transforms (lt_alphabetSize hpos)] at htransform
  cases htransform
  exact Transform.rank_mem_range _ w.tableLog_inRange hpos hle hlow hhigh

/-- The places of all symbols are in the next-state table. -/
theorem rank_lt_tableSize {symbol x : Nat} {transform : Transform} (hpos : 0 < w.weight symbol)
    (htransform : w.transforms[symbol]? = some transform) (hlow : w.tableSize ≤ x)
    (hhigh : x < 2 * w.tableSize) :
    0 ≤ transform.rank x ∧ transform.rank x < w.tableSize := by
  have hrank := rank_mem_places hpos htransform hlow hhigh
  have hle := w.start_add_weight_le symbol
  omega

end Weights

namespace Tables

variable {t : Tables}

/-- The transform of a symbol is there if the symbol has a state, and it is the one of the weights. -/
theorem transform?_eq_some_iff {symbol : Nat} {transform : Transform} :
    t.transform? symbol = some transform ↔
      0 < t.weights.weight symbol ∧ t.weights.transforms[symbol]? = some transform := by
  rw [transform?, t.transforms_eq]
  split
  · next hpos => simp [hpos]
  · next hzero => simp [hzero]

/-- A step flushes the width and goes to what the next-state table has at the rank. -/
theorem encodeSymbol_of_transform? {x symbol : Nat} {transform : Transform}
    (hlow : t.tableSize ≤ x) (hhigh : x < 2 * t.tableSize)
    (h : t.transform? symbol = some transform) :
    t.encodeSymbol x symbol = .ok ((t.nextStates.getD (transform.rank x).toNat 0).toNat,
      ⟨x % 2 ^ transform.width x, transform.width x⟩) := by
  rw [encodeSymbol, if_neg (by omega), h, ← Nat.one_shiftLeft]
  rfl

end Tables

namespace Weights

/-- No number of the tables wraps around or is cut off, whatever the weights. For each slot `u`, with
sub-state `y`: the logarithm of `y` is at most that of the table size, the width is their exact
difference, shifting `y` by the width reaches the table size, and what lies above it fits sixteen
bits and is the base that the entry holds; `tableSize + u` fits sixteen bits and stands in the
next-state table. For each symbol that has a state: the threshold is at most `2 ^ 16` and at most
what it is subtracted from, the bias and the offset are the exact differences, the symbol's places
end inside of the next-state table, and from each encoder state `x` the sum of `x` and the bias fits
32 bits and the rank is one of these places, so neither negative nor past the end. With these numbers
a step is taken. -/
theorem tables_exact (w : Weights) :
    ∃ s, Spread.ofWeights w = .ok s ∧
      (∀ u < w.tableSize,
        (∃ symbol y entry, s.symbols[u]? = some symbol ∧ (s.subStates w)[u]? = some y ∧
          (s.decodeTable w)[u]? = some entry ∧
          w.weight symbol.toNat ≤ y ∧ y < 2 * w.weight symbol.toNat ∧
          y.log2 ≤ w.tableLog ∧ entry.width.toNat = w.tableLog - y.log2 ∧
          w.tableSize ≤ y <<< (w.tableLog - y.log2) ∧
          y <<< (w.tableLog - y.log2) - w.tableSize < 2 ^ 16 ∧
          entry.base.toNat = y <<< (w.tableLog - y.log2) - w.tableSize) ∧
        w.tableSize + u < 2 ^ 16 ∧
        ∃ (rank : Nat) (x : UInt16), (s.nextStates w)[rank]? = some x ∧
          x.toNat = w.tableSize + u) ∧
      ∀ symbol, 0 < w.weight symbol → ∃ transform, w.transforms[symbol]? = some transform ∧
        (w.weight symbol - 1).log2 ≤ w.tableLog ∧
        Transform.threshold w.tableLog (w.weight symbol) ≤ 2 ^ 16 ∧
        Transform.threshold w.tableLog (w.weight symbol) ≤
          Transform.maxWidth w.tableLog (w.weight symbol) <<< 16 ∧
        transform.widthBias.toNat = Transform.maxWidth w.tableLog (w.weight symbol) <<< 16 -
          Transform.threshold w.tableLog (w.weight symbol) ∧
        transform.rankOffset = w.start symbol - w.weight symbol ∧
        w.start symbol + w.weight symbol ≤ w.tableSize ∧
        ∀ x, w.tableSize ≤ x → x < 2 * w.tableSize →
          x + transform.widthBias.toNat < 2 ^ 32 ∧
          transform.width x = (x + transform.widthBias.toNat) >>> 16 ∧
          w.start symbol ≤ transform.rank x ∧
          transform.rank x < w.start symbol + w.weight symbol ∧
          0 ≤ transform.rank x ∧ transform.rank x < w.tableSize ∧
          ∀ t : Tables, t.weights = w → t.encodeSymbol x symbol =
            .ok ((t.nextStates.getD (transform.rank x).toNat 0).toNat,
              ⟨x % 2 ^ transform.width x, transform.width x⟩) := by
  obtain ⟨s, hs⟩ := Spread.exists_ofWeights w
  refine ⟨s, hs, fun u hu => ?_, fun symbol hpos => ?_⟩
  -- Each slot is the `j`-th of a symbol, and all of its numbers are known from that.
  · obtain ⟨symbol, j, hn⟩ := Spread.exists_nth_of_lt hs hu
    obtain ⟨x, hnext, hx⟩ := exists_exact_nextState hs hn
    obtain ⟨entry, hentry, hexact⟩ := exists_exact_entry hs hn
    have hsubState := Spread.getElem?_subStates hs hn
    have hj := hn.lt_weight hs
    have hshifted := hexact.le_shifted
    have hbase := hexact.base_eq
    rw [hexact.width_eq, ← Nat.shiftLeft_eq, ← tableSize_eq_two_pow] at hshifted hbase
    -- The base fits the sixteen bits that hold it.
    have hfits := entry.base.toNat_lt
    exact ⟨⟨symbol, _, entry, by simpa using hn.symbol_eq, hsubState, hentry, by omega, by omega,
      hexact.log2_le, hexact.width_eq, hshifted, by omega, hbase⟩, tableSize_add_lt hu, _, x,
      hnext, hx⟩
  -- Each symbol has a transform, whose numbers are known from its weight and start.
  · have hlog := w.tableLog_inRange
    have hle := w.weight_le symbol
    rw [tableSize_eq_two_pow] at hle
    have htransform := getElem?_transforms (lt_alphabetSize hpos)
    obtain ⟨_, -, hexact⟩ := exists_exact_transform (lt_alphabetSize hpos)
    obtain ⟨hsmall, hbig⟩ := Transform.threshold_le hlog hpos hle
    refine ⟨_, htransform, hexact.log2_le, hsmall, hbig,
      Transform.toNat_widthBias_eq_sub _ hlog hpos hle, Transform.rankOffset_ofWeight hpos,
      w.start_add_weight_le symbol, fun x hlow hhigh => ?_⟩
    obtain ⟨hge, hlt⟩ := rank_mem_places hpos htransform hlow hhigh
    obtain ⟨hnonneg, hinside⟩ := rank_lt_tableSize hpos htransform hlow hhigh
    have hx := hhigh
    rw [tableSize_eq_two_pow] at hx
    refine ⟨Transform.add_widthBias_lt _ hlog hpos hle hx,
      Transform.width_eq_shiftRight _ hlog hpos hle hx, hge, hlt, hnonneg, hinside,
      fun t ht => ?_⟩
    -- Tables with these weights have this transform.
    subst ht
    rw [t.tableSize_weights] at hlow hhigh
    exact Tables.encodeSymbol_of_transform? hlow hhigh
      (Tables.transform?_eq_some_iff.2 ⟨hpos, htransform⟩)

/-- The largest table, with one symbol. -/
def largest : Weights := ⟨#[32768], 15, by decide, by decide, by decide⟩

/-- The last slot of the largest table, and its symbol from the last encoder state. Nothing is left
of the bias, as threshold and minuend are both `2 ^ 16`. -/
theorem tables_exact_largest :
    ∃ s, Spread.ofWeights largest = .ok s ∧
      (32767 < largest.tableSize ∧ ∃ y entry, (s.subStates largest)[32767]? = some y ∧
        (s.decodeTable largest)[32767]? = some entry ∧ 32768 ≤ y ∧ y < 65536 ∧
        entry.base.toNat = y <<< (15 - y.log2) - 32768 ∧ 32768 + 32767 < 2 ^ 16) ∧
      (0 < largest.weight 0 ∧ largest.tableSize ≤ 65535 ∧ 65535 < 2 * largest.tableSize ∧
        ∃ transform, largest.transforms[0]? = some transform ∧
          Transform.threshold 15 32768 = 2 ^ 16 ∧ transform.widthBias.toNat = 0 ∧
          65535 + transform.widthBias.toNat < 2 ^ 32 ∧ 0 ≤ transform.rank 65535 ∧
          transform.rank 65535 < 32768) := by
  obtain ⟨s, hs, hslots, hsymbols⟩ := tables_exact largest
  obtain ⟨⟨symbol, y, entry, -, hy, hentry, hge, hlt, -, -, -, -, hbase⟩, hstate, -⟩ :=
    hslots 32767 (by decide)
  obtain ⟨transform, htransform, -, -, -, hbias, -, -, hstep⟩ := hsymbols 0 (by decide)
  obtain ⟨hsum, -, -, -, hnonneg, hinside, -⟩ := hstep 65535 (by decide) (by decide)
  -- The one symbol that has a state is zero.
  have hsymbol : symbol.toNat < largest.alphabetSize := lt_alphabetSize (by omega)
  obtain rfl : symbol = 0 := UInt16.toNat_inj.1 (Nat.lt_one_iff.1 hsymbol)
  refine ⟨s, hs, ⟨by decide, y, entry, hy, hentry, hge, hlt, hbase, hstate⟩, by decide, by decide,
    by decide, transform, htransform, by decide +kernel, ?_, hsum, hnonneg, hinside⟩
  rw [hbias]
  decide +kernel

end Weights

end Tans
