import Mathlib.Algebra.Group.Action.Defs
import Mathlib.Logic.Relation
import Tans.Proofs.Construction
import Tans.Proofs.Step

/-!
# Numbers in machine words

Tables are built in machine words: 64 bits for the proportions of a histogram and for the balance
of a repair, 32 bits for weights, states and slots, 16 bits for what the tables hold. No count and
no table size makes a number of the construction leave its word, and no difference that has to be a
natural number is negative. So the tables hold the exact values of their formulas.

* `Histogram.normalizedInWords`: from counts to weights.
* `Tables.builtInWords`: from weights to tables.
-/

namespace Tans

/-! ### Shares -/

namespace Histogram

/-- No id occurs more often than all ids together. -/
theorem count_le_total (h : Histogram) (id : Nat) : h.count id ≤ h.total := by
  by_cases hid : id < h.counts.size
  · have hmem : h.count id ∈ h.counts.toList.map UInt32.toNat := by
      simpa [count, hid] using ⟨_, Array.getElem_mem hid, rfl⟩
    exact List.le_sum_of_mem hmem
  · simp [count, hid]

/-- All counts together stay far below the largest number of 64 bits. -/
theorem total_lt {h : Histogram} (hsize : h.alphabetSize ≤ maxAlphabetSize) : h.total < 2 ^ 48 := by
  -- Each counter has 32 bits, and there are at most `2 ^ 16` of them.
  have hle : ∀ n ∈ h.counts.toList.map UInt32.toNat, n ≤ 2 ^ 32 - 1 := by
    intro n hn
    obtain ⟨c, -, rfl⟩ := List.mem_map.1 hn
    have := c.toNat_lt
    omega
  have hsum := List.sum_le_card_nsmul _ _ hle
  rw [List.length_map, Array.length_toList, smul_eq_mul] at hsum
  have hsize : h.counts.size ≤ 65536 := hsize
  rw [total, sum_eq_sum]
  omega

end Histogram

/-- Rounding does not pass an integer that the quotient does not pass. -/
theorem roundDiv_le {num den n : Nat} (hden : 0 < den) (h : num ≤ n * den) :
    roundDiv num den ≤ n := by
  have hq : num / den ≤ n := Nat.div_le_of_le_mul (by rwa [Nat.mul_comm])
  have hsplit := Nat.div_add_mod' num den
  unfold roundDiv
  rcases Nat.lt_or_eq_of_le hq with hlt | rfl
  · -- Rounding adds at most one.
    dsimp only
    split
    · omega
    · split <;> omega
  · -- The quotient is an integer, so there is nothing to round.
    have hrest : num % den = 0 := by omega
    simp [hrest, hden]

namespace Weights

/-- No id asks for more states than there are. -/
theorem share_le {tableSize total count : Nat} (hsize : 0 < tableSize) (htotal : 0 < total)
    (hcount : count ≤ total) : share tableSize total count ≤ tableSize := by
  have hround : roundDiv (count * tableSize) total ≤ tableSize :=
    roundDiv_le htotal (by rw [Nat.mul_comm]; exact Nat.mul_le_mul_left _ hcount)
  unfold share
  split <;> omega

/-- The numbers behind a share fit their words: the division has 64 bits, the share 32. -/
structure ShareInWords (tableSize total count : Nat) : Prop where
  product_lt : count * tableSize < 2 ^ 64
  quotient_lt : count * tableSize / total + 1 < 2 ^ 64
  twice_rest_lt : 2 * (count * tableSize % total) < 2 ^ 64
  share_lt : share tableSize total count < 2 ^ 32

/-- Counts of 48 bits and tables of 15 bits leave all these numbers in their words. -/
theorem shareInWords {tableLog total count : Nat} (hlog : TableLogInRange tableLog)
    (htotal : 0 < total) (hlt : total < 2 ^ 48) (hcount : count ≤ total) :
    ShareInWords (2 ^ tableLog) total count := by
  have hpow := hlog.two_pow_le
  have hproduct : count * 2 ^ tableLog ≤ 2 ^ 48 * 2 ^ 15 :=
    Nat.mul_le_mul (by omega) hpow
  have hquotient := Nat.div_le_self (count * 2 ^ tableLog) total
  have hrest := Nat.mod_lt (count * 2 ^ tableLog) htotal
  have hshare := share_le (Nat.two_pow_pos tableLog) htotal hcount
  exact ⟨by omega, by omega, by omega, by omega⟩

end Weights

/-! ### Repairs -/

namespace Repair

/-- The numbers of a repair under way fit their words: a weight has 32 bits, and the deficit is a
signed number of 64 bits. -/
structure InWords (r : Repair) : Prop where
  weight_lt : ∀ w ∈ r.weights, w < 2 ^ 32
  deficit_ge : -2 ^ 63 ≤ r.deficit
  deficit_lt : r.deficit < 2 ^ 63

/-- A repair gets from one state to another by steps. -/
def Reaches : Repair → Repair → Prop :=
  Relation.ReflTransGen fun r r' => r.step = .yield r'

/-- A step brings the deficit closer to zero or leaves it. -/
theorem natAbs_deficit_step_le {r r' : Repair} (h : r.step = .yield r') :
    r'.deficit.natAbs ≤ r.deficit.natAbs := by
  obtain ⟨weights, queue, deficit⟩ := r
  simp only [step] at h
  -- Only a step that goes on is left after each test, and it moves one state or none.
  split at h
  · cases h
  cases queue with
  | nil => cases h
  | cons id rest =>
    simp only at h
    split at h
    · cases h
      dsimp only
      omega
    split at h
    · cases h
      dsimp only
      omega
    · cases h
      exact Nat.le_refl _

/-- On its way a repair keeps the balance, and the deficit gets no larger. -/
theorem Reaches.balanced {tableSize : Nat} {r r' : Repair} (h : Reaches r r')
    (hr : r.Balanced tableSize) :
    r'.Balanced tableSize ∧ r'.deficit.natAbs ≤ r.deficit.natAbs := by
  induction h with
  | refl => exact ⟨hr, Nat.le_refl _⟩
  | @tail r₁ r₂ _ hstep ih =>
    have hbalanced := ih.1.step
    rw [hstep] at hbalanced
    exact ⟨hbalanced, Nat.le_trans (natAbs_deficit_step_le hstep) ih.2⟩

/-- A repair stays in its words if its weights start out in them with some room for a table. -/
theorem Reaches.inWords {tableSize : Nat} {r r' : Repair} (h : Reaches r r')
    (hr : r.Balanced tableSize) (hsize : tableSize ≤ 2 ^ 15)
    (hsum : sum r.weights.toList ≤ 2 ^ 31) : r'.InWords := by
  obtain ⟨⟨hsum', -⟩, habs⟩ := h.balanced hr
  have hsum_eq := hr.sum_add_deficit
  -- The weights and the deficit sum to the table size, so a bound on one is a bound on the other.
  refine ⟨fun w hw => ?_, by omega, by omega⟩
  have hle : w ≤ sum r'.weights.toList := List.le_sum_of_mem (Array.mem_toList_iff.2 hw)
  omega

end Repair

namespace Histogram

/-- Normalizing a histogram takes no number out of its word: the total and the shares, the sum of
the shares as a signed number of 64 bits, and all that a repair does. -/
structure NormalizedInWords (h : Histogram) (tableLog : Nat) : Prop where
  total_lt : h.total < 2 ^ 64
  share : ∀ id, Weights.ShareInWords (2 ^ tableLog) h.total (h.count id)
  sum_lt : sum (Repair.start h (2 ^ tableLog)).weights.toList < 2 ^ 63
  repair : ∀ r, Repair.Reaches (.start h (2 ^ tableLog)) r → r.InWords

/-- Normalizing stays in its words for every alphabet of sixteen bits. -/
theorem normalizedInWords {h : Histogram} {tableLog : Nat} (hlog : TableLogInRange tableLog)
    (hsize : h.alphabetSize ≤ maxAlphabetSize) (htotal : 0 < h.total) :
    h.NormalizedInWords tableLog := by
  have hpow := hlog.two_pow_le
  have hlt := total_lt hsize
  -- Each of the shares is at most the whole table.
  have hle : ∀ w ∈ (Repair.start h (2 ^ tableLog)).weights.toList, w ≤ 2 ^ 15 := by
    intro w hw
    rw [Array.toList_eq_map_range _ 0] at hw
    obtain ⟨id, -, rfl⟩ := List.mem_map.1 hw
    rw [Repair.getD_weights_start]
    exact Nat.le_trans (Weights.share_le (Nat.two_pow_pos _) htotal (h.count_le_total id)) hpow
  -- At most `2 ^ 16` shares of at most `2 ^ 15` states each.
  have hsum := List.sum_le_card_nsmul _ _ hle
  have hlen : (Repair.start h (2 ^ tableLog)).weights.toList.length ≤ 65536 := by
    have hsize : h.counts.size ≤ 65536 := hsize
    simpa [Repair.start] using hsize
  rw [smul_eq_mul] at hsum
  have hsum : sum (Repair.start h (2 ^ tableLog)).weights.toList ≤ 2 ^ 31 :=
    Nat.le_trans hsum (Nat.mul_le_mul_right _ hlen)
  exact ⟨by omega, fun id => Weights.shareInWords hlog htotal hlt (h.count_le_total id), by omega,
    fun r hr => hr.inWords (Repair.balanced_start h _) hpow hsum⟩

end Histogram

/-! ### Layouts -/

/-- The step between slots fits sixteen bits. -/
theorem spreadStep_lt {tableSize : Nat} (hsize : tableSize ≤ 2 ^ 15) :
    spreadStep tableSize < 2 ^ 16 :=
  Nat.or_lt_two_pow (by omega) (by decide)

namespace Layout

/-- The numbers of a layout fit 32 bits: the slot that a move leads to before it is taken modulo
the number of slots, and the numbers of probes and of placements. -/
structure InWords (l : Layout) : Prop where
  cursor_lt : l.cursor < l.slots.size
  move_lt : ∀ slot < l.slots.size, slot + spreadStep l.slots.size < 2 ^ 32
  probes_lt : l.slots.size < 2 ^ 32
  placed_lt : l.placed < 2 ^ 32

/-- A walk is never behind the table, and has not placed more symbols than there are slots. -/
theorem Walked.inWords {tableLog : Nat} {symbols : List UInt16} {l : Layout}
    (h : l.Walked tableLog symbols) (hlog : TableLogInRange tableLog)
    (hlen : symbols.length ≤ 2 ^ tableLog) : l.InWords := by
  have hpow := hlog.two_pow_le
  have hstep := spreadStep_lt hpow
  obtain ⟨hsize, hcursor, hplaced, -⟩ := h
  refine ⟨?_, fun slot hslot => ?_, by omega, by omega⟩
  · rw [hcursor, hsize]
    exact slotOf_lt (Nat.two_pow_pos _) _
  · rw [hsize] at hslot ⊢
    omega

/-- All layouts on the way to a spread stay in their words. -/
theorem exists_inWords (w : Weights) {ids rest : List Nat} (h : w.runs = ids ++ rest) :
    ∃ l, ids.foldlM Layout.place (empty w.tableSize) = .ok l ∧ l.InWords := by
  obtain ⟨l, hfold, hl⟩ := exists_walked w h
  have hlen : (ids.map UInt16.ofNat).length ≤ 2 ^ w.tableLog := by
    rw [List.length_map, ← Weights.length_add_length_of_runs h]
    omega
  exact ⟨l, hfold, hl.inWords w.tableLog_inRange hlen⟩

end Layout

/-! ### Tables -/

/-- An entry holds the exact values of its formulas: the width is a difference, so is the base, and
the sub-state is shifted within 32 bits. -/
structure DecodeEntry.Exact (tableLog subState : Nat) (entry : DecodeEntry) : Prop where
  subState_pos : 0 < subState
  log2_le : subState.log2 ≤ tableLog
  width_eq : entry.width.toNat = tableLog - subState.log2
  shifted_lt : subState * 2 ^ entry.width.toNat < 2 ^ 32
  le_shifted : 2 ^ tableLog ≤ subState * 2 ^ entry.width.toNat
  base_eq : entry.base.toNat = subState * 2 ^ entry.width.toNat - 2 ^ tableLog

/-- The entry of a sub-state is exact below twice the table size. -/
theorem DecodeEntry.exact_ofSubState {tableLog : Nat} (symbol : UInt16) {y : Nat}
    (hlog : TableLogInRange tableLog) (hpos : 0 < y) (hlt : y < 2 * 2 ^ tableLog) :
    (ofSubState tableLog (2 ^ tableLog) symbol y).Exact tableLog y := by
  have hpow := hlog.two_pow_le
  have hwidth := toNat_width_ofSubState (2 ^ tableLog) symbol y hlog
  have hscale := two_pow_le_mul_missingBits tableLog hpos hlt
  rw [Nat.add_mul] at hscale
  refine ⟨hpos, log2_le_of_lt hpos hlt, hwidth, ?_, ?_, ?_⟩
  · rw [hwidth]
    omega
  · rw [hwidth]
    exact hscale.1
  · rw [hwidth]
    exact toNat_base_ofSubState symbol hlog hpos hlt

namespace Transform

/-- A transform holds the exact values of its formulas: the bias is a difference in 32 bits, and
the offset is a signed number of 32 bits. A symbol without states has values like any other. -/
structure Exact (tableLog weight start : Nat) (transform : Transform) : Prop where
  log2_le : (weight - 1).log2 ≤ tableLog
  widths_lt : (tableLog + 1) * 2 ^ 16 < 2 ^ 32 ∧ maxWidth tableLog weight * 2 ^ 16 < 2 ^ 32
  widthBias_of_pos : 0 < weight →
    transform.widthBias.toNat + weight * 2 ^ maxWidth tableLog weight =
      maxWidth tableLog weight * 2 ^ 16
  widthBias_of_zero : weight = 0 → transform.widthBias.toNat + 2 ^ tableLog =
    (tableLog + 1) * 2 ^ 16
  rankOffset_eq : transform.rankOffset = if weight = 0 then 0 else (start : Int) - weight
  rankOffset_ge : -2 ^ 31 ≤ (start : Int) - weight
  rankOffset_lt : (start : Int) - weight < 2 ^ 31

/-- The bias of a symbol without states. -/
theorem toNat_widthBias_zero (start : Nat) {tableLog : Nat} (hlog : TableLogInRange tableLog) :
    (ofWeight tableLog 0 start).widthBias.toNat + 2 ^ tableLog = (tableLog + 1) * 2 ^ 16 := by
  have hpow := hlog.two_pow_le
  have hmax : tableLog ≤ 15 := hlog.2
  -- Both sides of the difference fit 32 bits, and the first one is larger.
  have hbig : (UInt32.ofNat ((tableLog + 1) <<< 16)).toNat = (tableLog + 1) * 2 ^ 16 := by
    rw [Nat.shiftLeft_eq]
    exact UInt32.toNat_ofNat_of_lt' (by simp [UInt32.size]; omega)
  have hsmall : (UInt32.ofNat (1 <<< tableLog)).toNat = 2 ^ tableLog := by
    rw [Nat.shiftLeft_eq, Nat.one_mul]
    exact UInt32.toNat_ofNat_of_lt' (by simp [UInt32.size]; omega)
  rw [ofWeight, if_pos rfl, UInt32.toNat_sub_of_le _ _
    (by rw [UInt32.le_iff_toNat_le, hbig, hsmall]; omega), hbig, hsmall]
  omega

/-- A transform is exact if the states of its symbol end inside of the table. -/
theorem exact_ofWeight {tableLog weight start : Nat} (hlog : TableLogInRange tableLog)
    (hle : start + weight ≤ 2 ^ tableLog) :
    (ofWeight tableLog weight start).Exact tableLog weight start := by
  have hpow := hlog.two_pow_le
  have hmax : tableLog ≤ 15 := hlog.2
  have hwidth : maxWidth tableLog weight ≤ 15 := Nat.le_trans maxWidth_le hmax
  have hweight : weight ≤ 2 ^ tableLog := by omega
  refine ⟨?_, ⟨by omega, by omega⟩, fun hpos => ?_, fun hzero => ?_, ?_, by omega, by omega⟩
  -- A weight of one has no logarithm to bound, and any other is below twice the table size.
  · rcases Nat.eq_zero_or_pos (weight - 1) with hone | hpos
    · simp [hone]
    · have hlt : weight - 1 < 2 * 2 ^ tableLog := by omega
      exact DecodeEntry.log2_le_of_lt hpos hlt
  -- The largest width is positive, so the product is larger than what is taken off.
  · have hthreshold := (mul_two_pow_maxWidth hpos hweight).2
    have hwidth' := maxWidth_pos hlog.1 hpos hweight
    rw [toNat_widthBias start hlog hpos hweight]
    omega
  · subst hzero
    exact toNat_widthBias_zero start hlog
  · unfold ofWeight
    split <;> rfl

end Transform

namespace Weights

variable {w : Weights} {s : Spread}

/-- The entry of a state is exact for the state's sub-state. -/
theorem exists_exact_entry {symbol : UInt16} {j u : Nat} (hs : Spread.ofWeights w = .ok s)
    (hn : s.Nth symbol j u) :
    ∃ entry, (s.decodeTable w)[u]? = some entry ∧
      entry.Exact w.tableLog (w.weight symbol.toNat + j) := by
  have hj := hn.lt_weight hs
  have hle := w.weight_le symbol.toNat
  rw [tableSize_eq_two_pow] at hle
  refine ⟨_, Spread.getElem?_decodeTable hs hn, ?_⟩
  rw [tableSize_eq_two_pow]
  exact DecodeEntry.exact_ofSubState symbol w.tableLog_inRange (by omega) (by omega)

/-- Encoder states fit sixteen bits. -/
theorem tableSize_add_lt {u : Nat} (hu : u < w.tableSize) : w.tableSize + u < 2 ^ 16 := by
  have hpow := w.tableLog_inRange.two_pow_le
  rw [tableSize_eq_two_pow] at hu ⊢
  omega

/-- A state stands in the next-state table as it is. -/
theorem exists_exact_nextState {symbol : UInt16} {j u : Nat} (hs : Spread.ofWeights w = .ok s)
    (hn : s.Nth symbol j u) :
    ∃ x, (s.nextStates w)[w.start symbol.toNat + j]? = some x ∧ x.toNat = w.tableSize + u :=
  ⟨_, Spread.getElem?_nextStates hs hn,
    UInt16.toNat_ofNat_of_lt' (tableSize_add_lt (hn.lt_tableSize hs))⟩

/-- The transform of a symbol is exact for its weight and where its states start. -/
theorem exists_exact_transform {symbol : Nat} (h : symbol < w.alphabetSize) :
    ∃ transform, w.transforms[symbol]? = some transform ∧
      transform.Exact w.tableLog (w.weight symbol) (w.start symbol) := by
  refine ⟨_, getElem?_transforms h, Transform.exact_ofWeight w.tableLog_inRange ?_⟩
  rw [← tableSize_eq_two_pow]
  exact w.start_add_weight_le symbol

end Weights

namespace Tables

/-- Building tables from weights takes no number out of its word. -/
structure BuiltInWords (t : Tables) : Prop where
  id_eq : ∀ id ∈ t.weights.runs, (UInt16.ofNat id).toNat = id
  step_lt : t.tableSize / 2 + t.tableSize / 8 + 3 < 2 ^ 32
  layout : ∀ ids rest, t.weights.runs = ids ++ rest →
    ∃ l, ids.foldlM Layout.place (.empty t.tableSize) = .ok l ∧ l.InWords
  entry : ∀ symbol j u, t.spread.Nth symbol j u → ∃ entry, t.decodeTable[u]? = some entry ∧
    entry.Exact t.params.tableLog (t.weights.weight symbol.toNat + j)
  start_add_weight_le : ∀ id, t.weights.start id + t.weights.weight id ≤ t.tableSize
  nextState : ∀ symbol j u, t.spread.Nth symbol j u →
    ∃ x, t.nextStates[t.weights.start symbol.toNat + j]? = some x ∧ x.toNat = t.tableSize + u
  transform : ∀ id < t.alphabetSize, ∃ transform, t.transforms[id]? = some transform ∧
    transform.Exact t.params.tableLog (t.weights.weight id) (t.weights.start id)

/-- Tables are built in their words, whatever the weights. -/
theorem builtInWords (t : Tables) : t.BuiltInWords := by
  have hsize := t.tableSize_le
  have hweights := t.tableSize_weights
  refine ⟨fun id hid => ?_, by omega, fun ids rest h => ?_, fun symbol j u hn => ?_, fun id => ?_,
    fun symbol j u hn => ?_, fun id hid => ?_⟩
  · exact UInt16.toNat_ofNat_of_lt' (Weights.lt_of_mem_runs hid)
  · rw [← hweights]
    exact Layout.exists_inWords t.weights h
  · rw [t.decodeTable_eq, ← t.tableLog_eq]
    exact Weights.exists_exact_entry t.spread_eq hn
  · rw [← hweights]
    exact t.weights.start_add_weight_le id
  · rw [t.nextStates_eq, ← hweights]
    exact Weights.exists_exact_nextState t.spread_eq hn
  · rw [t.transforms_eq, ← t.tableLog_eq]
    exact Weights.exists_exact_transform hid

end Tables

end Tans
