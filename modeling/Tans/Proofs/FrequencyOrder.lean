import Tans.Proofs.ClosedForm

/-!
# The order of frequencies

Of two ids, the one with the larger count has at least the share of the other. It also has at least
the weight of the other if the table has room for all shares. But if the shares are too many, the
more frequent id gives first, and may give so much that it is left with fewer states than the other.

* `Weights.weight_le_weight_of_demand_le`: the order is kept if there is room.
* `Weights.weight_eq_sub`: the weight of an id from the shares of the ids in front of it.
* `Weights.order_lost`: a histogram whose most frequent id is left with less than the next one.
* `Weights.weight_lt_weight_iff`: when the order of two ids is lost.
-/

namespace Tans

namespace Histogram

variable {h : Histogram} {tableSize : Nat}

/-- The states that the ids in front of one can give. -/
def givenBefore (h : Histogram) (tableSize id : Nat) : Nat :=
  ((h.present.filter (h.Precedes · id)).map (h.share tableSize · - 1)).sum

/-- In the ranking the ids in front of one are those that precede it. -/
theorem filter_ranking {front back : List Nat} {id : Nat}
    (hranking : h.ranking = front ++ id :: back) : h.ranking.filter (h.Precedes · id) = front := by
  have hsorted := h.pairwise_ranking
  rw [hranking, List.pairwise_append, List.pairwise_cons] at hsorted
  obtain ⟨-, ⟨hback, -⟩, hfront⟩ := hsorted
  have hself : ¬ h.Precedes id id := by
    unfold Precedes
    omega
  -- Precedence goes one way only, so an id behind does not precede as well.
  have hnone : ∀ b ∈ back, ¬ h.Precedes b id := fun b hb hprec =>
    hself (hprec.antisymm (hback b hb) ▸ hprec)
  rw [hranking, List.filter_append, List.filter_cons_of_neg (by simpa using hself),
    List.filter_eq_self.2 fun a ha => decide_eq_true (hfront a ha id List.mem_cons_self),
    List.filter_eq_nil_iff.2 fun b hb => by simpa using hnone b hb, List.append_nil]

/-- What the ids in front of one can give, along the ranking. -/
theorem givenBefore_eq {front back : List Nat} {id : Nat}
    (hranking : h.ranking = front ++ id :: back) :
    h.givenBefore tableSize id = (front.map (h.share tableSize · - 1)).sum := by
  have hperm := (h.ranking_perm.filter (h.Precedes · id)).map (h.share tableSize · - 1)
  rw [filter_ranking hranking] at hperm
  exact hperm.symm.sum_eq

/-- What an id can give is counted for all ids behind it. -/
theorem givenBefore_add_le {a b : Nat} (hb : 0 < h.count b) (hab : h.count b < h.count a) :
    h.givenBefore tableSize a + (h.share tableSize a - 1) ≤ h.givenBefore tableSize b := by
  obtain ⟨front, back, hranking⟩ := List.append_of_mem (mem_ranking.2 hb)
  have ha : a ∈ front := by
    rw [← filter_ranking hranking, List.mem_filter]
    exact ⟨mem_ranking.2 (Nat.lt_trans hb hab), decide_eq_true (.inl hab)⟩
  obtain ⟨front', back', rfl⟩ := List.append_of_mem ha
  rw [givenBefore_eq hranking]
  rw [List.append_assoc, List.cons_append] at hranking
  rw [givenBefore_eq hranking, List.map_append, List.map_cons, List.sum_append, List.sum_cons]
  omega

end Histogram

namespace Weights

variable {h : Histogram} {tableLog : Nat} {w : Weights}

/-- The order is kept if the table has room for all shares. -/
theorem weight_le_weight_of_demand_le (hw : ofHistogram h tableLog = .ok w) {a b : Nat}
    (hab : h.count b < h.count a) (hle : h.demand (2 ^ tableLog) ≤ 2 ^ tableLog) :
    w.weight b ≤ w.weight a := by
  have hshare : h.share (2 ^ tableLog) b ≤ h.share (2 ^ tableLog) a :=
    Histogram.share_le_share (fits_of_ofHistogram hw).total_pos hab.le
  obtain ⟨most, hmost, hweight⟩ := weight_of_demand_le hw hle
  -- Only the most frequent id gets more than its share, and `b` is not that id.
  have hne : b ≠ most := fun heq => Nat.not_lt.2 (hmost.count_le a) (heq ▸ hab)
  rw [hweight, hweight, if_neg hne]
  omega

/-- An id gives what the ids in front of it leave to give, as far as it can. -/
theorem weight_eq_sub (hw : ofHistogram h tableLog = .ok w)
    (hlt : 2 ^ tableLog < h.demand (2 ^ tableLog)) {id : Nat} (hid : 0 < h.count id) :
    w.weight id = h.share (2 ^ tableLog) id - min (h.share (2 ^ tableLog) id - 1)
      (h.demand (2 ^ tableLog) - 2 ^ tableLog - h.givenBefore (2 ^ tableLog) id) := by
  obtain ⟨front, back, hranking⟩ := List.append_of_mem (Histogram.mem_ranking.2 hid)
  -- The ranking lists each id once, so `id` is reduced only where it stands.
  have hnodup := h.nodup_ranking
  rw [hranking, List.nodup_append] at hnodup
  have hnotMem : id ∉ front := fun hmem => hnodup.2.2 id hmem id List.mem_cons_self rfl
  rw [weight_of_lt_demand hw hlt, Histogram.givenBefore_eq hranking, hranking,
    Repair.reduce_append_cons hnotMem]

/-- Normalization does not keep the order of frequencies. The shares of these counts are 2, 2 and 1
out of 4 states, and the one too many is taken from the most frequent id. -/
theorem order_lost :
    ∃ w, ofHistogram ⟨#[5, 4, 1]⟩ 2 = .ok w ∧ w.weight 0 = 1 ∧ w.weight 1 = 2 ∧
      Histogram.count ⟨#[5, 4, 1]⟩ 1 < Histogram.count ⟨#[5, 4, 1]⟩ 0 ∧
      ¬ w.weight 1 ≤ w.weight 0 := by
  have hfits : Histogram.Fits ⟨#[5, 4, 1]⟩ 2 := ⟨by decide, by decide, by decide⟩
  obtain ⟨w, hw, -⟩ := exists_ofHistogram (by decide) hfits
  have hzero : w.weight 0 = 1 := by
    rw [weight_eq_sub hw (by decide) (by decide)]
    decide
  have hone : w.weight 1 = 2 := by
    rw [weight_eq_sub hw (by decide) (by decide)]
    decide
  exact ⟨w, hw, hzero, hone, by decide, by omega⟩

/-- When normalization keeps the order of two ids. Their shares are in order, and so are their
weights if the table has room for all shares. If the shares are too many, the order is lost exactly
if the less frequent id has a share of more than one state, the ids in front of the more frequent
one leave enough to take for it to fall below that share, and what there is to take is used up
before the less frequent id is down to one state. -/
theorem weight_lt_weight_iff (hw : ofHistogram h tableLog = .ok w) {a b : Nat}
    (hab : h.count b < h.count a) :
    h.share (2 ^ tableLog) b ≤ h.share (2 ^ tableLog) a ∧
    (h.demand (2 ^ tableLog) ≤ 2 ^ tableLog → w.weight b ≤ w.weight a) ∧
    (w.weight a < w.weight b ↔
      1 < h.share (2 ^ tableLog) b ∧
      h.givenBefore (2 ^ tableLog) a + (h.share (2 ^ tableLog) a - h.share (2 ^ tableLog) b) <
        h.demand (2 ^ tableLog) - 2 ^ tableLog ∧
      h.demand (2 ^ tableLog) - 2 ^ tableLog <
        h.givenBefore (2 ^ tableLog) b + (h.share (2 ^ tableLog) b - 1)) := by
  have hshare : h.share (2 ^ tableLog) b ≤ h.share (2 ^ tableLog) a :=
    Histogram.share_le_share (fits_of_ofHistogram hw).total_pos hab.le
  have hshare_pos : 0 < h.share (2 ^ tableLog) b ↔ 0 < h.count b := Histogram.share_pos_iff
  refine ⟨hshare, weight_le_weight_of_demand_le hw hab, ?_⟩
  rcases Nat.lt_or_ge (2 ^ tableLog) (h.demand (2 ^ tableLog)) with hlt | hle
  -- The shares are too many. What has been given when it is the turn of an id decides its weight.
  · rcases Nat.eq_zero_or_pos (h.count b) with hzero | hpos
    · -- An id that does not occur has neither a share nor a weight.
      have hweight := mt (weight_pos_iff_of_ofHistogram hw b).1 (Nat.not_lt.2 hzero.le)
      omega
    · have hbefore : h.givenBefore (2 ^ tableLog) a + (h.share (2 ^ tableLog) a - 1) ≤
          h.givenBefore (2 ^ tableLog) b := Histogram.givenBefore_add_le hpos hab
      have hweight := weight_eq_sub hw hlt (Nat.lt_trans hpos hab)
      have hweight' := weight_eq_sub hw hlt hpos
      rcases Nat.le_total (h.demand (2 ^ tableLog) - 2 ^ tableLog)
        (h.givenBefore (2 ^ tableLog) b) with hless | hmore
      · -- Nothing is taken from the less frequent id.
        rw [Nat.sub_eq_zero_of_le hless, Nat.min_zero, Nat.sub_zero] at hweight'
        omega
      · -- The more frequent id has given all it can.
        rw [Nat.min_eq_left (by omega)] at hweight
        omega
  · have hkept := weight_le_weight_of_demand_le hw hab hle
    omega

/-- The order of three ids is lost in a table of four states and kept in one of eight. -/
theorem weight_lt_weight_iff_three :
    Histogram.count ⟨#[5, 4, 1]⟩ 1 < Histogram.count ⟨#[5, 4, 1]⟩ 0 ∧
    (∃ w, ofHistogram ⟨#[5, 4, 1]⟩ 2 = .ok w ∧ w.weight 0 < w.weight 1) ∧
    (∃ w, ofHistogram ⟨#[5, 4, 1]⟩ 3 = .ok w ∧ w.weight 1 ≤ w.weight 0) := by
  have hfits : ∀ tableLog ∈ [2, 3], Histogram.Fits ⟨#[5, 4, 1]⟩ tableLog := fun tableLog h => by
    have hpresent : ∀ tableLog ∈ [2, 3],
        (Histogram.present ⟨#[5, 4, 1]⟩).length ≤ 2 ^ tableLog := by decide
    exact ⟨by decide, by decide, hpresent tableLog h⟩
  obtain ⟨w, hw, -⟩ := exists_ofHistogram (by decide) (hfits 2 (by decide))
  obtain ⟨w', hw', -⟩ := exists_ofHistogram (by decide) (hfits 3 (by decide))
  obtain ⟨-, -, hlost⟩ := weight_lt_weight_iff hw (a := 0) (b := 1) (by decide)
  obtain ⟨-, hkept, -⟩ := weight_lt_weight_iff hw' (a := 0) (b := 1) (by decide)
  exact ⟨by decide, ⟨w, hw, hlost.2 (by decide)⟩, w', hw', hkept (by decide)⟩

end Weights

end Tans
