import Tans.Proofs.Normalize
import Tans.Proofs.Walk

/-!
# Which tables can be built

Tables are refused for their parameters or for their histogram, and for nothing else. Whatever was
normalized can be spread, so no placement ever fails, and normalization itself fails only where the
histogram does not describe a distribution over the states.

* `Tables.exists_ofWeights`: weights and parameters that name the same table size.
* `Tables.ofHistogram_outcome`: when a histogram gives tables, and what is reported otherwise.
-/

namespace Tans

/-- The table size is tested first. -/
theorem Params.check_of_tableLog {p : Params} (h : ¬ TableLogInRange p.tableLog) :
    p.check = .error (.tableLog p.tableLog maxTableLog) := by
  rw [check, if_pos h]

/-- The length field is tested next. -/
theorem Params.check_of_lengthBits {p : Params} (hlog : TableLogInRange p.tableLog)
    (h : ¬ (1 ≤ p.lengthBits ∧ p.lengthBits ≤ maxLengthBits)) :
    p.check = .error (.lengthBits p.lengthBits) := by
  rw [check, if_neg (not_not.2 hlog), if_pos (by omega)]

namespace Tables

variable {h : Histogram} {params : Params}

/-- Tables that are built from weights have these weights and the parameters. -/
theorem ofWeights_eq_ok_iff {w : Weights} {t : Tables} :
    ofWeights w params = .ok t ↔ t.weights = w ∧ t.params = params := by
  constructor
  · intro h
    -- Three steps can fail; what is left puts the weights and the parameters into the tables.
    unfold ofWeights at h
    split at h
    · cases h
    split at h
    · split at h
      · cases h
      · cases h
        exact ⟨rfl, rfl⟩
    · cases h
  · intro h
    obtain ⟨rfl, rfl⟩ := h
    exact ofWeights_eq_ok t

/-- Invalid parameters are refused whatever the weights are. -/
theorem ofWeights_of_check {w : Weights} {e : SetupError} (hcheck : params.check = .error e) :
    ofWeights w params = .error e := by
  unfold ofWeights
  split
  · next e' hcheck' =>
    cases hcheck.symm.trans hcheck'
    rfl
  · next hcheck' => exact nomatch hcheck.symm.trans hcheck'

/-- Any weights give tables, under valid parameters that name their table size. -/
theorem exists_ofWeights {w : Weights} (hvalid : params.Valid)
    (hlog : w.tableLog = params.tableLog) : ∃ t, ofWeights w params = .ok t ∧ t.weights = w := by
  obtain ⟨spread, hspread⟩ := Spread.exists_ofWeights w
  -- The tables are given by their fields, with the facts that the construction would check.
  let t : Tables := ⟨params, w, spread, _, _, _, params.check_eq_ok_iff.2 hvalid, hlog, hspread,
    rfl, rfl, rfl⟩
  exact ⟨t, ofWeights_eq_ok t, rfl⟩

/-- Valid parameters and a histogram that describes a distribution give tables. -/
theorem exists_ofHistogram (hvalid : params.Valid) (hfits : h.Fits params.tableLog) :
    ∃ t, ofHistogram h params = .ok t := by
  obtain ⟨w, hw, hlog⟩ := Weights.exists_ofHistogram hvalid.1 hfits
  obtain ⟨t, ht, -⟩ := exists_ofWeights hvalid hlog
  exact ⟨t, Except.bind_eq_ok_iff.2 ⟨(), params.check_eq_ok_iff.2 hvalid,
    Except.bind_eq_ok_iff.2 ⟨w, hw, ht⟩⟩⟩

/-- Whatever was normalized gives tables, so only the parameters and the histogram are to blame. -/
theorem ofHistogram_eq_error_iff {e : SetupError} :
    ofHistogram h params = .error e ↔
      params.check = .error e ∨
        params.check = .ok () ∧ Weights.ofHistogram h params.tableLog = .error e := by
  constructor
  · intro ht
    rcases Except.bind_eq_error_iff.1 ht with hcheck | ⟨_, hcheck, ht⟩
    · exact .inl hcheck
    rcases Except.bind_eq_error_iff.1 ht with hw | ⟨w, hw, ht⟩
    · exact .inr ⟨hcheck, hw⟩
    -- Weights that were normalized for this table size always give tables.
    · obtain ⟨t, ht', -⟩ := exists_ofWeights (params.check_eq_ok_iff.1 hcheck)
        (Weights.values_of_ofHistogram hw).2
      exact nomatch ht.symm.trans ht'
  · intro ht
    rcases ht with hcheck | ⟨hcheck, hw⟩
    · exact Except.bind_eq_error_iff.2 (.inl hcheck)
    · exact Except.bind_eq_error_iff.2 (.inr ⟨(), hcheck, Except.bind_eq_error_iff.2 (.inl hw)⟩)

/-- Tables of a histogram have its normalized weights. -/
theorem weights_of_ofHistogram {t : Tables} (ht : ofHistogram h params = .ok t) :
    Weights.ofHistogram h params.tableLog = .ok t.weights ∧ t.params = params := by
  obtain ⟨_, -, ht⟩ := Except.bind_eq_ok_iff.1 ht
  obtain ⟨w, hw, ht⟩ := Except.bind_eq_ok_iff.1 ht
  obtain ⟨rfl, hparams⟩ := ofWeights_eq_ok_iff.1 ht
  exact ⟨hw, hparams⟩

/-- Tables have the alphabet of their histogram. -/
theorem alphabetSize_of_ofHistogram {t : Tables} (ht : ofHistogram h params = .ok t) :
    t.alphabetSize = h.alphabetSize :=
  Weights.alphabetSize_of_ofHistogram (weights_of_ofHistogram ht).1

/-- Invalid parameters are refused whatever the histogram is. -/
theorem ofHistogram_of_check {e : SetupError} (hcheck : params.check = .error e) :
    ofHistogram h params = .error e := by
  rw [ofHistogram, hcheck]
  rfl

/-- A histogram that describes no distribution is refused for that, and not by the repair. -/
theorem ofHistogram_of_not_fits (hvalid : params.Valid) (hfits : ¬ h.Fits params.tableLog) :
    ∃ fault, ofHistogram h params = .error (.distribution fault) ∧
      ∀ left, fault ≠ .unreconciled left := by
  obtain ⟨fault, hfault, hne⟩ := Weights.ofHistogram_eq_error hvalid.1 hfits
  refine ⟨fault, ?_, hne⟩
  rw [ofHistogram, params.check_eq_ok_iff.2 hvalid, hfault]
  rfl

/-- Tables can be built when the parameters are valid and the histogram describes a distribution. -/
theorem ofHistogram_eq_ok_iff :
    (∃ t, ofHistogram h params = .ok t) ↔ params.Valid ∧ h.Fits params.tableLog := by
  refine ⟨fun ⟨t, ht⟩ => ?_, fun ⟨hvalid, hfits⟩ => exists_ofHistogram hvalid hfits⟩
  obtain ⟨_, hcheck, -⟩ := Except.bind_eq_ok_iff.1 ht
  have hvalid := params.check_eq_ok_iff.1 hcheck
  refine ⟨hvalid, ?_⟩
  -- Otherwise there would be an error and tables at once.
  by_contra hfits
  obtain ⟨fault, hfault, -⟩ := ofHistogram_of_not_fits hvalid hfits
  exact nomatch ht.symm.trans hfault

/-- Tables can be built from a histogram exactly if both parameters are in range, the ids have
sixteen bits, some id occurs, and the ids that occur are not more than the states. Otherwise the
table size is reported first, then the length field, then the distribution. Rounded shares never
miss the table size after their repair, and no weights fail to be spread over the states. -/
theorem ofHistogram_outcome (h : Histogram) (params : Params) :
    ((∃ t, ofHistogram h params = .ok t) ↔
      (1 ≤ params.tableLog ∧ params.tableLog ≤ 15) ∧
        (1 ≤ params.lengthBits ∧ params.lengthBits ≤ 32) ∧
        h.alphabetSize ≤ 65536 ∧ 0 < h.total ∧
        h.counts.toList.countP (· ≠ 0) ≤ 2 ^ params.tableLog) ∧
    (¬ (1 ≤ params.tableLog ∧ params.tableLog ≤ 15) →
      ofHistogram h params = .error (.tableLog params.tableLog 15)) ∧
    ((1 ≤ params.tableLog ∧ params.tableLog ≤ 15) →
      ¬ (1 ≤ params.lengthBits ∧ params.lengthBits ≤ 32) →
      ofHistogram h params = .error (.lengthBits params.lengthBits)) ∧
    (params.Valid →
      ¬ (h.alphabetSize ≤ 65536 ∧ 0 < h.total ∧
        h.counts.toList.countP (· ≠ 0) ≤ 2 ^ params.tableLog) →
      ∃ fault, ofHistogram h params = .error (.distribution fault)) ∧
    (∀ left, Weights.ofHistogram h params.tableLog ≠ .error (.distribution (.unreconciled left))) ∧
    (∀ w : Weights, ∃ spread, Spread.ofWeights w = .ok spread) := by
  -- The counts that are not zero are those of the ids that occur.
  have hfits : h.Fits params.tableLog ↔ h.alphabetSize ≤ 65536 ∧ 0 < h.total ∧
      h.counts.toList.countP (· ≠ 0) ≤ 2 ^ params.tableLog := by
    rw [← h.length_present]
    exact ⟨fun ⟨hsize, htotal, hpresent⟩ => ⟨hsize, htotal, hpresent⟩,
      fun ⟨hsize, htotal, hpresent⟩ => ⟨hsize, htotal, hpresent⟩⟩
  refine ⟨?_, fun hlog => ?_, fun hlog hbits => ?_, fun hvalid hnot => ?_, fun left => ?_,
    Spread.exists_ofWeights⟩
  · rw [ofHistogram_eq_ok_iff, hfits]
    exact and_assoc
  · exact ofHistogram_of_check (Params.check_of_tableLog hlog)
  · exact ofHistogram_of_check (Params.check_of_lengthBits hlog hbits)
  · obtain ⟨fault, hfault, -⟩ := ofHistogram_of_not_fits hvalid (mt hfits.1 hnot)
    exact ⟨fault, hfault⟩
  · exact Weights.ofHistogram_ne_unreconciled h params.tableLog left

/-- Counts with tables, with one and with two invalid parameters, and with too many ids. -/
theorem ofHistogram_outcome_three :
    (∃ t, ofHistogram ⟨#[3, 0, 1]⟩ ⟨2, 32⟩ = .ok t) ∧
    ofHistogram ⟨#[3, 0, 1]⟩ ⟨16, 33⟩ = .error (.tableLog 16 15) ∧
    ofHistogram ⟨#[3, 0, 1]⟩ ⟨2, 33⟩ = .error (.lengthBits 33) ∧
    (∃ fault, ofHistogram ⟨#[3, 1, 1]⟩ ⟨1, 32⟩ = .error (.distribution fault)) := by
  refine ⟨(ofHistogram_outcome ⟨#[3, 0, 1]⟩ ⟨2, 32⟩).1.2 (by decide), ?_, ?_, ?_⟩
  · exact (ofHistogram_outcome ⟨#[3, 0, 1]⟩ ⟨16, 33⟩).2.1 (by decide)
  · exact (ofHistogram_outcome ⟨#[3, 0, 1]⟩ ⟨2, 33⟩).2.2.1 (by decide) (by decide)
  · exact (ofHistogram_outcome ⟨#[3, 1, 1]⟩ ⟨1, 32⟩).2.2.2.1 (by decide) (by decide)

end Tables

end Tans
