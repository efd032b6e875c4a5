import Tans.Proofs.Renaming
import Tans.Proofs.Stream

/-!
# Unused ids

Tables are made for the ids that occur. If these get other numbers in the same order, and ids that
do not occur come in between, the tables stay as they were but for the numbers in the decode table.
So a block of renamed symbols has the bits of the block of the symbols themselves.

* `Layout.place_map`, `Layout.foldlM_place_map`: placements side by side.
* `Tables.Renames.decodeTable_eq`, `Tables.Renames.nextStates_eq`: the two tables.
* `Tables.unused_ids_ignored`: coding with renamed ids.
-/

namespace Tans

/-- The number that an id in sixteen bits gets. -/
def renameId (φ : Nat → Nat) (s : UInt16) : UInt16 := UInt16.ofNat (φ s.toNat)

/-- An id that keeps its number is the same. -/
theorem renameId_id (s : UInt16) : renameId id s = s := by
  simp [renameId]

/-! ### Weights -/

namespace Weights

/-- The states of an id start behind those of all smaller ids. -/
theorem start_eq_sum_range (w : Weights) (id : Nat) :
    w.start id = ((List.range id).map w.weight).sum := by
  induction id with
  | zero => rfl
  | succ id ih => rw [start_succ, ih, List.range_succ]; simp

variable {φ : Nat → Nat} {w w' : Weights}

/-- The ids to be placed are the same ones in the same order, as unused ids are not placed. -/
theorem Renames.runs_eq (h : Renames φ w w') : w'.runs = w.runs.map φ := h.weights.flatMap_range

/-- Unused ids in between do not move a start. -/
theorem Renames.start_eq (h : Renames φ w w') {a : Nat} (ha : a < w.alphabetSize) :
    w'.start (φ a) = w.start a := by
  rw [start_eq_sum_range, start_eq_sum_range, (h.weights.below ha).sum_range]

/-- New numbers belong to an alphabet, so they fit sixteen bits. -/
theorem Renames.lt_maxAlphabetSize (h : Renames φ w w') {a : Nat} (ha : a < w.alphabetSize) :
    φ a < maxAlphabetSize :=
  Nat.lt_of_lt_of_le (h.weights.lt_size a ha) w'.size_le

/-- New numbers have sixteen bits too. -/
theorem Renames.toNat_renameId (h : Renames φ w w') {s : UInt16} (hs : s.toNat < w.alphabetSize) :
    (renameId φ s).toNat = φ s.toNat :=
  UInt16.toNat_ofNat_of_lt' (h.lt_maxAlphabetSize hs)

/-- Renaming an id in sixteen bits is renaming its number. -/
theorem renameId_ofNat {a : Nat} (ha : a < w.alphabetSize) :
    renameId φ (UInt16.ofNat a) = UInt16.ofNat (φ a) := by
  have hlt : a < UInt16.size := Nat.lt_of_lt_of_le ha w.size_le
  rw [renameId, UInt16.toNat_ofNat_of_lt' hlt]

/-- No two ids of the alphabet get the same number. -/
theorem Renames.renameId_inj (h : Renames φ w w') {s s' : UInt16} (hs : s.toNat < w.alphabetSize)
    (hs' : s'.toNat < w.alphabetSize) (heq : renameId φ s = renameId φ s') : s = s' := by
  rw [← UInt16.toNat_inj, h.toNat_renameId hs, h.toNat_renameId hs'] at heq
  exact UInt16.toNat_inj.1 (h.weights.inj hs hs' heq)

end Weights

/-! ### Placements -/

namespace Layout

/-- The layout with other symbols in its slots. -/
def map (g : UInt16 → UInt16) (l : Layout) : Layout := ⟨l.slots.map (·.map g), l.cursor, l.placed⟩

variable {g : UInt16 → UInt16}

/-- The probe for a free slot does not look at symbols. -/
theorem probe_map (l : Layout) (n slot : Nat) : (l.map g).probe n slot = l.probe n slot := by
  induction n generalizing slot with
  | zero => rfl
  | succ n ih =>
    have hafter : (l.map g).after slot = l.after slot := by simp [after, map]
    have hslot : (l.map g).slots.getD slot none = (l.slots.getD slot none).map g := by
      simp only [map, Array.getD_eq_getD_getElem?, Array.getElem?_map]
      cases l.slots[slot]? <;> rfl
    -- Both layouts stop here, or both go on with the next slot.
    rw [probe, probe, hslot, hafter, ih]
    cases l.slots.getD slot none <;> rfl

/-- Another symbol is placed in the same slot. -/
theorem place_map {l l' : Layout} {symbol symbol' : Nat} (h : l.place symbol = .ok l')
    (hlt : symbol' < maxAlphabetSize) (hg : g (UInt16.ofNat symbol) = UInt16.ofNat symbol') :
    (l.map g).place symbol' = .ok (l'.map g) := by
  rw [place] at h ⊢
  rw [if_neg (Nat.not_le.2 hlt), probe_map]
  have hsize : (l.map g).slots.size = l.slots.size := by simp [map]
  have hcursor : (l.map g).cursor = l.cursor := rfl
  -- The layout's own symbol was in range, and it found a slot.
  split at h
  · cases h
  · rw [hsize, hcursor]
    cases hprobe : l.probe l.slots.size l.cursor with
    | none => simp [hprobe] at h
    | some slot =>
      rw [hprobe] at h
      cases h
      simp [map, after, ← hg]

/-- Other symbols are placed in the same slots, one after the other. -/
theorem foldlM_place_map {φ : Nat → Nat} {l l' : Layout} {ids : List Nat}
    (h : ids.foldlM place l = .ok l')
    (hids : ∀ id ∈ ids, φ id < maxAlphabetSize ∧ g (UInt16.ofNat id) = UInt16.ofNat (φ id)) :
    (ids.map φ).foldlM place (l.map g) = .ok (l'.map g) := by
  -- Induction on the ids, over all layouts: each placement starts from the one before.
  induction ids generalizing l with
  | nil =>
    cases h
    rfl
  | cons id ids ih =>
    obtain ⟨⟨hlt, hg⟩, hids⟩ := List.forall_mem_cons.1 hids
    rw [List.foldlM_cons] at h
    obtain ⟨l₁, h₁, h⟩ := Except.bind_eq_ok_iff.1 h
    rw [List.map_cons, List.foldlM_cons]
    exact Except.bind_eq_ok_iff.2 ⟨l₁.map g, place_map h₁ hlt hg, ih h hids⟩

end Layout

namespace Spread

variable {φ : Nat → Nat} {w w' : Weights} {s : Spread}

/-- The states of a symbol stay its states under its new number. -/
theorem ofWeights_of_renames (h : w.Renames φ w') (hs : ofWeights w = .ok s) :
    ofWeights w' = .ok ⟨s.symbols.map (renameId φ)⟩ := by
  obtain ⟨l, hl, hs⟩ := Except.bind_eq_ok_iff.1 hs
  obtain ⟨symbols, hsymbols, hs⟩ := Except.bind_eq_ok_iff.1 hs
  cases hs
  -- Whatever was placed has a weight, so it belongs to the alphabet and is renamed in order.
  have hplace := Layout.foldlM_place_map (g := renameId φ) hl fun id hid => by
    have hlt : id < w.alphabetSize := by
      apply Weights.lt_alphabetSize
      rw [← Weights.count_runs]
      exact List.count_pos_iff.2 hid
    exact ⟨h.lt_maxAlphabetSize hlt, Weights.renameId_ofNat hlt⟩
  have hempty : (Layout.empty w.tableSize).map (renameId φ) = Layout.empty w'.tableSize := by
    simp [Layout.map, Layout.empty, Weights.tableSize, h.tableLog_eq]
  rw [← h.runs_eq, hempty] at hplace
  have hsymbols' : Layout.symbolsFrom 0 (l.map (renameId φ)).slots.toList =
      .ok (symbols.map (renameId φ)) := by
    rw [Layout.symbolsFrom_eq_ok_iff] at hsymbols ⊢
    simp [Layout.map, hsymbols]
  refine Except.bind_eq_ok_iff.2 ⟨_, hplace, Except.bind_eq_ok_iff.2 ⟨_, hsymbols', ?_⟩⟩
  simp [pure, Except.pure]

/-- Symbols with other numbers are numbered as before, if their counters are. -/
theorem number_map {g : UInt16 → UInt16} {counters counters' : Array Nat} {symbols : List UInt16}
    (hinj : ∀ s ∈ symbols, ∀ s' ∈ symbols, g s = g s' → s = s')
    (hlt : ∀ s ∈ symbols, s.toNat < counters.size)
    (hlt' : ∀ s ∈ symbols, (g s).toNat < counters'.size)
    (hcounters : ∀ s ∈ symbols, counters'.getD (g s).toNat 0 = counters.getD s.toNat 0) :
    number counters' (symbols.map g) = number counters symbols := by
  apply List.ext_getElem?
  intro i
  rw [getElem?_number _ _ _ hlt, getElem?_number _ _ _ (by simpa using hlt'), List.getElem?_map]
  cases hs : symbols[i]? with
  | none => rfl
  | some s =>
    have hmem := List.mem_of_getElem? hs
    -- No two symbols become one, so each comes before as often as it did.
    have hcount : ((symbols.map g).take i).count (g s) = (symbols.take i).count s := by
      rw [← List.map_take, List.count, List.countP_map]
      apply List.countP_congr
      intro s' hs'
      have hmem' := List.mem_of_mem_take hs'
      simp only [Function.comp_apply, beq_iff_eq]
      exact ⟨hinj s' hmem' s hmem, congrArg g⟩
    simp only [Option.map_some, hcounters s hmem, hcount]

/-- The counters of ids that get other numbers. -/
theorem number_of_renames (h : w.Renames φ w') (hs : ofWeights w = .ok s)
    {counters counters' : Array Nat} (hsize : counters.size = w.alphabetSize)
    (hsize' : counters'.size = w'.alphabetSize)
    (hcounters : ∀ a < w.alphabetSize, counters'.getD (φ a) 0 = counters.getD a 0) :
    number counters' (s.symbols.toList.map (renameId φ)) = number counters s.symbols.toList := by
  -- The spread holds only symbols of the alphabet, where renaming is one to one.
  have hlt {symbol : UInt16} (hmem : symbol ∈ s.symbols.toList) :
      symbol.toNat < w.alphabetSize := toNat_lt_of_mem hs hmem
  refine number_map (fun s hs s' hs' => h.renameId_inj (hlt hs) (hlt hs')) (fun s hs => ?_)
    (fun s hs => ?_) fun s hs => ?_
  · rw [hsize]
    exact hlt hs
  · rw [hsize', h.toNat_renameId (hlt hs)]
    exact h.weights.lt_size _ (hlt hs)
  · rw [h.toNat_renameId (hlt hs)]
    exact hcounters _ (hlt hs)

end Spread

/-! ### Tables -/

/-- The entry of the symbol under its new number. -/
def DecodeEntry.rename (φ : Nat → Nat) (entry : DecodeEntry) : DecodeEntry :=
  { entry with symbol := renameId φ entry.symbol }

/-- The symbols under their new numbers. -/
def DecodedBlock.rename (φ : Nat → Nat) (d : DecodedBlock) : DecodedBlock :=
  { d with symbols := d.symbols.map (renameId φ) }

namespace Tables

/-- Tables of the same ids, which have other numbers in the second ones. -/
structure Renames (φ : Nat → Nat) (t t' : Tables) : Prop where
  params_eq : t'.params = t.params
  weights : t.weights.Renames φ t'.weights

namespace Renames

variable {φ : Nat → Nat} {t t' : Tables} (h : Renames φ t t')
include h

/-- Tables with the same parameters are of the same size. -/
theorem tableSize_eq : t'.tableSize = t.tableSize := by
  rw [tableSize, h.params_eq, tableSize]

/-- The slots hold the same symbols under their new numbers. -/
theorem symbols_eq : t'.spread.symbols = t.spread.symbols.map (renameId φ) := by
  have hspread := Spread.ofWeights_of_renames h.weights t.spread_eq
  rw [t'.spread_eq] at hspread
  rw [Except.ok.inj hspread]

/-- The decode table differs only in the numbers of the symbols. -/
theorem decodeTable_eq : t'.decodeTable = t.decodeTable.map (DecodeEntry.rename φ) := by
  -- Sub-states are numbered from the weights on, which are kept.
  have hsubStates : t'.spread.subStates t'.weights = t.spread.subStates t.weights := by
    rw [Spread.subStates, h.symbols_eq, Array.toList_map]
    exact Spread.number_of_renames h.weights t.spread_eq rfl rfl h.weights.weights.eq
  rw [t'.decodeTable_eq, t.decodeTable_eq, Spread.decodeTable, hsubStates, h.symbols_eq,
    Spread.decodeTable]
  simp only [Weights.tableSize, h.weights.tableLog_eq, Array.toList_map, List.zipWith_map_left,
    List.map_toArray, List.map_zipWith]
  rfl

/-- The next-state table has no symbols in it. -/
theorem nextStates_eq : t'.nextStates = t.nextStates := by
  -- Ranks are numbered from the starts on, which are kept too.
  have hranks : t'.spread.ranks t'.weights = t.spread.ranks t.weights := by
    rw [Spread.ranks, h.symbols_eq, Array.toList_map]
    refine Spread.number_of_renames h.weights t.spread_eq (Weights.size_starts _)
      (Weights.size_starts _) fun a ha => ?_
    rw [Array.getD_eq_getD_getElem?, Array.getD_eq_getD_getElem?, Weights.getElem?_starts ha,
      Weights.getElem?_starts (h.weights.weights.lt_size a ha), h.weights.start_eq ha]
  rw [t'.nextStates_eq, t.nextStates_eq, Spread.nextStates, hranks, Spread.nextStates,
    Weights.tableSize, h.weights.tableLog_eq]
  rfl

/-! ### Decoding -/

/-- One symbol is decoded from the same bits, as the base and the width are the same. -/
theorem decodeSymbol_eq (u : Nat) :
    t'.decodeSymbol u = (Prod.map (renameId φ) id) <$> t.decodeSymbol u := by
  unfold decodeSymbol
  rw [h.decodeTable_eq, h.tableSize_eq, Array.getElem?_map]
  cases t.decodeTable[u]? with
  | none => rfl
  | some entry => simp [DecodeEntry.rename]

/-- A sequence is decoded one symbol after the other, so all of them have their new numbers. -/
theorem decodeSymbols_eq (n u : Nat) (symbols : Array UInt16) :
    t'.decodeSymbols n u (symbols.map (renameId φ)) =
      (Prod.map (Array.map (renameId φ)) id) <$> t.decodeSymbols n u symbols := by
  induction n generalizing u symbols with
  | zero => simp [decodeSymbols]
  | succ n ih => simp [decodeSymbols, h.decodeSymbol_eq, ← ih, Array.map_push]

/-- A block has the same length field and start state, and its symbols have their new numbers. -/
theorem readBlock_eq : t'.readBlock = Array.map (renameId φ) <$> t.readBlock := by
  have hdecode (n u : Nat) : t'.decodeSymbols n u #[] =
      (Prod.map (Array.map (renameId φ)) id) <$> t.decodeSymbols n u #[] := by
    rw [← h.decodeSymbols_eq, Array.map_empty]
  rw [readBlock, readBlock, h.params_eq, map_bind]
  -- The length is read alike. What follows depends on it in the same way.
  congr 1
  funext length
  split
  · simp
  · simp only [hdecode, map_bind, bind_map_left, Prod.map_snd, Prod.map_fst, id_eq]
    congr 1
    funext u
    congr 1
    funext r
    split
    · simp
    · rfl

/-- The same bits are decoded to the same symbols under their new numbers, or with the same
complaint. -/
theorem decodeBlockAt_eq (bits : Bits) (offset : Nat) :
    t'.decodeBlockAt bits offset = (t.decodeBlockAt bits offset).map (DecodedBlock.rename φ) := by
  unfold decodeBlockAt
  split
  · rfl
  · rw [h.readBlock_eq]
    simp only [Functor.map, EStateM.map]
    cases t.readBlock (Cursor.ofList bits offset) <;> rfl

/-! ### Encoding -/

/-- The decoder takes the same steps. The encoder takes them backwards, so its transforms need not
be compared. -/
theorem step {u u' : Nat} {symbol : UInt16} {field : Bits.Field}
    (hstep : t.Step u symbol field u') : t'.Step u (renameId φ symbol) field u' := by
  obtain ⟨entry, hentry, rfl, hwidth, hvalue, hnext⟩ := hstep
  refine ⟨entry.rename φ, ?_, rfl, hwidth, hvalue, hnext⟩
  rw [h.decodeTable_eq, Array.getElem?_map, hentry, Option.map_some]

/-- A sequence of steps is one for the symbols under their new numbers. -/
theorem run {u u' : Nat} {symbols : List UInt16} {bits : Bits}
    (hrun : t.Run u symbols bits u') : t'.Run u (symbols.map (renameId φ)) bits u' := by
  induction hrun with
  | nil u => exact .nil u
  | cons hstep _ ih => exact .cons (h.step hstep) ih

/-- The bits of a block are those of the renamed symbols. -/
theorem isBlock {symbols : List UInt16} {bits : Bits} (hblock : t.IsBlock symbols bits) :
    t'.IsBlock (symbols.map (renameId φ)) bits := by
  cases hblock with
  | empty =>
    rw [← h.params_eq]
    exact .empty
  | run hne hlen hrun =>
    rw [← h.params_eq, ← List.length_map (renameId φ)]
    exact .run (by simpa using hne) (by simpa [h.params_eq] using hlen) (h.run hrun)

/-- Renamed symbols can be encoded when the symbols themselves can. -/
theorem encodable_iff {symbols : List Nat} (hsymbols : ∀ s ∈ symbols, s < t.alphabetSize) :
    t'.Encodable (symbols.map φ) ↔ t.Encodable symbols := by
  have hweight : (∀ s ∈ symbols.map φ, 0 < t'.weights.weight s) ↔
      ∀ s ∈ symbols, 0 < t.weights.weight s := by
    rw [List.forall_mem_map]
    exact forall₂_congr fun s hs => by rw [h.weights.weights.eq s (hsymbols s hs)]
  constructor
  · intro ⟨hpos, hlen⟩
    rw [List.length_map, h.params_eq] at hlen
    exact ⟨hweight.1 hpos, hlen⟩
  · intro ⟨hpos, hlen⟩
    refine ⟨hweight.2 hpos, ?_⟩
    rwa [List.length_map, h.params_eq]

/-- Renamed symbols are encoded as the same bits. -/
theorem encodeBlock_of_encodeBlock {symbols : List Nat} {block : Block}
    (hblock : t.encodeBlock symbols = .ok block) : t'.encodeBlock (symbols.map φ) = .ok block := by
  -- Only ids that have states are encoded, so all are named by sixteen bits.
  have hpos := weight_pos_of_encodeBlock hblock
  obtain ⟨ids, rfl⟩ := exists_map_toNat_eq hpos
  have hids : (ids.map UInt16.toNat).map φ = (ids.map (renameId φ)).map UInt16.toNat := by
    rw [List.map_map, List.map_map]
    refine List.map_congr_left fun s hs => (h.weights.toNat_renameId ?_).symm
    exact Weights.lt_alphabetSize (hpos _ (List.mem_map_of_mem hs))
  rw [hids]
  obtain ⟨bits, rfl⟩ := exists_ofBits_of_encodeBlock hblock
  exact encodeBlock_eq_ok_iff.2 (h.isBlock (encodeBlock_eq_ok_iff.1 hblock))

/-- Symbols and renamed symbols are encoded as the same bits, or not at all. -/
theorem encodeBlock_eq_ok_iff {symbols : List Nat} (hsymbols : ∀ s ∈ symbols, s < t.alphabetSize)
    {block : Block} :
    t'.encodeBlock (symbols.map φ) = .ok block ↔ t.encodeBlock symbols = .ok block := by
  constructor
  · intro hblock
    -- The symbols can be encoded without their new numbers too, and as the same bits.
    have hencodable := (h.encodable_iff hsymbols).1 (encodable_of_encodeBlock hblock)
    obtain ⟨block', hblock'⟩ := hencodable.exists_encodeBlock
    have hsame := h.encodeBlock_of_encodeBlock hblock'
    rw [hblock] at hsame
    rw [Except.ok.inj hsame]
    exact hblock'
  · exact h.encodeBlock_of_encodeBlock

end Renames

/-! ### From histograms -/

/-- Tables that code alike, but for the numbers of the symbols. -/
structure CodesAs (φ : Nat → Nat) (t t' : Tables) : Prop where
  decodeTable_eq : t'.decodeTable = t.decodeTable.map (DecodeEntry.rename φ)
  nextStates_eq : t'.nextStates = t.nextStates
  encodeBlock_iff : ∀ symbols, (∀ s ∈ symbols, s < t.alphabetSize) → ∀ block,
    t'.encodeBlock (symbols.map φ) = .ok block ↔ t.encodeBlock symbols = .ok block
  decodeBlockAt_eq : ∀ bits offset,
    t'.decodeBlockAt bits offset = (t.decodeBlockAt bits offset).map (DecodedBlock.rename φ)

/-- Tables that code alike. -/
structure CodesLike (t t' : Tables) : Prop where
  decodeTable_eq : t'.decodeTable = t.decodeTable
  nextStates_eq : t'.nextStates = t.nextStates
  encodeBlock_iff : ∀ symbols block,
    t'.encodeBlock symbols = .ok block ↔ t.encodeBlock symbols = .ok block
  decodeBlockAt_eq : ∀ bits offset, t'.decodeBlockAt bits offset = t.decodeBlockAt bits offset

/-- Two setups fail for the same reason, or both give tables, which are related. -/
inductive SetUpAlike (R : Tables → Tables → Prop) :
    Except SetupError Tables → Except SetupError Tables → Prop
  | error (e : SetupError) : SetUpAlike R (.error e) (.error e)
  | ok {t t' : Tables} (h : R t t') : SetUpAlike R (.ok t) (.ok t')

/-- Renamed tables code alike. -/
theorem Renames.codesAs {φ : Nat → Nat} {t t' : Tables} (h : Renames φ t t') : t.CodesAs φ t' where
  decodeTable_eq := h.decodeTable_eq
  nextStates_eq := h.nextStates_eq
  encodeBlock_iff _ hsymbols _ := h.encodeBlock_eq_ok_iff hsymbols
  decodeBlockAt_eq := h.decodeBlockAt_eq

/-- Numbers that stay as they are need not be told apart. -/
theorem Renames.codesLike {t t' : Tables} (h : Renames id t t') : t.CodesLike t' where
  decodeTable_eq := by
    have hentry : DecodeEntry.rename id = id := funext fun entry => by
      simp [DecodeEntry.rename, renameId_id]
    rw [h.decodeTable_eq, hentry, Array.map_id]
  nextStates_eq := h.nextStates_eq
  encodeBlock_iff symbols block := by
    have hiff (hsymbols : ∀ s ∈ symbols, s < t.alphabetSize) :
        t'.encodeBlock symbols = .ok block ↔ t.encodeBlock symbols = .ok block := by
      simpa using h.encodeBlock_eq_ok_iff hsymbols
    constructor
    · intro hblock
      -- An id that has states belongs to the smaller alphabet too.
      refine (hiff fun s hs => ?_).1 hblock
      have hpos := weight_pos_of_encodeBlock hblock s hs
      obtain ⟨a, ha, rfl⟩ := h.weights.weights.exists_of_pos (Weights.lt_alphabetSize hpos) hpos
      exact ha
    · intro hblock
      refine (hiff fun s hs => ?_).2 hblock
      exact Weights.lt_alphabetSize (weight_pos_of_encodeBlock hblock s hs)
  decodeBlockAt_eq bits offset := by
    have hblock : DecodedBlock.rename id = id := funext fun d => by
      have hid : renameId id = id := funext renameId_id
      rw [DecodedBlock.rename, hid, Array.map_id]
      rfl
    rw [h.decodeBlockAt_eq, hblock]
    cases t.decodeBlockAt bits offset <;> rfl

variable {φ : Nat → Nat} {h h' : Histogram} {params : Params}

/-- Tables of histograms whose ids are renamed are renamed tables. -/
theorem renames_of_ofHistogram {t t' : Tables} (hφ : h.Renames φ h')
    (ht : ofHistogram h params = .ok t) (ht' : ofHistogram h' params = .ok t') :
    t.Renames φ t' := by
  obtain ⟨hw, hparams⟩ := weights_of_ofHistogram ht
  obtain ⟨hw', hparams'⟩ := weights_of_ofHistogram ht'
  exact ⟨hparams'.trans hparams.symm, Weights.renames_of_ofHistogram hφ hw hw'⟩

/-- Renamed ids change nothing about whether there are tables. -/
theorem setUpAlike_of_renames (hφ : h.Renames φ h') (hsize : h'.alphabetSize ≤ maxAlphabetSize) :
    SetUpAlike (Renames φ) (ofHistogram h params) (ofHistogram h' params) := by
  cases ht : ofHistogram h params with
  | error e =>
    -- Both setups make the same tests, on numbers that renaming keeps.
    have ht' : ofHistogram h' params = .error e := by
      rw [ofHistogram_eq_error_iff] at ht ⊢
      exact ht.imp_right fun ⟨hcheck, hw⟩ =>
        ⟨hcheck, (Weights.ofHistogram_eq_error_of_renames hφ hsize).2 hw⟩
    rw [ht']
    exact .error e
  | ok t =>
    obtain ⟨hvalid, hfits⟩ := ofHistogram_eq_ok_iff.1 ⟨t, ht⟩
    have hfits' : h'.Fits params.tableLog := by
      refine ⟨hsize, hφ.total_eq.symm ▸ hfits.total_pos, ?_⟩
      rw [hφ.present_eq, List.length_map]
      exact hfits.present_le
    obtain ⟨t', ht'⟩ := exists_ofHistogram hvalid hfits'
    rw [ht']
    exact .ok (renames_of_ofHistogram hφ ht ht')

/-- A relation between tables can be replaced by one that it implies. -/
theorem SetUpAlike.imp {R S : Tables → Tables → Prop} (himp : ∀ t t', R t t' → S t t')
    {x x' : Except SetupError Tables} (h : SetUpAlike R x x') : SetUpAlike S x x' := by
  cases h with
  | error e => exact .error e
  | ok h => exact .ok (himp _ _ h)

/-- Ids that do not occur can be added behind all others. -/
theorem setUpAlike_padded {n : Nat} (hsize : h.alphabetSize + n ≤ maxAlphabetSize) :
    SetUpAlike CodesLike (ofHistogram h params) (ofHistogram (h.padded n) params) := by
  rw [← Histogram.alphabetSize_padded] at hsize
  exact (setUpAlike_of_renames (h.renames_padded n) hsize).imp fun _ _ h => h.codesLike

/-- Ids that do not occur can be trimmed. -/
theorem setUpAlike_trimmed (hsize : h.alphabetSize ≤ maxAlphabetSize) :
    SetUpAlike CodesLike (ofHistogram h.trimmed params) (ofHistogram h params) := by
  obtain ⟨n, hn⟩ := h.exists_padded_trimmed
  rw [← hn, Histogram.alphabetSize_padded] at hsize
  have halike : SetUpAlike CodesLike (ofHistogram h.trimmed params)
      (ofHistogram (h.trimmed.padded n) params) := setUpAlike_padded hsize
  rwa [hn] at halike

/-- Ids that do not occur make no difference. If the ids of a histogram get new numbers in the same
order, and the numbers in between stay unused, then there are tables for both or for none of the two
histograms. They code alike but for the numbers: the decode tables have the same bases and widths,
the next-state tables are the same, renamed symbols are encoded as the same bits, and any bits are
decoded to the renamed symbols. Unused ids behind all others make no difference at all. -/
theorem unused_ids_ignored :
    (∀ φ (h h' : Histogram) params, h.Renames φ h' → h'.alphabetSize ≤ 65536 →
      SetUpAlike (CodesAs φ) (ofHistogram h params) (ofHistogram h' params)) ∧
    (∀ (h : Histogram) n params, h.alphabetSize + n ≤ 65536 →
      SetUpAlike CodesLike (ofHistogram h params) (ofHistogram (h.padded n) params)) ∧
    (∀ (h : Histogram) params, h.alphabetSize ≤ 65536 →
      SetUpAlike CodesLike (ofHistogram h.trimmed params) (ofHistogram h params)) := by
  refine ⟨fun φ h h' params hφ hsize => ?_, fun h n params hsize => setUpAlike_padded hsize,
    fun h params hsize => setUpAlike_trimmed hsize⟩
  exact (setUpAlike_of_renames hφ hsize).imp fun _ _ h => h.codesAs

/-- Two ids that get the numbers one and three, and two ids that do not occur. -/
theorem unused_ids_ignored_two :
    (Histogram.Renames (2 * · + 1) ⟨#[3, 1]⟩ ⟨#[0, 3, 0, 1, 0]⟩ ∧
      ∃ t t', ofHistogram ⟨#[3, 1]⟩ ⟨2, 8⟩ = .ok t ∧
        ofHistogram ⟨#[0, 3, 0, 1, 0]⟩ ⟨2, 8⟩ = .ok t' ∧ t.CodesAs (2 * · + 1) t') ∧
    SetUpAlike CodesLike (ofHistogram ⟨#[3, 1]⟩ ⟨2, 8⟩) (ofHistogram ⟨#[3, 1, 0]⟩ ⟨2, 8⟩) ∧
    SetUpAlike CodesLike (ofHistogram (Histogram.trimmed ⟨#[0, 0]⟩) ⟨2, 8⟩)
      (ofHistogram ⟨#[0, 0]⟩ ⟨2, 8⟩) := by
  obtain ⟨hrenamed, hpadded, htrimmed⟩ := unused_ids_ignored
  have hφ : Histogram.Renames (2 * · + 1) ⟨#[3, 1]⟩ ⟨#[0, 3, 0, 1, 0]⟩ :=
    ⟨fun a b hab _ => by omega, by decide, by decide, by decide⟩
  refine ⟨⟨hφ, ?_⟩, hpadded ⟨#[3, 1]⟩ 1 ⟨2, 8⟩ (by decide), htrimmed ⟨#[0, 0]⟩ ⟨2, 8⟩ (by decide)⟩
  obtain ⟨t, ht⟩ : ∃ t, ofHistogram ⟨#[3, 1]⟩ ⟨2, 8⟩ = .ok t :=
    exists_ofHistogram (by decide) ⟨by decide, by decide, by decide⟩
  obtain ⟨t', ht'⟩ : ∃ t', ofHistogram ⟨#[0, 3, 0, 1, 0]⟩ ⟨2, 8⟩ = .ok t' :=
    exists_ofHistogram (by decide) ⟨by decide, by decide, by decide⟩
  have halike := hrenamed _ _ _ ⟨2, 8⟩ hφ (by decide)
  rw [ht, ht'] at halike
  cases halike with
  | ok h => exact ⟨t, t', ht, ht', h⟩

end Tables

end Tans
