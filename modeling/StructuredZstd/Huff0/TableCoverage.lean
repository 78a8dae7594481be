import StructuredZstd.Huff0.CompleteWeights

namespace Huff0.Encoder

open Bits
open Fse.Encoder (lastCounted lastCounted_spec optimalTableLog_spec)

section Legacy

variable {counts : List Nat}

theorem set_blank {out : List Nat} {s : Nat} (h : out.getD s 0 = 0) : out.set s 0 = out := by
  apply List.ext_getElem?
  intro i
  rw [List.getElem?_set]
  split
  · rename_i hi
    subst hi
    rw [List.getD_eq_getElem?_getD] at h
    split
    · rename_i hlt
      rw [List.getElem?_eq_getElem hlt] at h ⊢
      exact congrArg some h.symm
    · rename_i hge
      rw [List.getElem?_eq_none (Nat.le_of_not_lt hge)]
  · rfl

/-- The weights go to the symbols that occur, in the order of the items. -/
theorem handOut_eq {items : List (Nat × Nat)} {weights out : List Nat}
    (hnodup : (items.map Prod.snd).Nodup) (hblank : ∀ s ∈ items.map Prod.snd, out.getD s 0 = 0)
    (hlen : (items.filter (·.1 ≠ 0)).length = weights.length) :
    handOut items weights out =
      some (setAll out (((items.filter (·.1 ≠ 0)).map Prod.snd).zip weights)) := by
  induction items generalizing weights out with
  | nil => rfl
  | cons item items ih =>
    obtain ⟨count, symbol⟩ := item
    obtain ⟨hnew, hrest⟩ := List.nodup_cons.mp hnodup
    have hsymbol := hblank symbol (by simp)
    unfold handOut
    split
    · rename_i h0
      have hskip : ((count, symbol) :: items).filter (·.1 ≠ 0) = items.filter (·.1 ≠ 0) := by
        simp [h0]
      rw [hskip] at hlen ⊢
      rw [set_blank hsymbol]
      exact ih hrest (fun s hs => hblank s (List.mem_cons_of_mem _ hs)) hlen
    · rename_i hne
      have htake : ((count, symbol) :: items).filter (·.1 ≠ 0) =
          (count, symbol) :: items.filter (·.1 ≠ 0) := by simp [hne]
      rw [htake] at hlen ⊢
      cases weights with
      | nil => cases hlen
      | cons weight weights =>
        refine ih hrest ?_ (Nat.succ.inj hlen)
        intro s hs
        have hsne : symbol ≠ s := fun he => hnew (he ▸ hs)
        rw [List.getD_eq_getElem?_getD, List.getElem?_set_ne hsne, ← List.getD_eq_getElem?_getD]
        exact hblank s (List.mem_cons_of_mem _ hs)

theorem presentLeaves_length (counts : List Nat) :
    (presentLeaves counts).length = counts.countP (0 < ·) := by
  rw [presentLeaves, List.length_map, ← List.countP_eq_length_filter, List.countP_eq_length_filter,
    List.countP_eq_length_filter]
  have h := List.filter_map (f := Prod.fst) (p := fun c : Nat => decide (0 < c)) (l := counts.zipIdx)
  rw [List.zipIdx_map_fst] at h
  rw [h, List.length_map]
  rfl

/-- The spread weights are those of a complete code, for every number of symbols. -/
theorem legacyDistributedWeights_codesFor (hlen : counts.length ≤ 256)
    (htwo : 2 ≤ counts.countP (0 < ·)) :
    ∃ weights maxBits, legacyDistributedWeights counts = some weights ∧
      CodesFor counts weights maxBits := by
  generalize hamount : counts.length - counts.count 0 = amount
  have hzero : counts.length = counts.countP (0 < ·) + counts.count 0 := by
    rw [List.length_eq_countP_add_countP (0 < ·), List.count]
    congr 1
    apply List.countP_congr
    intro c _
    simp
  have hpresent : counts.countP (0 < ·) = amount := by omega
  have hrange : amount ∈ List.range' 2 255 := by
    rw [List.mem_range'_1]
    omega
  obtain ⟨hsum, hruns⟩ := legacyRuns_complete amount hrange
  obtain ⟨runs, hlegacy, hcomplete⟩ := (Option.any_eq_true _ _).mp hruns
  simp only [runsComplete, Bool.and_eq_true, decide_eq_true_eq, List.all_eq_true] at hcomplete
  obtain ⟨⟨⟨⟨hcount, hbounds⟩, hfull⟩, hpos⟩, hmax⟩ := hcomplete
  generalize Nat.log2 (runs.map fun run => run.2 * 2 ^ (run.1 - 1)).sum = maxBits at *
  have hexpand : ∀ runs : List (Nat × Nat), (expand runs).length = (runs.map Prod.snd).sum := by
    intro runs
    rw [expand, List.length_flatMap]
    simp
  have hgroups : distributeWeights amount =
      some (expand (distributeRuns amount amount [(1, 2)] 2 1 2)) := by
    have hrun : distributeGroups amount amount [1, 1] 1 2 =
        expand (distributeRuns amount amount [(1, 2)] 2 1 2) :=
      distributeGroups_expand amount amount 1 2 [(1, 2)]
    simp only [distributeWeights, hrun]
    rw [if_pos (by omega), if_pos ((hexpand _).trans hsum)]
  obtain ⟨items, hsorted, hitems⟩ : ∃ items, counts.zipIdx.mergeSort (fun a b => a.1 ≤ b.1) =
      items ∧ items.Perm counts.zipIdx := ⟨_, rfl, List.mergeSort_perm _ _⟩
  have hnodup : (items.map Prod.snd).Nodup := by
    rw [(hitems.map Prod.snd).nodup_iff, List.zipIdx_map_snd]
    exact List.nodup_range'
  have hkept : ((items.filter (·.1 ≠ 0)).map Prod.snd).Perm
      ((presentLeaves counts).map HuffNode.symbol) := by
    rw [presentLeaves_symbols]
    refine ((hitems.filter _).map _).trans (List.Perm.of_eq ?_)
    congr 2
    funext c
    simp [Nat.pos_iff_ne_zero]
  have hused : (items.filter (·.1 ≠ 0)).length = (expand runs).length := by
    have := hkept.length_eq
    rw [List.length_map, List.length_map, presentLeaves_length] at this
    rw [this, hpresent, hexpand, hcount]
  have hfst : ((((items.filter (·.1 ≠ 0)).map Prod.snd).zip (expand runs)).map Prod.fst) =
      (items.filter (·.1 ≠ 0)).map Prod.snd := List.map_fst_zip (by rw [List.length_map, hused])
  have hsnd : ((((items.filter (·.1 ≠ 0)).map Prod.snd).zip (expand runs)).map Prod.snd) =
      expand runs := List.map_snd_zip (by rw [List.length_map, hused])
  refine ⟨setAll (List.replicate counts.length 0)
    (((items.filter (·.1 ≠ 0)).map Prod.snd).zip (expand runs)), maxBits, ?_,
    CodesFor.of_setAll hpos hmax ?_ ?_ ?_ ?_⟩
  · have hblank : ∀ s, (List.replicate counts.length 0).getD s 0 = 0 := by
      intro s
      rw [List.getD_eq_getElem?_getD, List.getElem?_replicate]
      split <;> rfl
    have hredistribute := redistributeRuns_expand hlegacy
    have hlength : (expand (distributeRuns amount amount [(1, 2)] 2 1 2)).length = amount :=
      (hexpand _).trans hsum
    simp only [legacyDistributedWeights, hamount, hgroups, hlength, Option.bind_eq_bind,
      Option.bind_some, hredistribute,
      hsorted]
    exact handOut_eq hnodup (fun s _ => hblank s) hused
  · rw [hfst, hkept.nodup_iff]
    exact presentLeaves_nodup counts
  · intro s
    rw [hfst, hkept.mem_iff, mem_presentLeaves]
  · intro e he
    obtain ⟨c, hc⟩ := mem_expand (hsnd ▸ List.mem_map_of_mem he : e.2 ∈ expand runs)
    exact hbounds _ hc
  · have hslots : (expand runs).map slots = (expand runs).map fun w => 2 ^ (w - 1) := by
      apply List.map_congr_left
      intro w hw
      obtain ⟨c, hc⟩ := mem_expand hw
      exact slots_of_pos (hbounds _ hc).1
    have hgiven : ((expand runs).map slots).sum = 2 ^ maxBits := by
      rw [hslots, expand_sum, hfull]
    rw [← hgiven]
    conv_rhs => rw [← hsnd, List.map_map]
    rfl

theorem buildLimitedWeights_codesFor (hfits : histogramFits counts)
    (htwo : 2 ≤ counts.countP (0 < ·)) {maxNbBits : Nat} (hpos : 0 < maxNbBits)
    (hmax : maxNbBits ≤ 12) :
    ∃ weights maxBits, buildLimitedWeights counts maxNbBits = some weights ∧
      CodesFor counts weights maxBits := by
  have hperm := buildHuffmanLeafDepths_symbols hfits
  have hleaves : 2 ≤ (buildHuffmanLeafDepths counts).length := by
    have := hperm.length_eq
    rw [List.length_map, List.length_map, presentLeaves_length] at this
    omega
  have hlen : counts.length ≤ 256 := by
    simp only [histogramFits, Bool.and_eq_true, decide_eq_true_eq] at hfits
    exact hfits.1
  unfold buildLimitedWeights
  cases hlimited : limitedWeights (buildHuffmanLeafDepths counts) counts.length maxNbBits with
  | some weights =>
    refine ⟨weights, maxNbBits, rfl, limitedWeights_codesFor hleaves ?_ ?_ hpos hmax hlimited⟩
    · exact hperm.nodup_iff.mpr (presentLeaves_nodup counts)
    · intro s
      rw [hperm.mem_iff, mem_presentLeaves]
  | none => exact legacyDistributedWeights_codesFor hlen htwo

/-- Whatever table log the search settles on, its weights are those of a complete code. -/
theorem searchTableLogs_codesFor (hfits : histogramFits counts)
    (htwo : 2 ≤ counts.countP (0 < ·)) (minTableLog : Nat) (logs : List Nat)
    (hlogs : ∀ log ∈ logs, 0 < log ∧ log ≤ 12) (found : LogSearch)
    (hfound : ∀ weights, found.best = some weights → ∃ maxBits, CodesFor counts weights maxBits) :
    ∃ found', searchTableLogs counts (buildHuffmanLeafDepths counts) minTableLog logs found =
        some found' ∧
      ∀ weights, found'.best = some weights → ∃ maxBits, CodesFor counts weights maxBits := by
  induction logs generalizing found with
  | nil => exact ⟨found, rfl, hfound⟩
  | cons log logs ih =>
    obtain ⟨hpos, hmax⟩ := hlogs log List.mem_cons_self
    have hrest := ih fun l hl => hlogs l (List.mem_cons_of_mem _ hl)
    obtain ⟨weights, maxBits, hweights, hcodes⟩ :=
      buildLimitedWeights_codesFor hfits htwo hpos hmax
    have hnext : ∀ size, ∀ ws, (⟨some weights, size⟩ : LogSearch).best = some ws →
        ∃ maxBits, CodesFor counts ws maxBits := by
      intro size ws hws
      cases hws
      exact ⟨maxBits, hcodes⟩
    unfold buildLimitedWeights at hweights
    unfold searchTableLogs
    cases hl : limitedWeights (buildHuffmanLeafDepths counts) counts.length log
    all_goals
      rw [hl] at hweights
      simp only at hweights
      simp only [hweights, Option.bind_eq_bind, Option.bind_some]
      split
      · exact hrest found hfound
      · split
        · exact ⟨found, rfl, hfound⟩
        · split
          · exact hrest found hfound
          · split
            · exact ⟨found, rfl, hfound⟩
            · apply hrest
              split
              · exact hnext _
              · exact hfound

end Legacy

section Build

variable {counts weights : List Nat} {maxBits : Nat}

/-- No code of a discarded table survives in the packed codes. -/
theorem packCodes_spare {codes : List (Nat × Nat)} (h : codes.length ≤ 256)
    (spare : Option HuffmanTable) : packCodes codes spare = packCodes codes none := by
  have hlen := HuffmanTable.packCodes_length h spare
  have hlen' := HuffmanTable.packCodes_length h none
  apply List.ext_getElem (hlen.trans hlen'.symm)
  intro s hs hs'
  by_cases hin : s < codes.length
  · simp only [packCodes]
    rw [List.getElem_append_left (by simpa using hin), List.getElem_append_left (by simpa using hin)]
  · have hdead := HuffmanTable.packCodes_dead spare s (Nat.le_of_not_lt hin)
    have hdead' := HuffmanTable.packCodes_dead none s (Nat.le_of_not_lt hin)
    rw [List.getD_eq_getElem?_getD, List.getElem?_eq_getElem hs] at hdead
    rw [List.getD_eq_getElem?_getD, List.getElem?_eq_getElem hs'] at hdead'
    exact hdead.trans hdead'.symm

theorem buildFromWeightsReusing_spare (weights : List Nat) (spare : Option HuffmanTable) :
    HuffmanTable.buildFromWeightsReusing weights spare = HuffmanTable.buildFromWeights weights := by
  unfold HuffmanTable.buildFromWeights HuffmanTable.buildFromWeightsReusing
  split
  · simp only
    split
    · rename_i h
      have hle : (assignCodes _ weights (firstCodes (fun w => weights.count w) _)).length ≤ 256 :=
        (assignCodes_length (Fse.Decoder.highestBitSet (weightSum fun w => weights.count w) - 1)
          weights (firstCodes (fun w => weights.count w) (Fse.Decoder.highestBitSet
            (weightSum fun w => weights.count w) - 1))).trans_le h.2.1
      simp only [packCodes_spare hle spare]
    · rfl
  · rfl

/-- A table of a complete code, with a code for every symbol that occurs. -/
structure CoderOf (counts lengths : List Nat) (maxBits : Nat) (t : HuffmanTable) : Prop where
  complete : CompleteCode lengths maxBits
  le_twelve : maxBits ≤ 12
  length_eq : lengths.length = counts.length
  table : TableOf lengths maxBits t
  covers : ∀ s, 0 < counts.getD s 0 → 0 < lengths.getD s 0

theorem CoderOf.sound {lengths : List Nat} {t : HuffmanTable}
    (h : CoderOf counts lengths maxBits t) : t.Sound :=
  HuffmanTable.sound_of_complete h.complete h.le_twelve h.table

theorem CoderOf.codes {lengths : List Nat} {t : HuffmanTable}
    (h : CoderOf counts lengths maxBits t) {s : Nat} (hs : 0 < counts.getD s 0) :
    (t.numBitsForSymbol s).isSome := by
  have hpos := h.covers s hs
  rw [List.getD_eq_getElem?_getD] at hpos
  cases hget : lengths[s]? with
  | none =>
    rw [hget] at hpos
    cases hpos
  | some len =>
    rw [hget, Option.getD_some] at hpos
    have hcode := h.table.code s len hget
    rw [if_neg hpos.ne'] at hcode
    simp only [HuffmanTable.numBitsForSymbol, hcode, if_neg hpos.ne', Option.isSome_some]

/-- The table of such weights codes every symbol that occurs. -/
theorem CodesFor.build (h : CodesFor counts weights maxBits) (hlen : counts.length ≤ 256) :
    ∃ t, (∀ spare, HuffmanTable.buildFromWeightsReusing weights spare = some t) ∧
      ∃ lengths, CoderOf counts lengths maxBits t := by
  have hcode := h.complete.completeCode
  obtain ⟨t, ht, htable⟩ := buildFromWeightsReusing_spec hcode h.complete.pos h.complete.le_twelve
    (by rwa [List.length_map, h.length_eq]) none
  rw [h.complete.map_weightOf] at ht
  refine ⟨t, fun spare => (buildFromWeightsReusing_spare weights spare).trans ht, _, hcode,
    h.complete.le_twelve, by rw [List.length_map, h.length_eq], htable, ?_⟩
  intro s hs
  have hw := h.covers s hs
  rw [List.getD_eq_getElem?_getD] at hw ⊢
  rw [List.getElem?_map]
  cases hget : weights[s]? with
  | none =>
    rw [hget] at hw
    cases hw
  | some w =>
    rw [hget] at hw
    have hle := h.complete.le w (List.mem_of_getElem? hget)
    have hw : 0 < w := hw
    rw [Option.map_some, Option.getD_some, lengthOf, if_neg hw.ne']
    omega

/-- The literals table of two symbols or more is always built, the same over every spare one. -/
theorem buildFromCountsGatedWith_codes (hfits : histogramFits counts)
    (htwo : 2 ≤ counts.countP (0 < ·)) (useSearch : Bool) :
    ∃ t, (∀ spare, HuffmanTable.buildFromCountsGatedWith counts useSearch spare = some t) ∧
      ∃ lengths maxBits, CoderOf counts lengths maxBits t := by
  have hlen : counts.length ≤ 256 := by
    simp only [histogramFits, Bool.and_eq_true, decide_eq_true_eq] at hfits
    exact hfits.1
  have hsum : 2 ≤ counts.sum := by
    refine htwo.trans ?_
    clear htwo hfits hlen
    induction counts with
    | nil => exact Nat.le_refl 0
    | cons c counts ih =>
      rw [List.countP_cons, List.sum_cons]
      split
      · rename_i hc
        have := of_decide_eq_true hc
        omega
      · omega
  cases useSearch with
  | true =>
    have hsymbols : counts.countP (0 < ·) < 2 ^ 9 :=
      (List.countP_le_length.trans hlen).trans_lt (by decide)
    have hlog : Nat.log2 (counts.countP (0 < ·)) + 1 ≤ 9 :=
      (Nat.log2_lt (by omega)).mpr hsymbols
    obtain ⟨found, hsearch, hbest⟩ := searchTableLogs_codesFor hfits htwo
      (Nat.log2 (counts.countP (0 < ·)) + 1)
      (List.range' (Nat.log2 (counts.countP (0 < ·)) + 1)
        (12 - (Nat.log2 (counts.countP (0 < ·)) + 1)))
      (by
        intro log hmem
        have := List.mem_range'_1.mp hmem
        omega) ⟨none, 2 ^ 64 - 2⟩ (by
        intro weights hw
        cases hw)
    cases hfound : found.best with
    | some weights =>
      obtain ⟨maxBits, hcodes⟩ := hbest weights hfound
      obtain ⟨t, ht, lengths, hcoder⟩ := hcodes.build hlen
      refine ⟨t, ?_, lengths, maxBits, hcoder⟩
      intro spare
      simp only [HuffmanTable.buildFromCountsGatedWith, if_true, HuffmanTable.buildFromCounts,
        hfits, if_neg (Nat.not_le.mpr htwo), hsearch, hfound, Option.bind_eq_bind, Option.bind_some]
      exact ht none
    | none =>
      obtain ⟨weights, maxBits, hweights, hcodes⟩ :=
        buildLimitedWeights_codesFor hfits htwo (show 0 < 11 by decide) (by decide)
      obtain ⟨t, ht, lengths, hcoder⟩ := hcodes.build hlen
      refine ⟨t, ?_, lengths, maxBits, hcoder⟩
      intro spare
      simp only [HuffmanTable.buildFromCountsGatedWith, if_true, HuffmanTable.buildFromCounts,
        hfits, if_neg (Nat.not_le.mpr htwo), hsearch, hfound, hweights, Option.bind_eq_bind,
        Option.bind_some]
      exact ht none
  | false =>
    have hlast := (lastCounted_spec (show 0 < counts.sum by omega)).1
    obtain ⟨log, hlog, hlow, hhigh, -⟩ := optimalTableLog_spec 1 hsum (show 5 ≤ 11 by decide)
      (by decide) (show 2 * lastCounted counts < 2 ^ (11 - 1) by omega)
    have hcheap : cheapHufTableLog counts counts.sum = some log := by
      rw [cheapHufTableLog, if_neg (by omega)]
      exact hlog
    obtain ⟨weights, maxBits, hweights, hcodes⟩ :=
      buildLimitedWeights_codesFor hfits htwo (show 0 < log by omega) (by omega)
    obtain ⟨t, ht, lengths, hcoder⟩ := hcodes.build hlen
    refine ⟨t, ?_, lengths, maxBits, hcoder⟩
    intro spare
    simp only [HuffmanTable.buildFromCountsGatedWith, Bool.false_eq_true, if_false, hfits, if_true,
      hcheap, hweights, Option.bind_eq_bind, Option.bind_some]
    exact ht spare

theorem buildFromCountsGatedWith_spec (hfits : histogramFits counts)
    (htwo : 2 ≤ counts.countP (0 < ·)) (useSearch : Bool) :
    ∃ t, (∀ spare, HuffmanTable.buildFromCountsGatedWith counts useSearch spare = some t) ∧
      t.Sound ∧ ∀ s, 0 < counts.getD s 0 → (t.numBitsForSymbol s).isSome := by
  obtain ⟨t, ht, lengths, maxBits, hcoder⟩ := buildFromCountsGatedWith_codes hfits htwo useSearch
  exact ⟨t, ht, hcoder.sound, fun s hs => hcoder.codes hs⟩

end Build

section Built

variable {weights : List Nat} {log k : Nat}

theorem weightSum_slots (h : ∀ w ∈ weights, w ≤ 12) :
    weightSum (fun w => weights.count w) = (weights.map slots).sum := by
  change _ = (weights.map fun w => 2 ^ w / 2).sum
  rw [weightSum_eq_sum, Decoder.sum_weights_eq_sum_count h]
  apply Finset.sum_congr rfl
  intro w hw
  have hslots : 2 ^ w / 2 = 2 ^ (w - 1) := slots_of_pos (Finset.mem_Ioc.mp hw).1
  rw [hslots]

theorem slots_eq_zero {w : Nat} (h : slots w = 0) : w = 0 := by
  by_contra h0
  rw [slots_of_pos (Nat.pos_of_ne_zero h0)] at h
  exact absurd h (Nat.two_pow_pos _).ne'

/-- A weight wider than the table takes it whole and leaves the others none. -/
theorem lone_weight (hsum : (weights.map slots).sum = 2 ^ k) {wide : Nat} (hmem : wide ∈ weights)
    (hwide : k < wide) : (∀ w ∈ weights, w = 0 ∨ w = k + 1) ∧ weights.count (k + 1) ≤ 1 := by
  obtain ⟨before, after, rfl⟩ := List.append_of_mem hmem
  have hslots : slots wide = 2 ^ (wide - 1) := slots_of_pos (Nat.zero_lt_of_lt hwide)
  have hle : 2 ^ k ≤ 2 ^ (wide - 1) := Nat.pow_le_pow_right (by decide) (by omega)
  simp only [List.map_append, List.map_cons, List.sum_append, List.sum_cons] at hsum
  have hk : wide = k + 1 := by
    have := (Nat.pow_right_injective (Nat.le_refl 2)) (show 2 ^ (wide - 1) = 2 ^ k by omega)
    omega
  have hzero : ∀ l : List Nat, (l.map slots).sum = 0 → ∀ w ∈ l, w = 0 := by
    intro l hl w hw
    exact slots_eq_zero (List.sum_eq_zero_iff.mp hl _ (List.mem_map_of_mem hw))
  have hbefore := hzero before (by omega)
  have hafter := hzero after (by omega)
  have hnone : ∀ l : List Nat, (∀ w ∈ l, w = 0) → l.count (k + 1) = 0 := by
    intro l hl
    rw [List.count_eq_zero]
    intro hw
    cases hl _ hw
  constructor
  · intro w hw
    rcases List.mem_append.mp hw with hw | hw
    · exact .inl (hbefore w hw)
    · rcases List.mem_cons.mp hw with rfl | hw
      · exact .inr hk
      · exact .inl (hafter w hw)
  · rw [List.count_append, List.count_cons, hnone before hbefore, hnone after hafter]
    split <;> omega

theorem firstCodes_zero (perWeight : Nat → Nat) (log : Nat) :
    (firstCodes perWeight log).getD 0 0 = 0 := by
  have hstep : ∀ (ks : List Nat) (acc : List Nat × Nat), (∀ k ∈ ks, k < log) →
      acc.1.getD 0 0 = 0 →
      (ks.foldl (fun acc k => firstCodesStep perWeight log k acc) acc).1.getD 0 0 = 0 := by
    intro ks
    induction ks with
    | nil => exact fun _ _ h => h
    | cons k ks ih =>
      intro acc hks h0
      have hk := hks k List.mem_cons_self
      apply ih _ (fun j hj => hks j (List.mem_cons_of_mem _ hj))
      simp only [firstCodesStep]
      rw [List.getD_eq_getElem?_getD, List.getElem?_set_ne (by omega), ← List.getD_eq_getElem?_getD]
      exact h0
  exact hstep _ _ (fun k hk => List.mem_range.mp hk) rfl

/-- The symbol of such a weight gets a code of no bits. -/
theorem assignCodes_lone {vals : List Nat} (h : ∀ w ∈ weights, w = 0 ∨ w = log + 1)
    (hcount : weights.count (log + 1) ≤ 1)
    (h0 : vals.getD 0 0 = 0 ∨ weights.count (log + 1) = 0) :
    ∀ c ∈ assignCodes log weights vals, c = (0, 0) := by
  induction weights generalizing vals with
  | nil =>
    intro c hc
    cases hc
  | cons w weights ih =>
    have hrest : ∀ x ∈ weights, x = 0 ∨ x = log + 1 := fun x hx => h x (List.mem_cons_of_mem _ hx)
    intro c hc
    rw [assignCodes] at hc
    rcases h w List.mem_cons_self with rfl | rfl
    · rw [List.count_cons_of_ne (by omega)] at hcount h0
      rw [if_pos rfl] at hc
      rcases List.mem_cons.mp hc with rfl | hc
      · rfl
      · exact ih hrest hcount h0 c hc
    · rw [List.count_cons_self] at hcount h0
      have h0 := h0.resolve_right (Nat.succ_ne_zero _)
      simp only [if_neg (Nat.succ_ne_zero log), Nat.sub_self, h0] at hc
      rcases List.mem_cons.mp hc with rfl | hc
      · rfl
      · exact ih hrest (by omega) (.inr (by omega)) c hc

theorem packCodes_getD {codes : List (Nat × Nat)} (spare : Option HuffmanTable) {s c n : Nat}
    (h : codes[s]? = some (c, n)) : (packCodes codes spare).getD s 0 = packHufCelt c n := by
  have hin := (List.getElem?_eq_some_iff.mp h).1
  unfold packCodes
  rw [List.getD_eq_getElem?_getD, List.getElem?_append_left (by rwa [List.length_map]),
    List.getElem?_map, h]
  rfl

/-- What the builder returns is sound, whatever weights it was given. -/
theorem buildFromWeightsReusing_sound {spare : Option HuffmanTable} {t : HuffmanTable}
    (h : HuffmanTable.buildFromWeightsReusing weights spare = some t) : t.Sound := by
  have hbuilt := h
  unfold HuffmanTable.buildFromWeightsReusing at h
  split at h
  · rename_i hall
    simp only at h
    split at h
    · rename_i hsum
      have hle : ∀ w ∈ weights, w ≤ 12 := by simpa using hall
      obtain ⟨k, hk⟩ := hsum.1
      have hslots := (weightSum_slots hle).symm.trans hk
      have htable : t.tableLog = k := by
        rw [← Option.some.inj h]
        simp only [hk, Decoder.highestBitSet_two_pow, Nat.add_sub_cancel]
      have hlog : k ≤ 12 := by
        have hbound := hsum.2.2
        rwa [hk, Decoder.highestBitSet_two_pow, Nat.add_sub_cancel] at hbound
      by_cases hwide : ∀ w ∈ weights, w ≤ k
      · have hpos : 0 < k := by
          by_contra h0
          have hzero : ∀ x ∈ weights.map slots, x = 0 := by
            intro x hx
            obtain ⟨w, hw, rfl⟩ := List.mem_map.mp hx
            have hw0 : w = 0 := by
              have := hwide w hw
              omega
            rw [hw0]
            rfl
          rw [List.sum_eq_zero hzero] at hslots
          exact absurd hslots (Nat.two_pow_pos k).ne
        have hweights : CompleteWeights weights k := ⟨hpos, hlog, hwide, hslots⟩
        obtain ⟨t', ht', hof⟩ := buildFromWeightsReusing_spec hweights.completeCode hpos hlog
          (by rw [List.length_map]; exact hsum.2.1) spare
        rw [hweights.map_weightOf, hbuilt] at ht'
        cases ht'
        exact HuffmanTable.sound_of_complete hweights.completeCode hlog hof
      · obtain ⟨wide, hnot⟩ := not_forall.mp hwide
        obtain ⟨hmem, hlt⟩ := Classical.not_imp.mp hnot
        obtain ⟨hlone, hcount⟩ := lone_weight hslots hmem (Nat.lt_of_not_le hlt)
        have hzero : ∀ s c n : Nat, t.codes[s]? = some (c, n) → c = 0 ∧ n = 0 := by
          intro s c n hs
          have hcode := List.mem_of_getElem? hs
          rw [← Option.some.inj h] at hcode
          simp only [hk, Decoder.highestBitSet_two_pow, Nat.add_sub_cancel] at hcode
          exact Prod.mk.inj (assignCodes_lone hlone hcount (.inl (firstCodes_zero _ _)) _ hcode)
        refine ⟨htable.trans_le hlog, ?_, ?_, ?_⟩
        · intro s c n hs
          obtain ⟨rfl, rfl⟩ := hzero s c n hs
          decide
        · intro s c n hs
          rw [(hzero s c n hs).2]
          exact Nat.zero_le _
        · intro s c n hs
          rw [← Option.some.inj h] at hs ⊢
          exact packCodes_getD spare hs
    · cases h
  · cases h

end Built
end Huff0.Encoder
