import StructuredZstd.Encoding.MatchTableSpec

namespace Encoding

namespace MatchTable

variable {t t' : MatchTable} {p : Nat}

theorem tableSizes_pos (t : MatchTable) : 0 < t.tableSizes.2.2 := by
  have h : 0 < 1 <<< t.hashLog := by
    rw [Nat.one_shiftLeft]
    exact Nat.two_pow_pos _
  exact Nat.lt_of_lt_of_le h (Nat.le_trans (Nat.le_add_right _ _) (Nat.le_add_right _ _))

/-- New tables are empty, and the ones kept keep their entries. -/
theorem ensureTables_spec (hs : Sound t) :
    Sound t.ensureTables ∧ Keeps t t.ensureTables ∧ t.ensureTables.tables ≠ [] := by
  have hpos := t.tableSizes_pos
  unfold ensureTables
  dsimp only
  split
  · have hne : List.replicate t.tableSizes.2.2 hcEmpty ≠ [] := by
      rw [← List.length_pos_iff, List.length_replicate]
      exact hpos
    have hk : Keeps t { t with
        tables := List.replicate t.tableSizes.2.2 hcEmpty
        chainOff := t.tableSizes.1
        hash3Off := t.tableSizes.1 + t.tableSizes.2.1 } :=
      ⟨⟨rfl, fun _ => hne, rfl, rfl, rfl, rfl⟩, rfl, rfl⟩
    exact ⟨hs.of_fresh hk rfl (fresh_replicate t _), hk, hne⟩
  · split
    · rename_i hlen
      have hne : t.tables.take t.hash3Off ++
          List.replicate (t.tableSizes.2.2 - (t.tables.take t.hash3Off).length) hcEmpty ≠ [] := by
        rw [← List.length_pos_iff, List.length_append, List.length_replicate]
        omega
      have hk : Keeps t { t with
          tables := t.tables.take t.hash3Off ++
            List.replicate (t.tableSizes.2.2 - (t.tables.take t.hash3Off).length) hcEmpty } :=
        ⟨⟨rfl, fun _ => hne, rfl, rfl, rfl, rfl⟩, rfl, rfl⟩
      refine ⟨hs.of_fresh hk rfl ?_, hk, hne⟩
      intro v hv
      rcases List.mem_append.mp hv with hv | hv
      · exact hs.fresh v (List.mem_of_mem_take hv)
      · exact fresh_replicate t _ v hv
    · rename_i hlen
      refine ⟨hs, Keeps.refl t, ?_⟩
      rw [← List.length_pos_iff, not_not.mp hlen]
      exact hpos

theorem lastBlockLen_le (w : ChunkWindow) : w.lastBlockLen ≤ w.windowSize := by
  rw [ChunkWindow.lastBlockLen, w.windowSize_eq, List.getLastD_eq_getLast?]
  cases hl : w.chunkLens.getLast? with
  | none => exact Nat.zero_le _
  | some c =>
    obtain ⟨front, hf⟩ := List.getLast?_eq_some_iff.mp hl
    simp [hf]

/-- The newest block ends where the window does, and starts inside it. -/
theorem currentBlockRange_spec (t : MatchTable) :
    t.currentBlockRange.1 + t.currentBlockRange.2 = t.window.historyAbsEnd ∧
      t.floor ≤ t.currentBlockRange.1 := by
  have h := lastBlockLen_le t.window
  simp only [currentBlockRange, ChunkWindow.historyAbsEnd, floor]
  omega

theorem insertSkipped_spec {endAbs : Nat} (hs : Sound t) (hf : t.floor ≤ p)
    (h : t.insertSkipped p endAbs = some t') : Sound t' ∧ SameFrame t t' := by
  unfold insertSkipped at h
  obtain ⟨r, hr, rfl⟩ := Option.map_eq_some_iff.mp h
  obtain ⟨hsr, hfr, hc⟩ := maybeRebasePositions_spec hs hr
  obtain ⟨hs', hk⟩ := @btInsertRange_spec r p (p + 1) hsr endAbs endAbs (hfr.floor ▸ hf)
    (fun x hx hxs he => by
      have hxp : x = p := by omega
      rw [hfr.window] at he
      rw [hxp]
      exact hc (by omega))
  exact ⟨hs'.insertHash3OnlyNoRebase p,
    hfr.trans (hk.trans (insertHash3OnlyNoRebase_keeps _ p)).toSameFrame⟩

theorem insertAllSkipped_spec {endAbs : Nat} {positions : List Nat} (hs : Sound t)
    (hf : ∀ x ∈ positions, t.floor ≤ x)
    (h : t.insertAllSkipped endAbs positions = some t') : Sound t' ∧ SameFrame t t' := by
  induction positions generalizing t with
  | nil =>
    cases h
    exact ⟨hs, SameFrame.refl _⟩
  | cons x rest ih =>
    rw [insertAllSkipped, Option.bind_eq_some_iff] at h
    obtain ⟨r, hr, h⟩ := h
    obtain ⟨hsr, hfr⟩ := insertSkipped_spec hs (hf x List.mem_cons_self) hr
    obtain ⟨hs', hf'⟩ := ih hsr
      (fun y hy => by
        rw [hfr.floor]
        exact hf y (List.mem_cons_of_mem x hy)) h
    exact ⟨hs', hfr.trans hf'⟩

theorem floor_le_sparsePositions {startAbs endAbs : Nat} (hf : t.floor ≤ startAbs) :
    ∀ x ∈ t.sparsePositions startAbs endAbs, t.floor ≤ x := by
  intro x hx
  simp only [sparsePositions, List.mem_append, List.mem_map, List.mem_filter, List.mem_range] at hx
  rcases hx with ⟨i, -, rfl⟩ | ⟨⟨i, -, rfl⟩, -⟩
  · omega
  · omega

theorem btInsertSparse_spec {startAbs endAbs : Nat} (hs : Sound t) (hf : t.floor ≤ startAbs)
    (h : t.btInsertSparseIncompressibleBlock startAbs endAbs = some t') :
    Sound t' ∧ SameFrame t t' := by
  unfold btInsertSparseIncompressibleBlock at h
  obtain ⟨r, hr, rfl⟩ := Option.map_eq_some_iff.mp h
  obtain ⟨hs', hf'⟩ := insertAllSkipped_spec hs (floor_le_sparsePositions hf) hr
  refine ⟨(hs'.setSkipInsertUntilAbs _).setNextToUpdate3 _, hf'.trans ?_⟩
  exact ((r.setSkipInsertUntilAbs_keeps _).trans (setNextToUpdate3_keeps _ _)).toSameFrame

theorem skipMatching_spec {hint : Option Bool} (hs : Sound t)
    (h : t.skipMatching hint = some t') : Sound t' ∧ SameFrame t t' ∧ t'.tables ≠ [] := by
  unfold skipMatching at h
  obtain ⟨hse, hke, hne⟩ := ensureTables_spec hs
  obtain ⟨-, hstart⟩ := t.ensureTables.currentBlockRange_spec
  generalize t.ensureTables = u at *
  dsimp only at h
  generalize u.currentBlockRange.1 + u.currentBlockRange.2 = endAbs at *
  obtain ⟨r, hr, h⟩ := Option.bind_eq_some_iff.mp h
  obtain ⟨hsr, hfr, -⟩ := backfillBoundaryPositions_spec hse hr
  suffices hgoal : Sound t' ∧ SameFrame r t' by
    have hf := hfr.trans hgoal.2
    exact ⟨hgoal.1, hke.toSameFrame.trans hf, hf.nonempty hne⟩
  split at h
  · apply btInsertSparse_spec hsr _ h
    rw [hfr.floor]
    exact Nat.le_trans hstart (Nat.le_max_left _ _)
  · obtain ⟨hs', hf, -⟩ := btUpdateTreeUntil_spec hsr h
    exact ⟨hs', hf⟩

theorem skipMatchingDictBt_spec (hs : Sound t) :
    Sound t.skipMatchingDictBt ∧ SameFrame t t.skipMatchingDictBt ∧
      t.skipMatchingDictBt.tables ≠ [] := by
  obtain ⟨hs', hk, hne⟩ := ensureTables_spec hs
  have hc := (setSkipInsertUntilAbs_keeps t.ensureTables
    (max t.ensureTables.skipInsertUntilAbs (t.ensureTables.floor + t.ensureTables.window.windowSize))).trans
    (setNextToUpdate3_keeps _ (max t.ensureTables.nextToUpdate3
      (t.ensureTables.floor + t.ensureTables.window.windowSize)))
  exact ⟨(hs'.setSkipInsertUntilAbs _).setNextToUpdate3 _, hk.toSameFrame.trans hc.toSameFrame,
    hc.nonempty hne⟩

theorem skipLongMatch_spec (hs : Sound t) :
    Sound t.skipLongMatch ∧ SameFrame t t.skipLongMatch := by
  obtain ⟨hs', hk, -⟩ := ensureTables_spec hs
  unfold skipLongMatch
  dsimp only
  obtain ⟨hl, hk'⟩ := applyLimitedUpdate_spec hs'
    (t.ensureTables.currentBlockRange.1 + t.ensureTables.currentBlockRange.2)
  exact ⟨hl.setNextToUpdate3 _, (hk.trans (hk'.trans (setNextToUpdate3_keeps _ _))).toSameFrame⟩

/-- Every position of the window converts to a stored index. -/
def Armed (t : MatchTable) : Prop :=
  ∀ x, x < t.window.historyAbsEnd → t.canSkipRebaseCheck x = true

theorem Armed.keeps (h : Armed t) (hk : Keeps t t') : Armed t' := by
  intro x hx
  rw [hk.canSkip]
  exact h x (hk.window ▸ hx)

end MatchTable

theorem TreeWalk.le_improve (w : TreeWalk) (q : TreeSearch) (len : Nat) :
    w.matchEndAbs ≤ (w.improve q len).matchEndAbs := by
  unfold improve
  split
  · exact Nat.le_max_left _ _
  · exact Nat.le_refl _

theorem TreeSearch.le_descend (q : TreeSearch) (compares : Nat) (w : TreeWalk) :
    w.matchEndAbs ≤ (q.descend compares w).matchEndAbs := by
  induction compares generalizing w with
  | zero => exact Nat.le_refl _
  | succ compares ih =>
    rw [descend]
    split
    · exact Nat.le_refl _
    · dsimp only
      generalize q.matchLen w.matchStored (min w.commonLengthSmaller w.commonLengthLarger) = len
      have hle := TreeWalk.le_improve { w with comparesLeft := compares } q len
      generalize ({ w with comparesLeft := compares } : TreeWalk).improve q len = v at *
      split
      · exact hle
      · split
        · exact hle
        · split
          · split
            · exact hle
            · have hnext := fun x : TreeWalk => Nat.le_trans hle (ih { x with matchEndAbs := v.matchEndAbs })
              exact hnext ⟨_, _, _, _, _, _, _, 0, _, _⟩
          · split
            · exact hle
            · have hnext := fun x : TreeWalk => Nat.le_trans hle (ih { x with matchEndAbs := v.matchEndAbs })
              exact hnext ⟨_, _, _, _, _, _, _, 0, _, _⟩

namespace MatchTable

variable {t t' : MatchTable} {p : Nat}

theorem le_dmsSearch (t : MatchTable) (dms : DmsDictTables) (absPos tail compares : Nat)
    (dcur smaller larger : Nat) (l : Ladder) (matchEnd : Nat) :
    matchEnd ≤ (t.dmsSearch dms absPos tail compares dcur smaller larger l matchEnd).2 := by
  induction compares generalizing dcur smaller larger l matchEnd with
  | zero => exact Nat.le_refl _
  | succ compares ih =>
    rw [dmsSearch]
    split
    · exact Nat.le_refl _
    · dsimp only
      have hup : ∀ (b : Bool) (x : Nat), matchEnd ≤ if b then max matchEnd x else matchEnd := by
        intro b x
        cases b with
        | true => exact Nat.le_max_left _ _
        | false => exact Nat.le_refl _
      split
      · exact hup _ _
      · split
        · exact hup _ _
        · split
          · exact Nat.le_trans (hup _ _) (ih _ _ _ _ _)
          · exact Nat.le_trans (hup _ _) (ih _ _ _ _ _)

theorem collectTrees_spec (st : OptimalStrategy) (endAbs : Nat) (l : Ladder) (hs : Sound t)
    (ha : Armed t) (hf : t.floor ≤ p) (hp : p + 8 ≤ t.window.historyAbsEnd) :
    Sound (t.collectTrees st p endAbs l).1 ∧ Keeps t (t.collectTrees st p endAbs l).1 ∧
      t.floor ≤ (t.collectTrees st p endAbs l).1.skipInsertUntilAbs := by
  have hplant : ∀ q hash best compares, Sound (t.plant q hash p best compares).1 :=
    fun q hash best compares => hs.plant hf (ha p (by omega)) (by omega)
  have hend : ∀ q hash best compares, p + 9 ≤ (t.plant q hash p best compares).2.matchEndAbs := by
    intro q hash best compares
    have hle := q.le_descend compares { t.startWalk hash p best compares with
      tables := (t.write hash p (t.storedArmed p)).tables }
    exact hle
  unfold collectTrees
  dsimp only
  refine ⟨(hplant _ _ _ _).setSkipInsertUntilAbs _,
    (t.plant_keeps _ _ _ _ _).trans (setSkipInsertUntilAbs_keeps _ _), ?_⟩
  change t.floor ≤ _ - 8
  split
  · exact Nat.le_sub_of_add_le (Nat.le_trans (by omega) (hend _ _ _ _))
  · refine Nat.le_sub_of_add_le (Nat.le_trans ?_ (t.le_dmsSearch _ _ _ _ _ _ _ _ _))
    exact Nat.le_trans (by omega) (hend _ _ _ _)

theorem catchUpHash3_spec (hs : Sound t) (ha : Armed t) (hp : p < t.window.historyAbsEnd)
    (h : t.catchUpHash3 p = some t') : Sound t' ∧ Keeps t t' := by
  unfold catchUpHash3 at h
  split at h
  · rename_i hn
    cases h
    by_cases hlt : t.nextToUpdate3 < p
    · obtain ⟨hs', hk⟩ := fillHash3_spec hs t.nextToUpdate3 (p - t.nextToUpdate3) hn (by omega)
        (fun x hx => ha x (by omega))
      exact ⟨hs'.setNextToUpdate3 _, hk.trans (setNextToUpdate3_keeps _ _)⟩
    · rw [Nat.sub_eq_zero_of_le (by omega)]
      exact ⟨hs.setNextToUpdate3 _, t.setNextToUpdate3_keeps _⟩
  · obtain ⟨hs', -, hk⟩ := updateHash3Until_spec hs h
    exact ⟨hs', hk (ha p hp)⟩

theorem btInsertAndCollectMatches_spec {st : OptimalStrategy} {q : Search} {endAbs : Nat}
    {out : List MatchCandidate} (hs : Sound t) (ha : Armed t) (hf : t.floor ≤ q.absPos)
    (hp : q.absPos + 8 ≤ t.window.historyAbsEnd) (hskip : t.floor ≤ t.skipInsertUntilAbs)
    (h : t.btInsertAndCollectMatches st q endAbs = some (t', out)) :
    Sound t' ∧ Keeps t t' ∧ t.floor ≤ t'.skipInsertUntilAbs := by
  unfold btInsertAndCollectMatches at h
  dsimp only at h
  split at h
  · cases h
    exact ⟨hs, Keeps.refl _, hskip⟩
  · split at h
    · obtain ⟨r, hr, h⟩ := Option.map_eq_some_iff.mp h
      obtain ⟨hsr, hkr⟩ := catchUpHash3_spec hs ha (by omega) hr
      have htrees : ∀ l, Sound (r.collectTrees st q.absPos endAbs l).1 ∧
          Keeps t (r.collectTrees st q.absPos endAbs l).1 ∧
          t.floor ≤ (r.collectTrees st q.absPos endAbs l).1.skipInsertUntilAbs := by
        intro l
        obtain ⟨h1, h2, h3⟩ := collectTrees_spec st endAbs l hsr (ha.keeps hkr)
          (hkr.floor ▸ hf) (by rw [hkr.window]; exact hp)
        exact ⟨h1, hkr.trans h2, hkr.floor ▸ h3⟩
      split at h
      · cases h
        exact htrees _
      · split at h
        · cases h
          refine ⟨hsr.setSkipInsertUntilAbs _, hkr.trans (setSkipInsertUntilAbs_keeps _ _), ?_⟩
          change t.floor ≤ q.absPos + 1
          omega
        · cases h
          exact htrees _
    · cases h
      exact collectTrees_spec st _ _ hs ha hf hp

/-- One search of an armed block indexes positions and nothing else. -/
theorem collectOptimalCandidates_spec {st : OptimalStrategy} {q : Search} {endAbs : Nat}
    {out : List MatchCandidate} (hs : Sound t) (ha : Armed t)
    (hskip : t.floor ≤ t.skipInsertUntilAbs)
    (h : t.collectOptimalCandidates st q endAbs = some (t', out)) :
    Sound t' ∧ Keeps t t' ∧ t.floor ≤ t'.skipInsertUntilAbs := by
  unfold collectOptimalCandidates at h
  split at h
  · cases h
  · rename_i hrange
    split at h
    · cases h
      exact ⟨hs, Keeps.refl _, hskip⟩
    · obtain ⟨hsr, hkr⟩ := @btInsertRange_spec t t.skipInsertUntilAbs q.absPos hs endAbs q.absPos
        hskip (fun x _ _ hx => ha x (by omega))
      generalize (t.btInsertRange t.skipInsertUntilAbs q.absPos endAbs q.absPos).1 = r at *
      dsimp only at h
      have hk := hkr.trans (r.setSkipInsertUntilAbs_keeps q.absPos)
      have hs' := hsr.setSkipInsertUntilAbs q.absPos
      have hq : t.floor ≤ (r.setSkipInsertUntilAbs q.absPos).skipInsertUntilAbs := by
        change t.floor ≤ q.absPos
        omega
      generalize r.setSkipInsertUntilAbs q.absPos = u at *
      split at h
      · cases h
        exact ⟨hs', hk, hq⟩
      · rename_i hlen
        have he := u.historyAbsEnd_eq
        have hfl := hk.floor
        obtain ⟨h1, h2, h3⟩ := btInsertAndCollectMatches_spec hs' (ha.keeps hk) (by omega)
          (by omega) (by omega) h
        exact ⟨h1, hk.trans h2, hfl ▸ h3⟩

theorem searchAll_spec {st : OptimalStrategy} {endAbs : Nat} {searches : List Search}
    (hs : Sound t) (ha : Armed t) (hskip : t.floor ≤ t.skipInsertUntilAbs)
    (h : t.searchAll st endAbs searches = some t') : Sound t' ∧ Keeps t t' := by
  induction searches generalizing t with
  | nil =>
    cases h
    exact ⟨hs, Keeps.refl _⟩
  | cons q rest ih =>
    rw [searchAll, Option.bind_eq_some_iff] at h
    obtain ⟨⟨r, out⟩, hr, h⟩ := h
    obtain ⟨hsr, hkr, hf⟩ := collectOptimalCandidates_spec hs ha hskip hr
    obtain ⟨hs', hk⟩ := ih hsr (ha.keeps hkr) (hkr.floor ▸ hf) h
    exact ⟨hs', hkr.trans hk⟩

theorem optimalBlock_spec {st : OptimalStrategy} {endAbs : Nat} {searches : List Search}
    (hs : Sound t) (ha : Armed t) (h : t.optimalBlock st endAbs searches = some t') :
    Sound t' ∧ Keeps t t' := by
  unfold optimalBlock at h
  have hk := t.setSkipInsertUntilAbs_keeps (max t.skipInsertUntilAbs t.floor)
  obtain ⟨hs', hk'⟩ := searchAll_spec (hs.setSkipInsertUntilAbs _) (ha.keeps hk)
    (Nat.le_max_right _ _) h
  exact ⟨hs', hk.trans hk'⟩

/-- With the shift past the end of the block, no slot written before decodes to anything. -/
theorem Sound.shiftPast {startAbs len : Nat} (hs : Sound t)
    (hend : startAbs + len = t.window.historyAbsEnd) : Sound (t.shiftPast startAbs len) where
  base_le := Nat.le_refl _
  fresh v hv := by
    intro x hx
    obtain ⟨hb, he⟩ := storedAbsPositionFast_eq_some.mp hx
    have he' : v = x - t.floor + (startAbs - t.positionBase + len + t.indexShift) + 1 := he
    have hbase := hs.base_le
    have hfl : t.floor ≤ t.window.historyAbsEnd := Nat.le_add_right _ _
    have hdec : t.decode v = some (t.positionBase + (v - 1 - t.indexShift)) :=
      storedAbsPositionFast_eq_some.mpr ⟨by omega, by omega⟩
    have hlt := (hs.fresh v hv _ hdec).1
    omega
  exact := hs.exact
  windowSize_le := hs.windowSize_le
  maxWindowSize_le := hs.maxWindowSize_le

theorem runBtultra2SeedPass_spec {st : OptimalStrategy} {startAbs len : Nat}
    {searches : List Search} (hs : Sound t) (ha : Armed t)
    (hend : startAbs + len = t.window.historyAbsEnd)
    (h : t.runBtultra2SeedPass st startAbs len searches = some t') :
    Sound t' ∧ SameFrame t t' := by
  unfold runBtultra2SeedPass at h
  obtain ⟨r, hr, rfl⟩ := Option.map_eq_some_iff.mp h
  obtain ⟨hsr, hkr⟩ := optimalBlock_spec hs ha hr
  have hshift : SameFrame r (r.shiftPast startAbs len) := ⟨rfl, id, rfl, rfl, rfl, rfl⟩
  refine ⟨((hsr.shiftPast (by rw [hkr.window]; exact hend)).setNextToUpdate3 _).setSkipInsertUntilAbs _,
    hkr.toSameFrame.trans (hshift.trans ?_)⟩
  exact ((setNextToUpdate3_keeps _ _).trans (setSkipInsertUntilAbs_keeps _ _)).toSameFrame

/-- A block parsed, in one pass or two, indexes positions and nothing else. -/
theorem startMatchingOptimal_spec {st : OptimalStrategy} {seed : Option (List Search)}
    {searches : List Search} (hs : Sound t)
    (h : t.startMatchingOptimal st seed searches = some t') : Sound t' ∧ SameFrame t t' := by
  unfold startMatchingOptimal at h
  obtain ⟨hse, hke, -⟩ := ensureTables_spec hs
  obtain ⟨hrange, hstart⟩ := t.ensureTables.currentBlockRange_spec
  generalize t.ensureTables = u at *
  dsimp only at h
  generalize u.currentBlockRange.1 = startAbs at *
  generalize u.currentBlockRange.2 = len at *
  split at h
  · cases h
    exact ⟨hse, hke.toSameFrame⟩
  · rename_i hlen
    rw [hrange] at h
    obtain ⟨a, ha, h⟩ := Option.bind_eq_some_iff.mp h
    obtain ⟨hsa, hfa, harm⟩ := armBlockPositions_spec hse (by omega) ha
    have harma : Armed a := fun x hx => harm x (hfa.window ▸ hx)
    obtain ⟨hsl, hkl⟩ := applyLimitedUpdate_spec hsa startAbs
    generalize a.applyLimitedUpdateAfterLongMatch startAbs = b at *
    obtain ⟨c, hc, h⟩ := Option.bind_eq_some_iff.mp h
    obtain ⟨hsc, -, hkc⟩ := backfillBoundaryPositions_spec hsl hc
    have hskip : b.canSkipRebaseCheck startAbs = true := by
      rw [hkl.canSkip]
      exact harm startAbs (by omega)
    have hk := (hkl.trans (hkc hskip)).trans
      (c.setNextToUpdate3_keeps (max b.skipInsertUntilAbs b.floor))
    have hsd := hsc.setNextToUpdate3 (max b.skipInsertUntilAbs b.floor)
    generalize c.setNextToUpdate3 (max b.skipInsertUntilAbs b.floor) = d at *
    have hf : SameFrame t d := hke.toSameFrame.trans (hfa.trans hk.toSameFrame)
    have hend : d.window.historyAbsEnd = u.window.historyAbsEnd := by
      rw [hk.window, hfa.window]
    cases seed with
    | none =>
      obtain ⟨hs', hk'⟩ := optimalBlock_spec hsd (harma.keeps hk) h
      exact ⟨hs', hf.trans hk'.toSameFrame⟩
    | some seeds =>
      dsimp only at h
      split at h
      · cases h
      · obtain ⟨e, he, h⟩ := Option.bind_eq_some_iff.mp h
        obtain ⟨hse', hfe⟩ := runBtultra2SeedPass_spec hsd (harma.keeps hk)
          (by rw [hend]; exact hrange) he
        obtain ⟨g, hg, h⟩ := Option.bind_eq_some_iff.mp h
        have hwe : e.window = u.window := by rw [hfe.window, hk.window, hfa.window]
        rw [← hwe] at hg
        have hfl : e.floor = u.floor := by rw [hfe.floor, hk.floor, hfa.floor]
        obtain ⟨hsg, hfg, harm'⟩ := armBlockPositions_spec hse' (by rw [hfl, hwe]; omega) hg
        obtain ⟨hs', hk'⟩ := optimalBlock_spec hsg (fun x hx => harm' x (hfg.window ▸ hx)) h
        exact ⟨hs', hf.trans (hfe.trans (hfg.trans hk'.toSameFrame))⟩

end MatchTable

end Encoding
