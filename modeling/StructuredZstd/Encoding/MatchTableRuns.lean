import Mathlib.Data.List.Infix
import StructuredZstd.Encoding.OptimalSearchSpec

namespace Encoding

namespace ChunkWindow

variable {w w' : ChunkWindow} {len : Nat}

theorem fillUncommitted_spec {bytes : List UInt8} (h : w.fillUncommitted bytes = some w') :
    w'.live = w.live ∧ w'.uncommitted = w.uncommitted ++ bytes ∧
      w'.historyAbsStart = w.historyAbsStart ∧ w'.windowSize = w.windowSize ∧
      w'.maxWindowSize = w.maxWindowSize ∧ w'.historyStart = w.historyStart := by
  have hl := w.length_eq
  unfold fillUncommitted at h
  split at h
  · cases h
    refine ⟨?_, ?_, rfl, rfl, rfl, rfl⟩
    · have hd : w.historyStart ≤ w.history.length := by omega
      simp only [live]
      rw [List.drop_append_of_le_length hd, List.take_append_of_le_length]
      rw [List.length_drop]
      omega
    · rw [uncommitted_eq, uncommitted_eq]
      simp only
      rw [List.drop_append_of_le_length (by omega)]
  · cases h

theorem commitBlock_cases (h : w.commitBlock len = some w') :
    len = 0 ∧ w' = w ∨ len ≠ 0 ∧ ∃ n, Commits w w' n len ∧
      w'.historyAbsStart = w.historyAbsStart + n ∧ w'.windowSize ≤ w.maxWindowSize ∧
      (w.windowSize + len ≤ w.maxWindowSize → n = 0) := by
  unfold commitBlock at h
  split at h
  · rename_i h0
    cases h
    exact .inl ⟨h0, rfl⟩
  · rename_i h0
    split at h
    · cases h
    · rename_i hle
      obtain ⟨v, front, hv, -, hd, hfit, ha, -⟩ := w.evict_spec (by omega : len ≤ w.maxWindowSize)
      rw [hv] at h
      obtain ⟨u, hu, hc, -, ha'⟩ := @compact_claim_spec v len (by
        rw [hd.uncommittedLen]
        omega)
      have huw : u = w' := Option.some.inj (hu.symm.trans h)
      subst huw
      have hs := hc.windowSize
      refine .inr ⟨h0, front.sum, hd.commits hc, by rw [ha', ha], by omega, ?_⟩
      intro hroom
      rw [evict, if_pos hroom] at hv
      cases hv
      have hd' := hd.windowSize
      omega

theorem trimToWindow_cases (h : w.trimToWindow = some w') :
    ∃ n, Drops w w' n ∧ w'.historyAbsStart = w.historyAbsStart + n := by
  obtain ⟨v, front, hv, -, hd, -, ha, -⟩ := w.evict_spec (Nat.zero_le _)
  have hvw : v = w' := Option.some.inj (hv.symm.trans h)
  subst hvw
  exact ⟨front.sum, hd, ha⟩

theorem uncommitBlock_cases (h : w.uncommitBlock len = some w') :
    w.windowSize = w'.windowSize + len ∧ w'.historyAbsStart = w.historyAbsStart ∧
      w'.maxWindowSize = w.maxWindowSize ∧ w'.live = w.live.take w'.windowSize := by
  unfold uncommitBlock at h
  split at h
  · rename_i hl
    obtain ⟨front, hf⟩ := List.getLast?_eq_some_iff.mp hl
    have hs : w.windowSize = front.sum + len := by simp [w.windowSize_eq, hf]
    cases h
    refine ⟨by simp only; omega, rfl, rfl, ?_⟩
    simp only [live, List.take_take]
    congr 1
    omega
  · cases h

end ChunkWindow

namespace MatchTable

variable {t t' : MatchTable}

/-- A window moved forward: what was under it stays under it. -/
theorem Sound.moveWindow {w : ChunkWindow} (hs : Sound t) (hf : t.floor ≤ w.historyAbsStart)
    (he : t.window.historyAbsEnd ≤ w.historyAbsEnd) (hw : w.windowSize ≤ maxPrimedWindowSize)
    (hm : w.maxWindowSize ≤ maxPrimedWindowSize) : Sound { t with window := w } where
  base_le := Nat.le_trans hs.base_le hf
  fresh v hv := by
    intro p hp
    obtain ⟨hlt, hin⟩ := hs.fresh v hv p hp
    exact ⟨Nat.lt_of_lt_of_le hlt he, fun hfl => hin (Nat.le_trans hf hfl)⟩
  exact := hs.exact
  windowSize_le := hw
  maxWindowSize_le := hm

/-- While its first byte is in the window, an attached dictionary that a window can hold is what
the window starts with. -/
def Pinned (t : MatchTable) : Prop :=
  ∀ limit, t.dictionaryLimitAbs = some limit → t.dms.isSome = true → t.dictionaryActive = true →
    ∃ start, limit = start + t.dictionary.length ∧
      (start < t.floor ∨
        start = t.floor ∧ (t.dictionary.length ≤ maxPrimedWindowSize → t.dictionary <+: t.live))

theorem Pinned.sameFrame (h : Pinned t) (hf : SameFrame t t') : Pinned t' := by
  intro limit hl hd ha
  rw [hf.dictionaryLimitAbs] at hl
  rw [hf.dms] at hd
  rw [hf.dictionaryActive] at ha
  rw [hf.dictionary, floor, live, hf.window]
  exact h limit hl hd ha

theorem Pinned.moveWindow {w : ChunkWindow} (h : Pinned t) (hf : t.floor ≤ w.historyAbsStart)
    (hl : w.historyAbsStart = t.floor → t.live <+: w.live) : Pinned { t with window := w } := by
  intro limit hlim hd ha
  obtain ⟨start, hs, hor⟩ := h limit hlim hd ha
  refine ⟨start, hs, ?_⟩
  rcases Nat.lt_or_eq_of_le hf with hlt | heq
  · rcases hor with hor | ⟨hor, -⟩
    · exact .inl (Nat.lt_trans hor hlt)
    · exact .inl (hor ▸ hlt)
  · rcases hor with hor | ⟨hor, hp⟩
    · exact .inl (Nat.lt_of_lt_of_le hor hf)
    · exact .inr ⟨hor.trans heq, fun hle => (hp hle).trans (hl heq.symm)⟩

structure Good (t : MatchTable) : Prop where
  sound : Sound t
  pinned : Pinned t

theorem Good.sameFrame (h : Good t) (hs : Sound t') (hf : SameFrame t t') : Good t' :=
  ⟨hs, h.pinned.sameFrame hf⟩

theorem Good.moveWindow {w : ChunkWindow} (h : Good t) (hf : t.floor ≤ w.historyAbsStart)
    (he : t.window.historyAbsEnd ≤ w.historyAbsEnd) (hw : w.windowSize ≤ maxPrimedWindowSize)
    (hm : w.maxWindowSize ≤ maxPrimedWindowSize)
    (hl : w.historyAbsStart = t.floor → t.live <+: w.live) : Good { t with window := w } :=
  ⟨h.sound.moveWindow hf he hw hm, h.pinned.moveWindow hf hl⟩

theorem Good.setNextToUpdate3 (h : Good t) (next : Nat) : Good (t.setNextToUpdate3 next) :=
  h.sameFrame (h.sound.setNextToUpdate3 next) (t.setNextToUpdate3_keeps next).toSameFrame

theorem Good.fillUncommitted {bytes : List UInt8} (h : Good t)
    (hf : t.fillUncommitted bytes = some t') : Good t' := by
  obtain ⟨w, hw, rfl⟩ := Option.map_eq_some_iff.mp hf
  obtain ⟨hl, -, ha, hs, hm, -⟩ := ChunkWindow.fillUncommitted_spec hw
  apply h.moveWindow
  · exact Nat.le_of_eq ha.symm
  · rw [ChunkWindow.historyAbsEnd, ChunkWindow.historyAbsEnd, ha, hs]
  · exact hs ▸ h.sound.windowSize_le
  · exact hm ▸ h.sound.maxWindowSize_le
  · intro _
    rw [hl]

/-- The window a commit leaves: it ends `len` bytes later, and starts where it did or later. -/
theorem commitBlock_moves {len : Nat} {w : ChunkWindow} (hs : Sound t)
    (hw : t.window.commitBlock len = some w) :
    t.floor ≤ w.historyAbsStart ∧ w.historyAbsEnd = t.window.historyAbsEnd + len ∧
      w.windowSize ≤ maxPrimedWindowSize ∧ w.maxWindowSize = t.window.maxWindowSize ∧
      (w.historyAbsStart = t.floor → w.live = t.live ++ t.window.uncommitted.take len) := by
  have hmax := hs.maxWindowSize_le
  rcases ChunkWindow.commitBlock_cases hw with ⟨rfl, rfl⟩ | ⟨-, n, hc, ha, hle, -⟩
  · exact ⟨Nat.le_refl _, rfl, hs.windowSize_le, rfl, fun _ => by simp⟩
  · have hsz := hc.windowSize
    have hn := hc.le
    refine ⟨by rw [ha]; exact Nat.le_add_right _ _, ?_, Nat.le_trans hle hmax, hc.maxWindowSize, ?_⟩
    · rw [ChunkWindow.historyAbsEnd, ChunkWindow.historyAbsEnd, ha, hsz]
      omega
    · intro heq
      have hn0 : n = 0 := by
        rw [ha] at heq
        exact Nat.add_eq_left.mp heq
      rw [hc.live, hn0, List.drop_zero]

theorem commitBlock_eq {len : Nat} (h : t.commitBlock len = some t') :
    ∃ w next, t.window.commitBlock len = some w ∧
      t' = ({ t with window := w } : MatchTable).setNextToUpdate3 next := by
  obtain ⟨w, hw, rfl⟩ := Option.map_eq_some_iff.mp h
  split
  · rename_i h0
    have hwt : w = t.window := by
      rw [ChunkWindow.commitBlock, if_pos h0] at hw
      exact (Option.some.inj hw).symm
    exact ⟨w, t.nextToUpdate3, hw, by rw [hwt]; rfl⟩
  · exact ⟨w, _, hw, rfl⟩

theorem Good.commitBlock {len : Nat} (h : Good t) (hc : t.commitBlock len = some t') : Good t' := by
  obtain ⟨w, next, hw, rfl⟩ := commitBlock_eq hc
  obtain ⟨hf, he, hsz, hm, hl⟩ := commitBlock_moves h.sound hw
  refine (h.moveWindow hf (by omega) hsz (hm ▸ h.sound.maxWindowSize_le) ?_).setNextToUpdate3 next
  intro heq
  rw [hl heq]
  exact List.prefix_append _ _

/-- The window after its limit is lowered: nothing is added, and whole blocks may go. -/
theorem shrinkWindow_moves {size : Nat} (h : t.shrinkWindow size = some t') :
    ∃ w n, t' = { t with window := w } ∧ w.historyAbsStart = t.floor + n ∧
      t.window.windowSize = n + w.windowSize ∧ w.live = t.live.drop n ∧
      w.maxWindowSize ≤ t.window.maxWindowSize := by
  unfold shrinkWindow at h
  split at h
  · cases h
  · rename_i hle
    obtain ⟨w, hw, rfl⟩ := Option.map_eq_some_iff.mp h
    obtain ⟨n, hd, ha⟩ := ChunkWindow.trimToWindow_cases hw
    refine ⟨w, n, rfl, ha, hd.windowSize, hd.live, ?_⟩
    rw [hd.maxWindowSize]
    exact Nat.le_of_not_lt hle

theorem Good.shrinkWindow {size : Nat} (h : Good t) (hc : t.shrinkWindow size = some t') :
    Good t' := by
  obtain ⟨w, n, rfl, ha, hsz, hl, hm⟩ := shrinkWindow_moves hc
  have hw := h.sound.windowSize_le
  apply h.moveWindow
  · omega
  · rw [ChunkWindow.historyAbsEnd, ChunkWindow.historyAbsEnd, ha, hsz]
    simp only [floor]
    omega
  · omega
  · exact Nat.le_trans hm h.sound.maxWindowSize_le
  · intro heq
    have hn : n = 0 := by omega
    rw [hl, hn, List.drop_zero]

theorem Good.handBackBlock {len size : Nat} (h : Good t) (hc : t.handBackBlock len size = some t') :
    Good t' := by
  unfold MatchTable.handBackBlock at hc
  obtain ⟨a, ha, hc⟩ := Option.bind_eq_some_iff.mp hc
  obtain ⟨b, hb, hc⟩ := Option.bind_eq_some_iff.mp hc
  obtain ⟨w, hw, rfl⟩ := Option.map_eq_some_iff.mp hc
  obtain ⟨wa, next, hwa, rfl⟩ := commitBlock_eq ha
  obtain ⟨hf, he, hsz, hm, hl⟩ := commitBlock_moves h.sound hwa
  obtain ⟨wb, n, rfl, hab, hszb, hlb, hmb⟩ := shrinkWindow_moves hb
  obtain ⟨hu, hau, hmu, hlu⟩ := ChunkWindow.uncommitBlock_cases hw
  change wb.historyAbsStart = wa.historyAbsStart + n at hab
  change wa.windowSize = n + wb.windowSize at hszb
  change wb.live = wa.live.drop n at hlb
  change wb.maxWindowSize ≤ wa.maxWindowSize at hmb
  change wb.windowSize = w.windowSize + len at hu
  change w.historyAbsStart = wb.historyAbsStart at hau
  change w.maxWindowSize = wb.maxWindowSize at hmu
  change w.live = wb.live.take w.windowSize at hlu
  have hmax := h.sound.maxWindowSize_le
  have hgood : Good { t with window := w } := by
    apply h.moveWindow
    · omega
    · simp only [ChunkWindow.historyAbsEnd] at he ⊢
      omega
    · omega
    · omega
    · intro heq
      have hn : n = 0 := by omega
      have hlive := hl (by omega)
      have hsize : w.windowSize = t.window.windowSize := by
        simp only [ChunkWindow.historyAbsEnd, floor] at *
        omega
      rw [hlu, hlb, hn, List.drop_zero, hlive, hsize]
      rw [List.take_append_of_le_length (by rw [ChunkWindow.length_live])]
      rw [List.take_of_length_le (by rw [ChunkWindow.length_live])]
  exact hgood.setNextToUpdate3 next

theorem Good.startMatchingOptimal {st : OptimalStrategy} {seed : Option (List Search)}
    {searches : List Search} (h : Good t)
    (hc : t.startMatchingOptimal st seed searches = some t') : Good t' :=
  h.sameFrame (startMatchingOptimal_spec h.sound hc).1 (startMatchingOptimal_spec h.sound hc).2

theorem Good.skipMatching {hint : Option Bool} (h : Good t) (hc : t.skipMatching hint = some t') :
    Good t' :=
  h.sameFrame (skipMatching_spec h.sound hc).1 (skipMatching_spec h.sound hc).2.1

theorem Good.skipLongMatch (h : Good t) : Good t.skipLongMatch :=
  h.sameFrame (skipLongMatch_spec h.sound).1 (skipLongMatch_spec h.sound).2

/-- New tables, empty, under an unchanged window and encoding. -/
theorem Sound.replaceTables {tables : List Nat} (hs : Sound t) (chainOff hash3Off : Nat)
    (h : ∀ v ∈ tables, v = hcEmpty) :
    Sound { t with tables := tables, chainOff := chainOff, hash3Off := hash3Off } where
  base_le := hs.base_le
  fresh v hv := by
    rw [h v hv]
    exact fresh_empty _
  exact := hs.exact
  windowSize_le := hs.windowSize_le
  maxWindowSize_le := hs.maxWindowSize_le

theorem Sound.setMaxWindowSize {size : Nat} (hs : Sound t) (hle : size ≤ maxPrimedWindowSize) :
    Sound { t with window := t.window.setMaxWindowSize size } :=
  hs.moveWindow (Nat.le_refl _) (Nat.le_refl _) hs.windowSize_le hle

theorem Good.setMaxWindowSize {size : Nat} (h : Good t) (hle : size ≤ maxPrimedWindowSize) :
    Good { t with window := t.window.setMaxWindowSize size } :=
  ⟨h.sound.setMaxWindowSize hle, h.pinned.moveWindow (Nat.le_refl _) fun _ => List.prefix_rfl⟩

theorem Good.dropTree (h : Good t) : Good { t with dms := none } :=
  ⟨⟨h.sound.base_le, h.sound.fresh, h.sound.exact, h.sound.windowSize_le,
    h.sound.maxWindowSize_le⟩, fun _ _ hd => by cases hd⟩

/-- The widths and depths of a level, which freshness does not read. -/
theorem Good.setWidths (h : Good t) (cfg : HcConfig) :
    Good { t with
      hashLog := cfg.hashLog
      chainLog := cfg.chainLog
      hash3Log := cfg.hash3Log
      searchDepth := cfg.searchDepth
      searchMls := cfg.searchMls } :=
  ⟨⟨h.sound.base_le, h.sound.fresh, h.sound.exact, h.sound.windowSize_le,
    h.sound.maxWindowSize_le⟩, h.pinned⟩

theorem Good.configure (h : Good t) (cfg : HcConfig) : Good (t.configure cfg) := by
  have hd : ∀ b : Bool, Good { t with dms := if b then none else t.dms } := by
    intro b
    cases b with
    | true => exact h.dropTree
    | false => exact h
  have hw := (hd (decide (t.hashLog ≠ cfg.hashLog ∨ t.chainLog ≠ cfg.chainLog ∨
    t.hash3Log ≠ cfg.hash3Log) || decide (t.searchMls ≠ cfg.searchMls))).setWidths cfg
  unfold MatchTable.configure
  dsimp only
  split
  · exact ⟨hw.sound.replaceTables 0 0 (by simp), hw.pinned⟩
  · exact hw

theorem Good.bindTables (h : Good t) (continues : Bool) :
    Good (t.bindTables continues) ∧ (t.bindTables continues).tables ≠ [] := by
  have hpos := t.tableSizes_pos
  unfold MatchTable.bindTables
  dsimp only
  split
  · rename_i hk
    simp only [Bool.and_eq_true, decide_eq_true_eq] at hk
    refine ⟨h, ?_⟩
    rw [← List.length_pos_iff, hk.2]
    exact hpos
  · refine ⟨⟨h.sound.replaceTables _ _ ?_, h.pinned⟩, ?_⟩
    · intro v hv
      exact List.eq_of_mem_replicate hv
    · rw [← List.length_pos_iff, List.length_replicate]
      exact hpos

theorem windowLog_le {windowLog : Nat} (h : windowLog ≤ maxWindowLog) :
    1 <<< windowLog ≤ maxPrimedWindowSize := by
  rw [Nat.one_shiftLeft]
  refine Nat.le_trans (Nat.pow_le_pow_right (by omega) h) ?_
  decide

theorem Good.layOut {cfg : HcConfig} (h : Good t) (copies continues : Bool)
    (hw : cfg.windowLog ≤ maxWindowLog) :
    Good (t.layOut cfg copies continues) ∧ (t.layOut cfg copies continues).tables ≠ [] := by
  have hc := (h.setMaxWindowSize (windowLog_le hw)).configure cfg
  unfold MatchTable.layOut
  dsimp only
  apply Good.bindTables
  split
  · exact hc.dropTree
  · exact hc

theorem layOut_window (t : MatchTable) (cfg : HcConfig) (copies continues : Bool) :
    (t.layOut cfg copies continues).live = t.live ∧
      (t.layOut cfg copies continues).dictionary = t.dictionary := by
  have hc : ∀ u : MatchTable, (u.configure cfg).live = u.live ∧
      (u.configure cfg).dictionary = u.dictionary := by
    intro u
    unfold MatchTable.configure
    dsimp only
    split <;> exact ⟨rfl, rfl⟩
  have hb : ∀ u : MatchTable, (u.bindTables continues).live = u.live ∧
      (u.bindTables continues).dictionary = u.dictionary := by
    intro u
    unfold MatchTable.bindTables
    dsimp only
    split <;> exact ⟨rfl, rfl⟩
  unfold MatchTable.layOut
  dsimp only
  split
  · exact ⟨(hb _).1.trans (hc _).1, (hb _).2.trans (hc _).2⟩
  · exact ⟨(hb _).1.trans (hc _).1, (hb _).2.trans (hc _).2⟩

/-- A history that starts at the front of its buffer has an attached dictionary whole, or none
of it. -/
def WholeOrGone (t : MatchTable) : Prop :=
  t.dictionaryActive = true → t.dms.isSome = true → t.window.historyStart = 0 →
    ∀ limit ∈ t.dictionaryLimitAbs, limit = t.floor + t.dictionary.length ∨ limit ≤ t.floor

instance decidableWholeOrGone (t : MatchTable) : Decidable (WholeOrGone t) :=
  inferInstanceAs (Decidable (t.dictionaryActive = true → t.dms.isSome = true →
    t.window.historyStart = 0 →
      ∀ limit ∈ t.dictionaryLimitAbs, limit = t.floor + t.dictionary.length ∨ limit ≤ t.floor))

theorem keptRegion_eq_some {region : Nat} (h : t.keptRegion = some region) :
    t.dictionaryActive = true ∧ t.dms.isSome = true ∧ t.window.historyStart = 0 ∧
      t.dictionaryLimitAbs = some (t.floor + region) ∧ 0 < region ∧
      region ≤ t.window.windowSize := by
  unfold keptRegion at h
  split at h
  · rename_i hc
    simp only [Bool.and_eq_true, decide_eq_true_eq] at hc
    rw [Option.filter_eq_some_iff, Option.bind_eq_some_iff] at h
    obtain ⟨⟨limit, hl, hr⟩, hp⟩ := h
    simp only [decide_eq_true_eq] at hp
    split at hr
    · cases hr
      refine ⟨hc.1.1, hc.1.2, hc.2, ?_, hp.1, by omega⟩
      rw [hl]
      congr 1
      omega
    · cases hr
  · cases h

/-- What a retire keeps is the dictionary, at the front of the history. -/
theorem Good.keptRegion {region : Nat} (h : Good t) (hw : WholeOrGone t)
    (hk : t.keptRegion = some region) :
    region = t.dictionary.length ∧ t.live.take region = t.dictionary := by
  obtain ⟨ha, hd, h0, hl, hpos, hle⟩ := keptRegion_eq_some hk
  obtain ⟨start, hs, hor⟩ := h.pinned _ hl hd ha
  have hsz := h.sound.windowSize_le
  rcases hw ha hd h0 _ hl with hwhole | hgone
  · have hstart : start = t.floor := by omega
    rcases hor with hor | ⟨-, hp⟩
    · omega
    · have hr : region = t.dictionary.length := by omega
      exact ⟨hr, hr ▸ (List.prefix_iff_eq_take.mp (hp (by omega))).symm⟩
  · omega

/-- The table after a reset that keeps the dictionary: the window is the dictionary, at a floor no
slot of the last frame reaches. -/
theorem resetKeeping_spec {region : Nat} (h : Good t) (hs0 : t.window.historyStart = 0)
    (hle : region ≤ t.window.windowSize) (hr : region = t.dictionary.length)
    (hd : t.live.take region = t.dictionary) :
    Good (t.resetKeeping region t.window.historyAbsEnd hs0 hle) ∧
      (t.resetKeeping region t.window.historyAbsEnd hs0 hle).live = t.dictionary ∧
      (t.resetKeeping region t.window.historyAbsEnd hs0 hle).dictionaryLimitAbs =
        some ((t.resetKeeping region t.window.historyAbsEnd hs0 hle).floor + region) ∧
      (t.resetKeeping region t.window.historyAbsEnd hs0 hle).window.historyStart = 0 ∧
      (t.resetKeeping region t.window.historyAbsEnd hs0 hle).dictResident = true := by
  have hwin := h.sound.windowSize_le
  have hmax := h.sound.maxWindowSize_le
  have hlive : ∀ floor, (keepWindow t.window region floor hs0 hle).live = t.dictionary := by
    intro floor
    have htake : t.live.take region = t.window.history.take region := by
      rw [live, ChunkWindow.live, hs0, List.drop_zero, List.take_take, Nat.min_eq_left hle]
    rw [← hd, htake]
    change ((t.window.history.take region).drop 0).take region = _
    rw [List.drop_zero, List.take_take, Nat.min_self]
  have hpre : ∀ floor, t.dictionary <+: (keepWindow t.window region floor hs0 hle).live := by
    intro floor
    rw [hlive]
  unfold resetKeeping
  split
  · refine ⟨⟨⟨?_, ?_, by simp, ?_, ?_⟩, ?_⟩, hlive _, rfl, rfl, rfl⟩
    · exact Nat.le_trans h.sound.base_le (Nat.le_add_right _ _)
    · intro v hv p hp
      have hlt := (h.sound.fresh v hv p hp).1
      refine ⟨Nat.lt_of_lt_of_le hlt (Nat.le_add_right _ _), fun hf => ?_⟩
      exact absurd hlt (Nat.not_lt.mpr hf)
    · exact Nat.le_trans hle hwin
    · simp only [keepWindow]
      omega
    · intro limit hl _ _
      cases hl
      refine ⟨t.window.historyAbsEnd, congrArg (t.window.historyAbsEnd + ·) hr, .inr ⟨rfl, ?_⟩⟩
      exact fun _ => hpre _
  · refine ⟨⟨⟨Nat.le_refl _, fresh_replicate _ _, by simp, ?_, ?_⟩, ?_⟩, hlive _, ?_, rfl, rfl⟩
    · exact Nat.le_trans hle hwin
    · simp only [keepWindow]
      omega
    · intro limit hl _ _
      cases hl
      refine ⟨0, hr.trans (Nat.zero_add _).symm, .inr ⟨rfl, ?_⟩⟩
      exact fun _ => hpre _
    · simp [keepWindow]

/-- A reset that keeps no dictionary: once the tables are clear the frame starts sound, and they
have to be cleared only where the dictionary was active. -/
theorem resetPlain_spec (hs : Sound t) :
    Sound (t.resetPlain t.window.historyAbsEnd).clearTables ∧
      ((t.dictionaryActive = false ∨ ∀ v ∈ t.tables, v = hcEmpty) →
        Sound (t.resetPlain t.window.historyAbsEnd)) := by
  have hmax := hs.maxWindowSize_le
  have hsound : ∀ {u : MatchTable} {floor : Nat},
      u.window = ChunkWindow.empty floor t.window.maxWindowSize → u.positionBase ≤ floor →
      u.inserted = [] → (∀ v ∈ u.tables, u.Fresh v) → Sound u := by
    intro u floor hw hb hi hf
    refine ⟨?_, hf, ?_, ?_, ?_⟩
    · rw [MatchTable.floor, hw]
      exact hb
    · rw [hi]
      simp
    · rw [hw]
      exact Nat.zero_le _
    · rw [hw]
      exact hmax
  unfold resetPlain
  dsimp only
  split
  · rename_i ha
    refine ⟨hsound rfl (Nat.zero_le 0) rfl (fresh_replicate _ _), ?_⟩
    rintro (hoff | hempty)
    · rw [ha] at hoff
      cases hoff
    · refine hsound rfl (Nat.zero_le 0) rfl ?_
      intro v hv
      rw [hempty v hv]
      exact fresh_empty _
  · split
    · have hb : t.positionBase ≤ t.window.historyAbsEnd :=
        Nat.le_trans hs.base_le (Nat.le_add_right _ _)
      refine ⟨hsound rfl hb rfl (fresh_replicate _ _), fun _ => hsound rfl hb rfl ?_⟩
      intro v hv p hp
      have hlt := (hs.fresh v hv p hp).1
      exact ⟨hlt, fun hf => absurd hlt (Nat.not_lt.mpr hf)⟩
    · exact ⟨hsound rfl (Nat.zero_le 0) rfl (fresh_replicate _ _),
        fun _ => hsound rfl (Nat.zero_le 0) rfl (fresh_replicate _ _)⟩

theorem resetPlain_window (t : MatchTable) (nextFloor : Nat) :
    ∃ floor, (t.resetPlain nextFloor).window = ChunkWindow.empty floor t.window.maxWindowSize := by
  unfold resetPlain
  dsimp only
  split
  · exact ⟨0, rfl⟩
  · split
    · exact ⟨nextFloor, rfl⟩
    · exact ⟨0, rfl⟩

theorem resetPlain_rest (t : MatchTable) (nextFloor : Nat) :
    (t.resetPlain nextFloor).dictionaryLimitAbs = none ∧
      (t.resetPlain nextFloor).dictResident = false ∧
      (t.tables ≠ [] → (t.resetPlain nextFloor).tables ≠ []) := by
  unfold resetPlain
  dsimp only
  split
  · exact ⟨rfl, rfl, id⟩
  · split
    · exact ⟨rfl, rfl, id⟩
    · exact ⟨rfl, rfl, by simp⟩

theorem Sound.fillUncommitted {bytes : List UInt8} (hs : Sound t)
    (hf : t.fillUncommitted bytes = some t') : Sound t' := by
  obtain ⟨w, hw, rfl⟩ := Option.map_eq_some_iff.mp hf
  obtain ⟨-, -, ha, hsz, hm, -⟩ := ChunkWindow.fillUncommitted_spec hw
  apply hs.moveWindow
  · exact Nat.le_of_eq ha.symm
  · rw [ChunkWindow.historyAbsEnd, ChunkWindow.historyAbsEnd, ha, hsz]
  · exact hsz ▸ hs.windowSize_le
  · exact hm ▸ hs.maxWindowSize_le

theorem Sound.commitBlock {len : Nat} (hs : Sound t) (hc : t.commitBlock len = some t') :
    Sound t' := by
  obtain ⟨w, next, hw, rfl⟩ := commitBlock_eq hc
  obtain ⟨hf, he, hsz, hm, -⟩ := commitBlock_moves hs hw
  exact (hs.moveWindow hf (by omega) hsz (hm ▸ hs.maxWindowSize_le)).setNextToUpdate3 next

theorem primeSlice_spec {attach : Bool} {chunk : List UInt8} (hs : Sound t)
    (h : t.primeSlice attach chunk = some t') :
    Sound t' ∧ t'.tables ≠ [] ∧ t'.window.maxWindowSize = t.window.maxWindowSize ∧
      (t.window.uncommitted = [] → t.window.windowSize + chunk.length ≤ t.window.maxWindowSize →
        t'.floor = t.floor ∧ t'.live = t.live ++ chunk ∧ t'.window.uncommitted = []) := by
  unfold primeSlice at h
  obtain ⟨a, ha, h⟩ := Option.bind_eq_some_iff.mp h
  obtain ⟨b, hb, h⟩ := Option.bind_eq_some_iff.mp h
  have hsa := hs.fillUncommitted ha
  have hsb := hsa.commitBlock hb
  obtain ⟨wa, hwa, rfl⟩ := Option.map_eq_some_iff.mp ha
  obtain ⟨hla, hua, haa, hsza, hma, -⟩ := ChunkWindow.fillUncommitted_spec hwa
  obtain ⟨wb, next, hwb, rfl⟩ := commitBlock_eq hb
  have hwin : wb.maxWindowSize = t.window.maxWindowSize ∧ (t.window.uncommitted = [] →
      t.window.windowSize + chunk.length ≤ t.window.maxWindowSize →
      wb.historyAbsStart = t.floor ∧ wb.live = t.live ++ chunk ∧ wb.uncommitted = []) := by
    change wa.commitBlock chunk.length = some wb at hwb
    rcases ChunkWindow.commitBlock_cases hwb with ⟨h0, rfl⟩ | ⟨-, n, hc, habs, -, hroom⟩
    · have hnil := List.length_eq_zero_iff.mp h0
      refine ⟨hma, fun hu _ => ⟨haa, ?_, ?_⟩⟩
      · rw [hla, hnil, List.append_nil]
      · rw [hua, hu, hnil]
        rfl
    · refine ⟨hc.maxWindowSize.trans hma, ?_⟩
      intro hu hfit
      have hn : n = 0 := hroom (by rw [hsza, hma]; exact hfit)
      refine ⟨by rw [habs, haa, hn]; rfl, ?_, ?_⟩
      · rw [hc.live, hn, List.drop_zero, hla, hua, hu, List.nil_append, List.take_length]
      · rw [hc.uncommitted, hua, hu, List.nil_append, List.drop_length]
  suffices hgoal : Sound t' ∧ t'.tables ≠ [] ∧ t'.window = wb by
    rw [floor, live, hgoal.2.2]
    exact ⟨hgoal.1, hgoal.2.1, hwin.1, hwin.2⟩
  split at h
  · cases h
    obtain ⟨h1, h2, h3⟩ := skipMatchingDictBt_spec hsb
    exact ⟨h1, h3, h2.window⟩
  · obtain ⟨h1, h2, h3⟩ := skipMatching_spec hsb h
    exact ⟨h1, h3, h2.window⟩

/-- With room for it, a dictionary's slices put its bytes behind what the window holds. -/
theorem primeSlices_spec {attach : Bool} {sliceSize : Nat} {rest : List UInt8} (hs : Sound t)
    (hne : t.tables ≠ []) (h : t.primeSlices attach sliceSize rest = some t') :
    Sound t' ∧ t'.tables ≠ [] ∧ t'.window.maxWindowSize = t.window.maxWindowSize ∧
      (t.window.uncommitted = [] → t.window.windowSize + rest.length ≤ t.window.maxWindowSize →
        t'.floor = t.floor ∧ t'.live = t.live ++ rest) := by
  induction hn : rest.length using Nat.strong_induction_on generalizing t rest with
  | _ n ih =>
    rw [primeSlices] at h
    split at h
    · rename_i hnil
      cases h
      refine ⟨hs, hne, rfl, fun _ _ => ⟨rfl, ?_⟩⟩
      rw [hnil, List.append_nil]
    · rename_i hnil
      split at h
      · cases h
      · rename_i len _
        split at h
        · cases h
        · rename_i hlen
          have hpos : 0 < rest.length := List.length_pos_iff.mpr hnil
          rw [minPrimedTail] at hlen
          obtain ⟨a, ha, h⟩ := Option.bind_eq_some_iff.mp h
          obtain ⟨hsa, hnea, hma, hwa⟩ := primeSlice_spec hs ha
          obtain ⟨hs', hne', hm', hw'⟩ := ih (rest.drop len).length
            (by rw [List.length_drop]; omega) hsa hnea h rfl
          refine ⟨hs', hne', hm'.trans hma, ?_⟩
          intro hu hfit
          have hsplit : (rest.take len).length + (rest.drop len).length = n := by
            rw [← List.length_append, List.take_append_drop, hn]
          obtain ⟨hfl, hl, hun⟩ := hwa hu (by omega)
          have hsz : a.window.windowSize = t.window.windowSize + (rest.take len).length := by
            rw [← ChunkWindow.length_live, ← ChunkWindow.length_live, ← List.length_append]
            exact congrArg List.length hl
          obtain ⟨hfl', hl'⟩ := hw' hun (by rw [hsz, hma]; omega)
          refine ⟨hfl'.trans hfl, ?_⟩
          rw [hl', hl, List.append_assoc, List.take_append_drop]

theorem Sound.setDictionaryIndexFloor (hs : Sound t) (floor : Nat) :
    Sound (t.setDictionaryIndexFloor floor) := by
  have h0 : Sound { t with dictIndexFloor := floor } :=
    ⟨hs.base_le, hs.fresh, hs.exact, hs.windowSize_le, hs.maxWindowSize_le⟩
  unfold MatchTable.setDictionaryIndexFloor
  dsimp only
  split
  · exact (h0.setSkipInsertUntilAbs _).setNextToUpdate3 _
  · exact h0

theorem setDictionaryIndexFloor_sameFrame (t : MatchTable) (floor : Nat) :
    SameFrame t (t.setDictionaryIndexFloor floor) := by
  unfold setDictionaryIndexFloor
  dsimp only
  split
  · exact ⟨rfl, id, rfl, rfl, rfl, rfl⟩
  · exact ⟨rfl, id, rfl, rfl, rfl, rfl⟩

theorem primeDmsBt_eq (t : MatchTable) (regionLen : Nat) :
    ∃ dms, t.primeDmsBt regionLen = { t with dms := dms } := by
  unfold primeDmsBt
  dsimp only
  generalize (if 5 ≤ t.searchMls then 8 else 4) = read
  generalize min regionLen t.live.length = region
  split
  · exact ⟨_, rfl⟩
  · split
    · exact ⟨t.dms, rfl⟩
    · exact ⟨_, rfl⟩

/-- A window that holds the dictionary and nothing else, whatever tree stands beside it. -/
theorem Sound.goodPrimed (hs : Sound t)
    (hl : t.dictionary.length ≤ maxPrimedWindowSize → t.live = t.dictionary)
    (dms : Option DmsDictTables) :
    Good { t.setDictionaryLimitFromPrimedBytes t.dictionary.length with dms := dms } := by
  refine ⟨⟨hs.base_le, hs.fresh, hs.exact, hs.windowSize_le, hs.maxWindowSize_le⟩, ?_⟩
  intro limit hlim _ _
  simp only [setDictionaryLimitFromPrimedBytes] at hlim
  split at hlim
  · cases hlim
  · cases hlim
    refine ⟨t.floor, rfl, .inr ⟨rfl, fun hle => ?_⟩⟩
    change t.dictionary <+: t.live
    rw [hl hle]

theorem Good.setDictionaryIndexFloor (h : Good t) (floor : Nat) :
    Good (t.setDictionaryIndexFloor floor) :=
  h.sameFrame (h.sound.setDictionaryIndexFloor floor) (t.setDictionaryIndexFloor_sameFrame floor)

/-- A frame that primes its dictionary starts with clear tables, and with a dictionary that fits in
`MAX_PRIMED_WINDOW_SIZE` whole at the front of the window. -/
theorem primeWithDictionary_spec {content : List UInt8} {reachLog : Nat} {attach : Bool}
    (hs : Sound t.clearTables) (hne : t.tables ≠ []) (hlim : t.dictionaryLimitAbs = none)
    (hw : t.live = [] ∧ t.window.uncommitted = [])
    (h : t.primeWithDictionary content reachLog attach = some t') :
    Good t' ∧ t'.tables ≠ [] := by
  have hnec : t.clearTables.tables ≠ [] := by
    rw [← List.length_pos_iff] at hne ⊢
    simpa [clearTables] using hne
  unfold primeWithDictionary at h
  dsimp only at h
  split at h
  · cases h
    refine ⟨⟨hs, ?_⟩, hnec⟩
    intro limit hl _ _
    change t.dictionaryLimitAbs = some limit at hl
    rw [hlim] at hl
    cases hl
  · rename_i hnil
    obtain ⟨r, hr, rfl⟩ := Option.map_eq_some_iff.mp h
    clear h
    have hsf := hs.setDictionaryIndexFloor (content.length - 1 <<< reachLog)
    have hff := t.clearTables.setDictionaryIndexFloor_sameFrame (content.length - 1 <<< reachLog)
    generalize t.clearTables.setDictionaryIndexFloor (content.length - 1 <<< reachLog) = u at *
    have hwu : u.window = t.window := hff.window
    have hbase : t.window.maxWindowSize ≤ maxPrimedWindowSize := by
      have := hsf.maxWindowSize_le
      rwa [hwu] at this
    have hcl : (if decide (content.length ≥ minPrimedTail) = true then content else []).length ≤
        content.length := by
      split
      · exact Nat.le_refl _
      · exact Nat.zero_le _
    generalize (if decide (content.length ≥ minPrimedTail) = true then content else []) = committed
      at *
    have hsu := hsf.setMaxWindowSize
      (Nat.min_le_right (t.window.maxWindowSize + content.length) maxPrimedWindowSize)
    obtain ⟨hsr, hner, -, hwr⟩ := primeSlices_spec hsu (hff.nonempty hnec) hr
    have hsz : u.window.windowSize = 0 := by
      rw [← ChunkWindow.length_live, hwu]
      exact List.length_eq_zero_iff.mpr hw.1
    have hlive : committed.length ≤ maxPrimedWindowSize → r.live = committed := by
      intro hle
      obtain ⟨-, hlr⟩ := hwr
        (by
          change u.window.uncommitted = []
          rw [hwu]
          exact hw.2)
        (by
          change u.window.windowSize + committed.length ≤ min _ _
          omega)
      rw [hlr]
      change u.window.live ++ committed = committed
      rw [hwu, show t.window.live = [] from hw.1, List.nil_append]
    generalize hm : t.window.maxWindowSize +
      min committed.length (maxPrimedWindowSize - t.window.maxWindowSize) = size
    have hsg : Sound { r with
        window := r.window.setMaxWindowSize size
        dictionary := committed } := by
      have hsm := hsr.setMaxWindowSize (by omega : size ≤ maxPrimedWindowSize)
      exact ⟨hsm.base_le, hsm.fresh, hsm.exact, hsm.windowSize_le, hsm.maxWindowSize_le⟩
    change t.clearTables.window.maxWindowSize + min committed.length (maxPrimedWindowSize -
      t.clearTables.window.maxWindowSize) = size at hm
    rw [hm]
    generalize hg : ({ r with
        window := r.window.setMaxWindowSize size
        dictionary := committed } : MatchTable) = g at *
    obtain ⟨hgd, hgl, hgt⟩ : g.dictionary = committed ∧
        (g.dictionary.length ≤ maxPrimedWindowSize → g.live = g.dictionary) ∧ g.tables ≠ [] := by
      subst hg
      exact ⟨rfl, hlive, hner⟩
    subst hgd
    have hfin : ∀ dms, Good (({ g.setDictionaryLimitFromPrimedBytes g.dictionary.length with
        dms := dms } : MatchTable).setDictionaryIndexFloor 0) ∧
        (({ g.setDictionaryLimitFromPrimedBytes g.dictionary.length with
          dms := dms } : MatchTable).setDictionaryIndexFloor 0).tables ≠ [] := by
      intro dms
      exact ⟨(hsg.goodPrimed hgl dms).setDictionaryIndexFloor 0,
        (setDictionaryIndexFloor_sameFrame _ 0).nonempty hgt⟩
    split
    · obtain ⟨dms, hd⟩ := (g.setDictionaryLimitFromPrimedBytes g.dictionary.length).primeDmsBt_eq
        g.dictionary.length
      rw [hd]
      exact hfin dms
    · exact hfin none

/-- A snapshot: sound, and without tables of its own only where its offsets say so. -/
structure Captured (snap : MatchTable) : Prop where
  good : Good snap
  chainOff : snap.tables = [] → snap.chainOff = 0

theorem Good.captured (h : Good t) (hne : t.tables ≠ []) : Captured t.capture := by
  unfold capture
  split
  · exact ⟨⟨h.sound.replaceTables 0 0 (by simp), h.pinned⟩, fun _ => rfl⟩
  · exact ⟨h, fun hnil => absurd hnil hne⟩

theorem one_shiftLeft_ne_zero (n : Nat) : 1 <<< n ≠ 0 := by
  rw [Nat.one_shiftLeft]
  exact Nat.pos_iff_ne_zero.mp (Nat.two_pow_pos n)

/-- The tables the reset laid out are refilled, since the snapshot's offsets are not theirs. -/
theorem Captured.restore {snap : MatchTable} (h : Captured snap) (t : MatchTable) :
    Good (t.restore snap) := by
  unfold MatchTable.restore
  split
  · rename_i hnil
    have h0 := h.chainOff (List.isEmpty_iff.mp hnil)
    unfold ensureTables
    dsimp only
    rw [if_pos (.inl (by rw [h0]; exact (one_shiftLeft_ne_zero _).symm))]
    refine ⟨h.good.sound.replaceTables _ _ ?_, h.good.pinned⟩
    intro v hv
    exact List.eq_of_mem_replicate hv
  · exact h.good

theorem Good.invalidatePrimedDictionary (h : Good t) : Good t.invalidatePrimedDictionary :=
  ⟨⟨h.sound.base_le, h.sound.fresh, h.sound.exact, h.sound.windowSize_le,
    h.sound.maxWindowSize_le⟩, fun _ _ hd => by cases hd⟩

/-- What a retire keeps is the dictionary, where the new frame's positions start. -/
theorem Good.reset_kept {region : Nat} (h : Good t) (hw : WholeOrGone t)
    (hk : t.keptRegion = some region) :
    Good t.reset ∧ t.reset.live = t.dictionary ∧
      t.reset.dictionaryLimitAbs = some (t.reset.floor + region) ∧
      t.reset.window.historyStart = 0 ∧ t.reset.dictResident = true := by
  obtain ⟨-, -, hs0, -, -, hle⟩ := keptRegion_eq_some hk
  obtain ⟨hr, hd⟩ := h.keptRegion hw hk
  have heq : t.reset = t.resetKeeping region t.window.historyAbsEnd hs0 hle := by
    unfold reset
    rw [hk]
    exact dif_pos ⟨hs0, hle⟩
  rw [heq]
  exact resetKeeping_spec h hs0 hle hr hd

theorem reset_plain (hk : t.keptRegion = none) : t.reset = t.resetPlain t.window.historyAbsEnd := by
  unfold reset
  rw [hk]

/-- What the start of a frame needs of the table it was laid out on: the dictionary whole where the
retire keeps it, and a deferred clear that something makes. -/
structure StartsClean (t : MatchTable) (dict : Option FrameDictionary) : Prop where
  wholeOrGone : WholeOrGone t
  cleared : dict = none → t.dictionaryActive = true → t.keptRegion = none →
    ∀ v ∈ t.tables, v = hcEmpty

instance decidableStartsClean (t : MatchTable) :
    (dict : Option FrameDictionary) → Decidable (StartsClean t dict)
  | none =>
    decidable_of_iff (WholeOrGone t ∧ (t.dictionaryActive = true → t.keptRegion = none →
      ∀ v ∈ t.tables, v = hcEmpty)) ⟨fun h => ⟨h.1, fun _ => h.2⟩, fun h => ⟨h.1, h.2 rfl⟩⟩
  | some _ =>
    decidable_of_iff (WholeOrGone t) ⟨fun h => ⟨h, fun hd => by cases hd⟩, fun h => h.1⟩

theorem Good.reset_unprimed (h : Good t) (hc : StartsClean t none) : Good t.reset := by
  cases hk : t.keptRegion with
  | some region => exact (h.reset_kept hc.wholeOrGone hk).1
  | none =>
    rw [reset_plain hk]
    refine ⟨(resetPlain_spec h.sound).2 ?_, ?_⟩
    · cases ha : t.dictionaryActive with
      | false => exact .inl rfl
      | true => exact .inr (hc.cleared rfl ha hk)
    · intro limit hl
      rw [(t.resetPlain_rest _).1] at hl
      cases hl

end MatchTable

namespace TreeBackend

open MatchTable

variable {b b' : TreeBackend}

structure Good (b : TreeBackend) : Prop where
  table : b.table.Good
  primed : ∀ snap, b.primed = some snap → snap.Captured

theorem Good.onTable {t : Option MatchTable} (h : Good b) (hb : b.onTable t = some b')
    (ht : ∀ u, t = some u → u.Good) : Good b' := by
  obtain ⟨u, hu, rfl⟩ := Option.map_eq_some_iff.mp hb
  exact ⟨ht u hu, h.primed⟩

/-- A dictionary loaded over a reset that kept none. -/
theorem Good.loadFrameDictionary {t : MatchTable} {d : FrameDictionary} (h : Good b)
    (hne : t.tables ≠ [])
    (hl : ({ b with table := t.resetPlain t.window.historyAbsEnd } :
      TreeBackend).loadFrameDictionary d = some b')
    (hs : t.Sound) : Good b' := by
  obtain ⟨hlim, hres, htab⟩ := t.resetPlain_rest t.window.historyAbsEnd
  obtain ⟨floor, hwin⟩ := t.resetPlain_window t.window.historyAbsEnd
  have hclear := (resetPlain_spec hs).1
  generalize t.resetPlain t.window.historyAbsEnd = r at *
  have hempty : r.live = [] ∧ r.window.uncommitted = [] := by
    rw [live, hwin]
    exact ⟨rfl, rfl⟩
  have hprime : ∀ b', ((r.primeWithDictionary d.content d.reachLog d.attach).map fun t =>
      if d.preferSnapshot then (⟨t, some t.capture⟩ : TreeBackend)
      else { b with table := t }) = some b' → Good b' := by
    intro b' hb
    obtain ⟨u, hu, rfl⟩ := Option.map_eq_some_iff.mp hb
    obtain ⟨hg, hne'⟩ := primeWithDictionary_spec hclear (htab hne) hlim hempty hu
    split
    · refine ⟨hg, fun snap hsnap => ?_⟩
      cases hsnap
      exact hg.captured hne'
    · exact ⟨hg, h.primed⟩
  unfold TreeBackend.loadFrameDictionary at hl
  dsimp only at hl
  rw [hres, if_neg Bool.false_ne_true] at hl
  split at hl
  · split at hl
    · rename_i snap hsnap
      cases hl
      exact ⟨(h.primed snap hsnap).restore r, h.primed⟩
    · exact hprime b' hl
  · exact hprime b' hl

/-- The table a frame is started on, laid out for its level. -/
def laidOut (b : TreeBackend) (cfg : HcConfig) (continues : Bool)
    (dict : Option FrameDictionary) : MatchTable :=
  b.table.layOut cfg (dict.any fun d => !d.content.isEmpty && !d.attach) continues

theorem Good.startFrame {cfg : HcConfig} {continues : Bool} {dict : Option FrameDictionary}
    (h : Good b) (hc : (b.laidOut cfg continues dict).StartsClean dict)
    (hs : b.startFrame cfg continues dict = some b') : Good b' := by
  unfold TreeBackend.startFrame at hs
  split at hs
  · cases hs
  · rename_i hw
    obtain ⟨hg, hne⟩ := h.table.layOut (dict.any fun d => !d.content.isEmpty && !d.attach)
      continues (Nat.le_of_not_lt hw)
    unfold laidOut at hc
    dsimp only at hs
    generalize b.table.layOut cfg (dict.any fun d => !d.content.isEmpty && !d.attach) continues = t
      at *
    cases dict with
    | none =>
      cases hs
      exact ⟨hg.reset_unprimed hc, h.primed⟩
    | some d =>
      dsimp only at hs
      cases hk : t.keptRegion with
      | none =>
        rw [reset_plain hk] at hs
        exact h.loadFrameDictionary hne hs hg.sound
      | some region =>
        obtain ⟨hgr, -, -, -, hres⟩ := hg.reset_kept hc.wholeOrGone hk
        unfold TreeBackend.loadFrameDictionary at hs
        rw [if_pos hres] at hs
        cases hs
        exact ⟨hgr, h.primed⟩

/-- What a step asks of the state before it. -/
def Meets (b : TreeBackend) : TreeOp → Prop
  | .startFrame cfg continues dict => (b.laidOut cfg continues dict).StartsClean dict
  | _ => True

def MeetsAll (b : TreeBackend) : List TreeOp → Prop
  | [] => True
  | op :: rest => b.Meets op ∧ ∀ b' ∈ b.step op, b'.MeetsAll rest

instance decidableMeets (b : TreeBackend) : (op : TreeOp) → Decidable (b.Meets op)
  | .startFrame cfg continues dict => (b.laidOut cfg continues dict).decidableStartsClean dict
  | .invalidate | .fill _ | .commit _ | .shrinkWindow _ | .handBack _ _ | .startMatching _ _ _
  | .skipMatching _ | .skipLongMatch => isTrue trivial

instance decidableMeetsAll (b : TreeBackend) : (ops : List TreeOp) → Decidable (b.MeetsAll ops)
  | [] => isTrue trivial
  | op :: rest =>
    have : DecidablePred fun b' : TreeBackend => b'.MeetsAll rest :=
      fun b' => b'.decidableMeetsAll rest
    inferInstanceAs (Decidable (b.Meets op ∧ ∀ b' ∈ b.step op, b'.MeetsAll rest))

theorem Good.step {op : TreeOp} (h : Good b) (hm : b.Meets op) (hs : b.step op = some b') :
    Good b' := by
  cases op with
  | startFrame cfg continues dict => exact h.startFrame hm hs
  | invalidate =>
    cases hs
    exact ⟨h.table.invalidatePrimedDictionary, fun _ hp => by cases hp⟩
  | fill bytes => exact h.onTable hs fun _ hu => h.table.fillUncommitted hu
  | commit len => exact h.onTable hs fun _ hu => h.table.commitBlock hu
  | shrinkWindow size => exact h.onTable hs fun _ hu => h.table.shrinkWindow hu
  | handBack len size => exact h.onTable hs fun _ hu => h.table.handBackBlock hu
  | startMatching st seed searches =>
    exact h.onTable hs fun _ hu => h.table.startMatchingOptimal hu
  | skipMatching hint => exact h.onTable hs fun _ hu => h.table.skipMatching hu
  | skipLongMatch =>
    refine h.onTable hs fun _ hu => ?_
    cases hu
    exact h.table.skipLongMatch

theorem Good.run {ops : List TreeOp} (h : Good b) (hm : b.MeetsAll ops)
    (hr : b.run ops = some b') : Good b' := by
  induction ops generalizing b with
  | nil =>
    cases hr
    exact h
  | cons op rest ih =>
    obtain ⟨u, hu, hr⟩ := Option.bind_eq_some_iff.mp hr
    exact ih (h.step hm.1 hu) (hm.2 u hu) hr

theorem good_new {windowLog : Nat} (hw : windowLog ≤ maxWindowLog) :
    Good (new (1 <<< windowLog)) := by
  refine ⟨⟨⟨Nat.le_refl _, ?_, ?_, Nat.zero_le _, windowLog_le hw⟩, ?_⟩, ?_⟩
  · intro v hv
    cases hv
  · intro e he
    cases he
  · intro limit hl
    cases hl
  · intro snap hsnap
    cases hsnap

/-- A slot that leads into the window without an insertion of the frame behind it. -/
def StaleSlot (t : MatchTable) (v : Nat) : Prop :=
  ∃ p, t.decode v = some p ∧ t.floor ≤ p ∧ ∀ e ∈ t.inserted, e.pos ≠ p

theorem no_stale_candidate {windowLog : Nat} {ops : List TreeOp} {b : TreeBackend}
    (hw : windowLog ≤ maxWindowLog) (hr : (new (1 <<< windowLog)).run ops = some b)
    (hm : (new (1 <<< windowLog)).MeetsAll ops) :
    (∀ v ∈ b.table.tables, ¬StaleSlot b.table v) ∧
      (∀ e ∈ b.table.inserted,
        storedAbsPositionFast e.stored e.positionBase e.indexShift = some e.pos ∧
          e.stored < 2 ^ 32) ∧
      ∀ cfg continues dict region, cfg.windowLog ≤ maxWindowLog →
        (b.laidOut cfg continues dict).StartsClean dict →
        (b.laidOut cfg continues dict).keptRegion = some region →
        region = b.table.dictionary.length ∧ b.table.live.take region = b.table.dictionary ∧
          (b.laidOut cfg continues dict).reset.live = b.table.dictionary ∧
          (b.laidOut cfg continues dict).reset.dictionaryLimitAbs =
            some ((b.laidOut cfg continues dict).reset.floor + region) := by
  have hg := (good_new hw).run hm hr
  refine ⟨?_, ?_, ?_⟩
  · rintro v hv ⟨p, hp, hf, hne⟩
    obtain ⟨-, hin⟩ := hg.table.sound.fresh v hv p hp
    obtain ⟨e, he, hpos⟩ := hin hf
    exact hne e he hpos
  · intro e he
    have hex := hg.table.sound.exact e he
    exact ⟨hex.decode, hex.lt⟩
  · intro cfg continues dict region hcw hc hk
    obtain ⟨hgl, -⟩ := hg.table.layOut (dict.any fun d => !d.content.isEmpty && !d.attach)
      continues hcw
    obtain ⟨hlive, hdict⟩ := b.table.layOut_window cfg
      (dict.any fun d => !d.content.isEmpty && !d.attach) continues
    obtain ⟨-, hl, hlim, -, -⟩ := hgl.reset_kept hc.wholeOrGone hk
    obtain ⟨hreg, htake⟩ := hgl.keptRegion hc.wholeOrGone hk
    rw [hlive, hdict] at htake
    rw [hdict] at hreg hl
    exact ⟨hreg, htake, hl, hlim⟩

/-- A small table, for the runs below. -/
def smallConfig : HcConfig := ⟨10, 6, 6, 0, 4, 4⟩

def someBytes : List UInt8 := [1, 2, 3, 4, 5, 6, 7, 8, 1, 2, 3, 4, 5, 6, 7, 9]

/-- An attached dictionary kept across two frames, a block in each. -/
def keptRun : List TreeOp :=
  [.startFrame smallConfig false (some ⟨someBytes, 24, true, false, false⟩),
    .fill someBytes, .commit 16, .skipMatching none,
    .startFrame smallConfig true (some ⟨someBytes, 24, true, false, false⟩),
    .fill someBytes, .commit 16, .skipMatching none]

/-- In the second frame the dictionary stands where the first frame ended. -/
theorem kept_run_has_no_stale_candidate :
    ∃ b, (new (1 <<< 10)).run keptRun = some b ∧ b.table.floor = 32 ∧
      b.table.live.take 16 = b.table.dictionary ∧ ∀ v ∈ b.table.tables, ¬StaleSlot b.table v := by
  have hsome : ((new (1 <<< 10)).run keptRun).isSome = true := by decide +kernel
  obtain ⟨b, hb⟩ := Option.isSome_iff_exists.mp hsome
  have hmeets : (new (1 <<< 10)).MeetsAll keptRun := by decide +kernel
  have hfloor : ∀ b ∈ (new (1 <<< 10)).run keptRun, b.table.floor = 32 := by decide +kernel
  have hkept : ∀ b ∈ (new (1 <<< 10)).run keptRun,
      (b.laidOut smallConfig true none).keptRegion = some 16 := by decide +kernel
  have hclean : ∀ b ∈ (new (1 <<< 10)).run keptRun,
      (b.laidOut smallConfig true none).StartsClean none := by decide +kernel
  have h := no_stale_candidate (by decide) hb hmeets
  obtain ⟨-, htake, -⟩ := h.2.2 smallConfig true none 16 (by decide) (hclean b hb) (hkept b hb)
  exact ⟨b, hb, hfloor b hb, htake, h.1⟩

/-- A copied dictionary, a raw frame over it, and then a frame with none. -/
def strandedRun : List TreeOp :=
  [.startFrame smallConfig false (some ⟨someBytes, 24, false, false, false⟩),
    .fill someBytes, .commit 16, .skipMatching none,
    .startFrame smallConfig true none, .invalidate, .startFrame smallConfig true none]

/-- The raw frame leaves the clear to a prime that never comes: the slots of the first frame lead
into the third. -/
theorem stranded_clear_keeps_stale_slot :
    ∃ b, (new (1 <<< 10)).run strandedRun = some b ∧ ∃ v ∈ b.table.tables, StaleSlot b.table v := by
  have hsome : ((new (1 <<< 10)).run strandedRun).isSome = true := by decide +kernel
  obtain ⟨b, hb⟩ := Option.isSome_iff_exists.mp hsome
  have hslot : ∀ b ∈ (new (1 <<< 10)).run strandedRun, 24 ∈ b.table.tables := by decide +kernel
  have hstale : ∀ b ∈ (new (1 <<< 10)).run strandedRun,
      b.table.decode 24 = some 23 ∧ b.table.floor = 0 ∧ b.table.inserted.all (·.pos ≠ 23) := by
    decide +kernel
  obtain ⟨hd, hf, hi⟩ := hstale b hb
  refine ⟨b, hb, 24, hslot b hb, 23, hd, by rw [hf]; exact Nat.zero_le _, ?_⟩
  intro e he
  have := List.all_eq_true.mp hi e he
  simpa using this

end TreeBackend

end Encoding
