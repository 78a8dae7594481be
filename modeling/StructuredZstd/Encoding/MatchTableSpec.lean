import StructuredZstd.Encoding.MatchTableFrames

namespace Encoding

theorem storedAbsPositionFast_empty (base shift : Nat) :
    storedAbsPositionFast hcEmpty base shift = none := by
  simp [storedAbsPositionFast]

/-- A slot decodes to a position exactly when it is that position's distance past the base, shifted
and moved off the empty value. -/
theorem storedAbsPositionFast_eq_some {stored base shift p : Nat} :
    storedAbsPositionFast stored base shift = some p ↔ base ≤ p ∧ stored = p - base + shift + 1 := by
  unfold storedAbsPositionFast hcEmpty
  split
  · simp
    omega
  · split
    · simp
      omega
    · simp
      omega

/-- The encoding an insertion was written under gives the position back, in 32 bits. -/
structure Insertion.Exact (e : Insertion) : Prop where
  decode : storedAbsPositionFast e.stored e.positionBase e.indexShift = some e.pos
  lt : e.stored < 2 ^ 32

namespace MatchTable

variable {t t' t'' : MatchTable} {p q : Nat}

theorem canSkipRebaseCheck_iff :
    t.canSkipRebaseCheck p = true ↔ p - t.positionBase + t.indexShift ≤ u32Max - 2 := by
  unfold canSkipRebaseCheck
  simp
  omega

theorem canSkipRebaseCheck_mono (h : t.canSkipRebaseCheck q = true) (hle : p ≤ q) :
    t.canSkipRebaseCheck p = true := by
  rw [canSkipRebaseCheck_iff] at h ⊢
  omega

/-- In an armed block the index is taken without a test, and does not wrap. -/
theorem storedArmed_eq (hb : t.positionBase ≤ p) (h : t.canSkipRebaseCheck p = true) :
    t.storedArmed p = p - t.positionBase + t.indexShift + 1 := by
  rw [canSkipRebaseCheck_iff, u32Max] at h
  unfold storedArmed wrapU32
  omega

theorem relativePosition_eq_some {relative : Nat} (h : t.relativePosition p = some relative) :
    t.positionBase ≤ p ∧ relative = p - t.positionBase + t.indexShift ∧ relative < u32Max := by
  unfold relativePosition at h
  split at h
  · cases h
  · dsimp only at h
    split at h
    · cases h
    · split at h
      · cases h
      · simp only [Option.some.injEq] at h
        omega

theorem canSkip_of_not_needsRebase (h : t.needsRebase p = false) :
    t.positionBase ≤ p ∧ t.canSkipRebaseCheck p = true := by
  unfold needsRebase at h
  cases hr : t.relativePosition p with
  | none => simp [hr] at h
  | some relative =>
    obtain ⟨hb, he, -⟩ := relativePosition_eq_some hr
    simp [hr] at h
    rw [canSkipRebaseCheck_iff]
    exact ⟨hb, by omega⟩

/-- The window and the dictionary stay as they are, and the tables are not dropped. -/
structure SameFrame (t t' : MatchTable) : Prop where
  window : t'.window = t.window
  nonempty : t.tables ≠ [] → t'.tables ≠ []
  dms : t'.dms = t.dms
  dictionaryActive : t'.dictionaryActive = t.dictionaryActive
  dictionaryLimitAbs : t'.dictionaryLimitAbs = t.dictionaryLimitAbs
  dictionary : t'.dictionary = t.dictionary

/-- So does the encoding of positions. -/
structure Keeps (t t' : MatchTable) : Prop extends SameFrame t t' where
  positionBase : t'.positionBase = t.positionBase
  indexShift : t'.indexShift = t.indexShift

theorem SameFrame.refl (t : MatchTable) : SameFrame t t := ⟨rfl, id, rfl, rfl, rfl, rfl⟩

theorem SameFrame.trans (h : SameFrame t t') (h' : SameFrame t' t'') : SameFrame t t'' :=
  ⟨h'.window.trans h.window, h'.nonempty ∘ h.nonempty, h'.dms.trans h.dms,
    h'.dictionaryActive.trans h.dictionaryActive,
    h'.dictionaryLimitAbs.trans h.dictionaryLimitAbs, h'.dictionary.trans h.dictionary⟩

theorem SameFrame.floor (h : SameFrame t t') : t'.floor = t.floor := by
  rw [MatchTable.floor, h.window]

theorem Keeps.refl (t : MatchTable) : Keeps t t := ⟨SameFrame.refl t, rfl, rfl⟩

theorem Keeps.trans (h : Keeps t t') (h' : Keeps t' t'') : Keeps t t'' :=
  ⟨h.toSameFrame.trans h'.toSameFrame, h'.positionBase.trans h.positionBase,
    h'.indexShift.trans h.indexShift⟩

theorem Keeps.canSkip (h : Keeps t t') : t'.canSkipRebaseCheck p = t.canSkipRebaseCheck p := by
  unfold canSkipRebaseCheck
  rw [h.positionBase, h.indexShift]

/-- A slot value is fresh when it decodes to nothing, to a position under the window, or to one
indexed in this frame. -/
def Fresh (t : MatchTable) (v : Nat) : Prop :=
  ∀ p, t.decode v = some p →
    p < t.window.historyAbsEnd ∧ (t.floor ≤ p → ∃ e ∈ t.inserted, e.pos = p)

structure Sound (t : MatchTable) : Prop where
  base_le : t.positionBase ≤ t.floor
  fresh : ∀ v ∈ t.tables, t.Fresh v
  exact : ∀ e ∈ t.inserted, e.Exact
  windowSize_le : t.window.windowSize ≤ maxPrimedWindowSize
  maxWindowSize_le : t.window.maxWindowSize ≤ maxPrimedWindowSize

theorem fresh_empty (t : MatchTable) : t.Fresh hcEmpty := by
  intro p hp
  rw [decode, storedAbsPositionFast_empty] at hp
  cases hp

theorem fresh_replicate (t : MatchTable) (n : Nat) : ∀ v ∈ List.replicate n hcEmpty, t.Fresh v := by
  intro v hv
  rw [List.eq_of_mem_replicate hv]
  exact t.fresh_empty

/-- More insertions under the same window and encoding leave a fresh value fresh. -/
theorem Fresh.mono {v : Nat} (h : t.Fresh v) (hk : Keeps t t')
    (hi : ∀ e ∈ t.inserted, e ∈ t'.inserted) : t'.Fresh v := by
  intro p hp
  rw [decode, hk.positionBase, hk.indexShift] at hp
  obtain ⟨hlt, hin⟩ := h p hp
  rw [hk.window]
  refine ⟨hlt, ?_⟩
  intro hf
  rw [floor, hk.window] at hf
  obtain ⟨e, he, hpos⟩ := hin hf
  exact ⟨e, hi e he, hpos⟩

/-- Tables rewritten with fresh values, nothing else changed that freshness reads. -/
theorem Sound.of_fresh (hs : Sound t) (hk : Keeps t t') (hi : t'.inserted = t.inserted)
    (hf : ∀ v ∈ t'.tables, t.Fresh v) : Sound t' where
  base_le := by
    rw [hk.positionBase, floor, hk.window]
    exact hs.base_le
  fresh v hv := (hf v hv).mono hk fun e he => hi ▸ he
  exact e he := hs.exact e (hi ▸ he)
  windowSize_le := hk.window ▸ hs.windowSize_le
  maxWindowSize_le := hk.window ▸ hs.maxWindowSize_le

theorem mem_set {l : List Nat} {i v x : Nat} (h : x ∈ l.set i v) : x = v ∨ x ∈ l := by
  rcases List.mem_or_eq_of_mem_set h with h | h
  · exact .inr h
  · exact .inl h

theorem write_keeps (t : MatchTable) (i p stored : Nat) : Keeps t (t.write i p stored) :=
  ⟨⟨rfl, by simp [write], rfl, rfl, rfl, rfl⟩, rfl, rfl⟩

/-- A position of the live window, written under an index that decodes to it. -/
theorem Sound.write {i stored : Nat} (hs : Sound t) (hd : t.decode stored = some p)
    (hlt : stored < 2 ^ 32) (hp : p < t.window.historyAbsEnd) : Sound (t.write i p stored) where
  base_le := hs.base_le
  fresh v hv := by
    rcases mem_set hv with rfl | hv
    · intro x hx
      have hx' : t.decode v = some x := hx
      rw [hd] at hx'
      cases hx'
      exact ⟨hp, fun _ => ⟨_, List.mem_cons_self, rfl⟩⟩
    · exact (hs.fresh v hv).mono (write_keeps t i p stored) fun e he => List.mem_cons_of_mem _ he
  exact e he := by
    rcases List.mem_cons.mp he with rfl | he
    · exact ⟨hd, hlt⟩
    · exact hs.exact e he
  windowSize_le := hs.windowSize_le
  maxWindowSize_le := hs.maxWindowSize_le

theorem Sound.writeArmed (hs : Sound t) (i : Nat) (hf : t.floor ≤ p)
    (hc : t.canSkipRebaseCheck p = true) (hp : p < t.window.historyAbsEnd) :
    Sound (t.write i p (t.storedArmed p)) := by
  have hb : t.positionBase ≤ p := Nat.le_trans hs.base_le hf
  have he := storedArmed_eq hb hc
  apply hs.write _ _ hp
  · exact storedAbsPositionFast_eq_some.mpr ⟨hb, he⟩
  · rw [canSkipRebaseCheck_iff, u32Max] at hc
    omega

end MatchTable

section Walk

variable {P : Nat → Prop} {tables : List Nat}

theorem getD_of_forall (h0 : P hcEmpty) (h : ∀ v ∈ tables, P v) (i : Nat) :
    P (tables.getD i hcEmpty) := by
  rw [List.getD_eq_getElem?_getD]
  cases hi : tables[i]? with
  | none => exact h0
  | some v => exact h v (List.mem_of_getElem? hi)

theorem setSlot_forall {slot : Option Nat} {v : Nat} (h : ∀ x ∈ tables, P x) (hv : P v) :
    ∀ x ∈ setSlot tables slot v, P x := by
  intro x hx
  cases slot with
  | none => exact h x hx
  | some i =>
    rcases MatchTable.mem_set hx with rfl | hx
    · exact hv
    · exact h x hx

@[simp] theorem TreeWalk.improve_tables (w : TreeWalk) (q : TreeSearch) (len : Nat) :
    (w.improve q len).tables = w.tables := by
  unfold improve
  split
  · rfl
  · rfl

@[simp] theorem TreeWalk.improve_smallerSlot (w : TreeWalk) (q : TreeSearch) (len : Nat) :
    (w.improve q len).smallerSlot = w.smallerSlot := by
  unfold improve
  split
  · rfl
  · rfl

/-- A property of the empty value, of the node the walk stands at and of every slot is kept of
every slot. -/
theorem TreeSearch.descend_forall (q : TreeSearch) (h0 : P hcEmpty) (compares : Nat) {w : TreeWalk}
    (h : ∀ v ∈ w.tables, P v) (hm : P w.matchStored) :
    ∀ v ∈ (q.descend compares w).tables, P v := by
  induction compares generalizing w with
  | zero => exact h
  | succ compares ih =>
    rw [descend]
    split
    · exact h
    · dsimp only
      split
      · simpa using h
      · split
        · simpa using h
        · split
          · have hset : ∀ v ∈ setSlot w.tables w.smallerSlot w.matchStored, P v :=
              setSlot_forall h hm
            split
            · simpa using hset
            · apply ih
              · simpa using hset
              · exact getD_of_forall h0 h _
          · have hset : ∀ slot, ∀ v ∈ setSlot w.tables slot w.matchStored, P v :=
              fun slot => setSlot_forall h hm
            split
            · simpa using hset _
            · apply ih
              · simpa using hset _
              · exact getD_of_forall h0 h _

@[simp] theorem length_setSlot (tables : List Nat) (slot : Option Nat) (v : Nat) :
    (setSlot tables slot v).length = tables.length := by
  cases slot with
  | none => rfl
  | some i => exact List.length_set

theorem TreeSearch.descend_length (q : TreeSearch) (compares : Nat) (w : TreeWalk) :
    (q.descend compares w).tables.length = w.tables.length := by
  induction compares generalizing w with
  | zero => rfl
  | succ compares ih =>
    rw [descend]
    split
    · rfl
    · dsimp only
      split
      · simp
      · split
        · simp
        · split
          · split
            · simp
            · simp [ih]
          · split
            · simp
            · simp [ih]

theorem TreeWalk.finish_length (w : TreeWalk) : w.finish.length = w.tables.length := by
  simp [finish]

theorem TreeWalk.finish_forall {w : TreeWalk} (h0 : P hcEmpty) (h : ∀ v ∈ w.tables, P v) :
    ∀ v ∈ w.finish, P v := setSlot_forall (setSlot_forall h h0) h0

end Walk

namespace MatchTable

variable {t t' : MatchTable} {p : Nat}

theorem plant_keeps_write (t : MatchTable) (q : TreeSearch) (hash p bestLen compares : Nat) :
    Keeps (t.write hash p (t.storedArmed p)) (t.plant q hash p bestLen compares).1 := by
  refine ⟨⟨rfl, ?_, rfl, rfl, rfl, rfl⟩, rfl, rfl⟩
  have hl : (t.plant q hash p bestLen compares).1.tables.length =
      (t.write hash p (t.storedArmed p)).tables.length :=
    (TreeWalk.finish_length _).trans (q.descend_length _ _)
  intro h
  rw [← List.length_pos_iff] at h ⊢
  rw [hl]
  exact h

theorem plant_keeps (t : MatchTable) (q : TreeSearch) (hash p bestLen compares : Nat) :
    Keeps t (t.plant q hash p bestLen compares).1 :=
  (t.write_keeps _ _ _).trans (t.plant_keeps_write q hash p bestLen compares)

theorem Sound.plant {q : TreeSearch} {hash bestLen compares : Nat} (hs : Sound t)
    (hf : t.floor ≤ p) (hc : t.canSkipRebaseCheck p = true) (hp : p < t.window.historyAbsEnd) :
    Sound (t.plant q hash p bestLen compares).1 := by
  have hw : Sound (t.write hash p (t.storedArmed p)) := hs.writeArmed hash hf hc hp
  have hold : (t.write hash p (t.storedArmed p)).Fresh (t.tables.getD hash hcEmpty) := by
    have hg : t.Fresh (t.tables.getD hash hcEmpty) := getD_of_forall t.fresh_empty hs.fresh hash
    exact hg.mono (write_keeps _ _ _ _) fun e he => List.mem_cons_of_mem _ he
  apply hw.of_fresh (t.plant_keeps_write q hash p bestLen compares) rfl
  apply TreeWalk.finish_forall (fresh_empty _)
  exact q.descend_forall (fresh_empty _) compares hw.fresh hold

theorem btInsert_keeps (t : MatchTable) (p stop target : Nat) :
    Keeps t (t.btInsert p stop target).1 := by
  unfold btInsert
  dsimp only
  split
  · exact Keeps.refl t
  · exact plant_keeps _ _ _ _ _ _

theorem historyAbsEnd_eq (t : MatchTable) :
    t.window.historyAbsEnd = t.floor + t.live.length := by
  rw [ChunkWindow.historyAbsEnd, ChunkWindow.length_live]

/-- A position with no room for its hash is left out; any other has to be representable. -/
theorem Sound.btInsert (hs : Sound t) (stop target : Nat) (hf : t.floor ≤ p)
    (hc : p + 8 ≤ t.window.historyAbsEnd → t.canSkipRebaseCheck p = true) :
    Sound (t.btInsert p stop target).1 := by
  unfold MatchTable.btInsert
  dsimp only
  split
  · exact hs
  · have he := t.historyAbsEnd_eq
    exact hs.plant hf (hc (by omega)) (by omega)

/-- A run of insertions, each position representable where it is inserted at all. -/
theorem btInsertRange_spec {stop : Nat} (hs : Sound t) (endAbs target : Nat) (hf : t.floor ≤ p)
    (hc : ∀ x, p ≤ x → x < stop → x + 8 ≤ t.window.historyAbsEnd → t.canSkipRebaseCheck x = true) :
    Sound (t.btInsertRange p stop endAbs target).1 ∧
      Keeps t (t.btInsertRange p stop endAbs target).1 := by
  induction hn : stop - p using Nat.strong_induction_on generalizing t p with
  | _ n ih =>
    rw [btInsertRange]
    split
    · rename_i hlt
      have hk := t.btInsert_keeps p endAbs target
      have hs' := hs.btInsert endAbs target hf (hc p (Nat.le_refl p) hlt)
      obtain ⟨hs'', hk'⟩ := ih (stop - (p + max (t.btInsert p endAbs target).2 1)) (by omega) hs'
        (by rw [hk.floor]; omega)
        (fun x hx hxs he => by
          rw [hk.canSkip]
          rw [hk.window] at he
          exact hc x (by omega) hxs he) rfl
      exact ⟨hs'', hk.trans hk'⟩
    · exact ⟨hs, Keeps.refl t⟩

theorem fillHash3_spec (hs : Sound t) (cursor count : Nat) (hf : t.floor ≤ cursor)
    (hend : cursor + count ≤ t.window.historyAbsEnd)
    (hc : ∀ x, x < cursor + count → t.canSkipRebaseCheck x = true) :
    Sound (t.fillHash3 cursor count) ∧ Keeps t (t.fillHash3 cursor count) := by
  induction count generalizing t cursor with
  | zero => exact ⟨hs, Keeps.refl t⟩
  | succ count ih =>
    rw [fillHash3]
    have hk := t.write_keeps (t.hash3Slot cursor) cursor (t.storedArmed cursor)
    have hs' := hs.writeArmed (t.hash3Slot cursor) hf (hc cursor (by omega)) (by omega)
    obtain ⟨hs'', hk'⟩ := ih hs' (cursor + 1) (by rw [hk.floor]; omega)
      (by rw [hk.window]; omega)
      (fun x hx => by rw [hk.canSkip]; exact hc x (by omega))
    exact ⟨hs'', hk.trans hk'⟩

theorem Sound.setNextToUpdate3 (hs : Sound t) (next : Nat) : Sound (t.setNextToUpdate3 next) :=
  ⟨hs.base_le, hs.fresh, hs.exact, hs.windowSize_le, hs.maxWindowSize_le⟩

theorem Sound.setSkipInsertUntilAbs (hs : Sound t) (next : Nat) :
    Sound (t.setSkipInsertUntilAbs next) :=
  ⟨hs.base_le, hs.fresh, hs.exact, hs.windowSize_le, hs.maxWindowSize_le⟩

theorem setNextToUpdate3_keeps (t : MatchTable) (next : Nat) : Keeps t (t.setNextToUpdate3 next) :=
  ⟨⟨rfl, id, rfl, rfl, rfl, rfl⟩, rfl, rfl⟩

theorem setSkipInsertUntilAbs_keeps (t : MatchTable) (next : Nat) :
    Keeps t (t.setSkipInsertUntilAbs next) :=
  ⟨⟨rfl, id, rfl, rfl, rfl, rfl⟩, rfl, rfl⟩

theorem fillHash3From_spec {absPos : Nat} (hs : Sound t) (hc : t.canSkipRebaseCheck absPos = true)
    (h : t.fillHash3From absPos = some t') : Sound t' ∧ Keeps t t' := by
  unfold fillHash3From at h
  split at h
  · cases h
  · rename_i hn
    have he := t.historyAbsEnd_eq
    cases h
    generalize hcount : min absPos (t.floor + (t.live.length - 3)) - t.nextToUpdate3 = count
    by_cases h0 : count = 0
    · subst h0
      exact ⟨hs.setNextToUpdate3 _, t.setNextToUpdate3_keeps _⟩
    · obtain ⟨hs', hk⟩ := fillHash3_spec hs t.nextToUpdate3 count (by omega)
        (by omega) (fun x hx => canSkipRebaseCheck_mono hc (by omega))
      exact ⟨hs'.setNextToUpdate3 _, hk.trans (setNextToUpdate3_keeps _ _)⟩

theorem fillHash3Hoisted_spec {absPos : Nat} (hs : Sound t)
    (h : t.fillHash3Hoisted absPos = some t') : Sound t' ∧ Keeps t t' := by
  unfold fillHash3Hoisted at h
  split at h
  · rename_i hc
    exact fillHash3From_spec hs hc h
  · cases h

/-- A table encoded from its floor on represents all of its window. -/
theorem canSkip_of_floor (hs : Sound t) (hb : t.positionBase = t.floor) (h0 : t.indexShift = 0)
    (hp : p ≤ t.window.historyAbsEnd) : t.canSkipRebaseCheck p = true := by
  have hw := hs.windowSize_le
  rw [ChunkWindow.historyAbsEnd] at hp
  rw [canSkipRebaseCheck_iff, hb, h0, floor]
  simp only [maxPrimedWindowSize, u32Max, maxBlockSize] at *
  omega

theorem Sound.beginRebase (hs : Sound t) : Sound t.beginRebase where
  base_le := Nat.le_refl _
  fresh := fresh_replicate _ _
  exact := hs.exact
  windowSize_le := hs.windowSize_le
  maxWindowSize_le := hs.maxWindowSize_le

theorem beginRebase_sameFrame (t : MatchTable) : SameFrame t t.beginRebase :=
  ⟨rfl, by simp [beginRebase], rfl, rfl, rfl, rfl⟩

/-- The history a rebase replays, before the hash3 table is filled again. -/
theorem replay_spec (hs : Sound t) (absPos : Nat) :
    Sound (t.beginRebase.btInsertRange t.floor absPos t.window.historyAbsEnd absPos).1 ∧
      Keeps t.beginRebase
        (t.beginRebase.btInsertRange t.floor absPos t.window.historyAbsEnd absPos).1 :=
  btInsertRange_spec hs.beginRebase _ _ (Nat.le_refl _) fun x _ _ hx =>
    canSkip_of_floor hs.beginRebase rfl rfl (by omega)

theorem rebasePositionsCold_spec {absPos : Nat} (hs : Sound t)
    (h : t.rebasePositionsCold absPos = some t') :
    Sound t' ∧ SameFrame t t' ∧ t'.positionBase = t.floor ∧ t'.indexShift = 0 := by
  unfold rebasePositionsCold at h
  obtain ⟨hr, hk⟩ := replay_spec hs absPos
  generalize (t.beginRebase.btInsertRange t.floor absPos t.window.historyAbsEnd absPos).1 = r at *
  have hc := hk.trans (r.setNextToUpdate3_keeps r.floor)
  have hs' := hr.setNextToUpdate3 r.floor
  dsimp only at h
  split at h
  · cases h
    exact ⟨hs', t.beginRebase_sameFrame.trans hc.toSameFrame, hc.positionBase, hc.indexShift⟩
  · obtain ⟨hf, hk'⟩ := fillHash3Hoisted_spec hs' h
    have hc := hc.trans hk'
    exact ⟨hf, t.beginRebase_sameFrame.trans hc.toSameFrame, hc.positionBase, hc.indexShift⟩

theorem maybeRebasePositions_spec (hs : Sound t) (h : t.maybeRebasePositions p = some t') :
    Sound t' ∧ SameFrame t t' ∧
      (p ≤ t.window.historyAbsEnd → t'.canSkipRebaseCheck p = true) := by
  unfold maybeRebasePositions at h
  split at h
  · obtain ⟨hs', hf, hb, h0⟩ := rebasePositionsCold_spec hs h
    refine ⟨hs', hf, ?_⟩
    intro hp
    apply canSkip_of_floor hs' _ h0
    · rw [hf.window]
      exact hp
    · rw [hb, hf.floor]
  · rename_i hn
    cases h
    exact ⟨hs, SameFrame.refl _, fun _ => (canSkip_of_not_needsRebase (by simpa using hn)).2⟩

/-- The guard of a catch-up towards `target`: after it the position `p` is representable. -/
theorem rebaseGuard_spec {target : Nat} (hs : Sound t) (hle : p ≤ target)
    (h : (if t.canSkipRebaseCheck target = true then some t else t.maybeRebasePositions p) =
      some t') :
    Sound t' ∧ SameFrame t t' ∧
      (p ≤ t.window.historyAbsEnd → t'.canSkipRebaseCheck p = true) ∧
      (t.canSkipRebaseCheck target = true → t' = t) := by
  split at h
  · rename_i hc
    cases h
    exact ⟨hs, SameFrame.refl _, fun _ => canSkipRebaseCheck_mono hc hle, fun _ => rfl⟩
  · rename_i hc
    obtain ⟨hs', hf, hp⟩ := maybeRebasePositions_spec hs h
    exact ⟨hs', hf, hp, fun hc' => absurd hc' hc⟩

theorem insertHash3OnlyNoRebase_keeps (t : MatchTable) (p : Nat) :
    Keeps t (t.insertHash3OnlyNoRebase p) := by
  unfold insertHash3OnlyNoRebase
  split
  · exact Keeps.refl t
  · split
    · exact Keeps.refl t
    · split
      · exact Keeps.refl t
      · exact t.write_keeps _ _ _

/-- The checked conversion writes nothing it could not represent. -/
theorem Sound.insertHash3OnlyNoRebase (hs : Sound t) (p : Nat) :
    Sound (t.insertHash3OnlyNoRebase p) := by
  unfold MatchTable.insertHash3OnlyNoRebase
  split
  · exact hs
  · split
    · exact hs
    · split
      · exact hs
      · rename_i hlen relative hr
        obtain ⟨hb, he, hlt⟩ := relativePosition_eq_some hr
        have hend := t.historyAbsEnd_eq
        apply hs.write
        · exact storedAbsPositionFast_eq_some.mpr ⟨hb, by rw [he]⟩
        · rw [u32Max] at hlt
          omega
        · omega

theorem updateHash3Loop_spec {absPos count : Nat} (hs : Sound t)
    (h : t.updateHash3Loop absPos count = some t') :
    Sound t' ∧ SameFrame t t' ∧ (t.canSkipRebaseCheck absPos = true → Keeps t t') := by
  induction count generalizing t with
  | zero =>
    cases h
    exact ⟨hs, SameFrame.refl _, fun _ => Keeps.refl _⟩
  | succ count ih =>
    rw [updateHash3Loop, Option.bind_eq_some_iff] at h
    obtain ⟨r, hr, h⟩ := h
    have hg : Sound r ∧ SameFrame t r ∧ (t.canSkipRebaseCheck absPos = true → r = t) := by
      split at hr
      · cases hr
        exact ⟨hs, SameFrame.refl _, fun _ => rfl⟩
      · rename_i hc
        obtain ⟨hs', hf, -⟩ := maybeRebasePositions_spec hs hr
        exact ⟨hs', hf, fun hc' => absurd hc' hc⟩
    obtain ⟨hsr, hf, hsame⟩ := hg
    have hk := (r.insertHash3OnlyNoRebase_keeps r.nextToUpdate3).trans
      (setNextToUpdate3_keeps _ ((r.insertHash3OnlyNoRebase r.nextToUpdate3).nextToUpdate3 + 1))
    obtain ⟨hs', hf', hk'⟩ :=
      ih ((hsr.insertHash3OnlyNoRebase r.nextToUpdate3).setNextToUpdate3 _) h
    refine ⟨hs', hf.trans (hk.toSameFrame.trans hf'), ?_⟩
    intro hc
    cases hsame hc
    exact hk.trans (hk' (by rw [hk.canSkip]; exact hc))

theorem updateHash3Until_spec {absPos : Nat} (hs : Sound t)
    (h : t.updateHash3Until absPos = some t') :
    Sound t' ∧ SameFrame t t' ∧ (t.canSkipRebaseCheck absPos = true → Keeps t t') := by
  unfold updateHash3Until at h
  have hs' := hs.setNextToUpdate3 (max t.nextToUpdate3 t.floor)
  have hk := t.setNextToUpdate3_keeps (max t.nextToUpdate3 t.floor)
  generalize t.setNextToUpdate3 (max t.nextToUpdate3 t.floor) = r at *
  dsimp only at h
  split at h
  · cases h
    exact ⟨hs', hk.toSameFrame, fun _ => hk⟩
  · split at h
    · rename_i hr
      cases h
      obtain ⟨hf, hk'⟩ := fillHash3Hoisted_spec hs' hr
      exact ⟨hf, (hk.trans hk').toSameFrame, fun _ => hk.trans hk'⟩
    · obtain ⟨hf, hsame, hk'⟩ := updateHash3Loop_spec hs' h
      exact ⟨hf, hk.toSameFrame.trans hsame, fun hc => hk.trans (hk' (by rw [hk.canSkip]; exact hc))⟩

theorem le_btInsertRange (t : MatchTable) (p stop endAbs target : Nat) :
    p ≤ (t.btInsertRange p stop endAbs target).2 := by
  induction hn : stop - p using Nat.strong_induction_on generalizing t p with
  | _ n ih =>
    rw [btInsertRange]
    split
    · refine Nat.le_trans ?_ (ih (stop - (p + max (t.btInsert p endAbs target).2 1)) (by omega)
        _ _ rfl)
      omega
    · exact Nat.le_refl p

theorem btUpdateTreeLoop_spec {updateAbs absPos endAbs rounds : Nat} (hs : Sound t)
    (hf : t.floor ≤ updateAbs)
    (h : t.btUpdateTreeLoop updateAbs absPos endAbs rounds = some t') :
    Sound t' ∧ SameFrame t t' := by
  induction rounds generalizing t updateAbs with
  | zero =>
    cases h
    exact ⟨hs, SameFrame.refl _⟩
  | succ rounds ih =>
    rw [btUpdateTreeLoop] at h
    split at h
    · rename_i hlt
      obtain ⟨r, hr, h⟩ := Option.bind_eq_some_iff.mp h
      obtain ⟨hsr, hfr, hc, -⟩ := rebaseGuard_spec hs (Nat.le_of_lt hlt) hr
      obtain ⟨hs', hk⟩ := @btInsertRange_spec r updateAbs (updateAbs + 1) hsr endAbs absPos
        (hfr.floor ▸ hf)
        (fun x hx hxs he => by
          have hxu : x = updateAbs := by omega
          rw [hfr.window] at he
          rw [hxu]
          exact hc (by omega))
      have hle := r.le_btInsertRange updateAbs (updateAbs + 1) endAbs absPos
      obtain ⟨hs'', hf'⟩ := ih hs' (by rw [hk.floor, hfr.floor]; omega) h
      exact ⟨hs'', hfr.trans (hk.toSameFrame.trans hf')⟩
    · cases h
      exact ⟨hs, SameFrame.refl _⟩

/-- The tree brought up to `absPos`; no rebase where the target is representable. -/
theorem btUpdateTreeUntil_spec {absPos endAbs : Nat} (hs : Sound t)
    (h : t.btUpdateTreeUntil absPos endAbs = some t') :
    Sound t' ∧ SameFrame t t' ∧ (t.canSkipRebaseCheck absPos = true → Keeps t t') := by
  unfold btUpdateTreeUntil at h
  obtain ⟨r, hr, rfl⟩ := Option.map_eq_some_iff.mp h
  have hk := t.setSkipInsertUntilAbs_keeps (max t.skipInsertUntilAbs t.floor)
  have hs' := hs.setSkipInsertUntilAbs (max t.skipInsertUntilAbs t.floor)
  have hle : t.floor ≤ (t.setSkipInsertUntilAbs (max t.skipInsertUntilAbs t.floor)).skipInsertUntilAbs
    := Nat.le_max_right _ _
  generalize t.setSkipInsertUntilAbs (max t.skipInsertUntilAbs t.floor) = u at *
  have hset := r.setSkipInsertUntilAbs_keeps absPos
  suffices hgoal : Sound r ∧ SameFrame u r ∧ (u.canSkipRebaseCheck absPos = true → Keeps u r) by
    obtain ⟨hsr, hf, hkr⟩ := hgoal
    refine ⟨hsr.setSkipInsertUntilAbs _, hk.toSameFrame.trans (hf.trans hset.toSameFrame), ?_⟩
    intro hc
    exact hk.trans ((hkr (by rw [hk.canSkip]; exact hc)).trans hset)
  split at hr
  · split at hr
    · rename_i hc
      cases hr
      obtain ⟨h1, h2⟩ := btInsertRange_spec hs' endAbs absPos
        (hk.floor ▸ hle) (fun x _ hx _ => canSkipRebaseCheck_mono hc (Nat.le_of_lt hx))
      exact ⟨h1, h2.toSameFrame, fun _ => h2⟩
    · rename_i hc
      obtain ⟨h1, h2⟩ := btUpdateTreeLoop_spec hs' (hk.floor ▸ hle) hr
      exact ⟨h1, h2, fun hc' => absurd hc' hc⟩
  · cases hr
    exact ⟨hs', SameFrame.refl _, fun _ => Keeps.refl _⟩

theorem backfillBoundaryPositions_spec {startAbs endAbs : Nat} (hs : Sound t)
    (h : t.backfillBoundaryPositions startAbs endAbs = some t') :
    Sound t' ∧ SameFrame t t' ∧ (t.canSkipRebaseCheck startAbs = true → Keeps t t') := by
  unfold backfillBoundaryPositions at h
  split at h
  · exact btUpdateTreeUntil_spec hs h
  · cases h
    exact ⟨hs, SameFrame.refl _, fun _ => Keeps.refl _⟩

theorem applyLimitedUpdate_spec (hs : Sound t) (startAbs : Nat) :
    Sound (t.applyLimitedUpdateAfterLongMatch startAbs) ∧
      Keeps t (t.applyLimitedUpdateAfterLongMatch startAbs) := by
  unfold applyLimitedUpdateAfterLongMatch
  dsimp only
  split
  · exact ⟨hs.setSkipInsertUntilAbs _, t.setSkipInsertUntilAbs_keeps _⟩
  · exact ⟨hs, Keeps.refl t⟩

/-- Arming clears every position of the block. -/
theorem armBlockPositions_spec (hs : Sound t) (hne : t.floor < t.window.historyAbsEnd)
    (h : t.armBlockPositions t.window.historyAbsEnd = some t') :
    Sound t' ∧ SameFrame t t' ∧
      ∀ x, x < t.window.historyAbsEnd → t'.canSkipRebaseCheck x = true := by
  have hb := hs.base_le
  unfold armBlockPositions at h
  split at h
  · omega
  · split at h
    · rename_i hc
      cases h
      exact ⟨hs, SameFrame.refl _, fun x hx => canSkipRebaseCheck_mono hc (by omega)⟩
    · obtain ⟨hs', hf, hb', h0⟩ := rebasePositionsCold_spec hs h
      refine ⟨hs', hf, ?_⟩
      intro x hx
      apply canSkip_of_floor hs' _ h0
      · rw [hf.window]
        omega
      · rw [hb', hf.floor]

end MatchTable

end Encoding
