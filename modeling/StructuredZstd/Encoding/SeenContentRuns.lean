import StructuredZstd.Encoding.SeenContent

namespace Encoding

open SeenSample (unpack unpack_pack)

namespace SeenContentGrid

section Walk

variable {σ τ : Type} {record : Nat → σ → σ} {recordₑ : Nat → τ → τ} {probe : Nat → σ → Bool}
  {probeₑ : Nat → τ → Bool} {R : σ → τ → Prop} {frameOffset origin last : Nat}

theorem recordBelow_of_lt {stop abs : Nat} (h : abs < stop) (g : σ) :
    recordBelow record frameOffset stop abs g =
      recordBelow record frameOffset stop (abs + recordStep) (record (abs - frameOffset) g) := by
  rw [recordBelow, if_pos h]

theorem recordBelow_of_le {stop abs : Nat} (h : stop ≤ abs) (g : σ) :
    recordBelow record frameOffset stop abs g = (abs, g) := by
  rw [recordBelow, if_neg (Nat.not_lt.mpr h)]

theorem recordBelow_related
    (hrecord : ∀ p g e, p ≤ last → recordStep ∣ frameOffset + p → R g e →
      R (record p g) (recordₑ p e))
    (stop : Nat) (hstop : stop ≤ frameOffset + last + 1) (abs : Nat) (g : σ) (e : τ)
    (habs : frameOffset ≤ abs) (hdvd : recordStep ∣ abs) (h : R g e) :
    (recordBelow recordₑ (frameOffset + origin) (stop + origin) (abs + origin) e).1 =
        (recordBelow record frameOffset stop abs g).1 + origin ∧
      R (recordBelow record frameOffset stop abs g).2
        (recordBelow recordₑ (frameOffset + origin) (stop + origin) (abs + origin) e).2 ∧
      frameOffset ≤ (recordBelow record frameOffset stop abs g).1 ∧
      recordStep ∣ (recordBelow record frameOffset stop abs g).1 := by
  induction abs, g using recordBelow.induct record frameOffset stop generalizing e with
  | case1 abs g hlt ih =>
    rw [recordBelow_of_lt hlt, recordBelow_of_lt (Nat.add_lt_add_right hlt origin),
      Nat.add_sub_add_right, Nat.add_right_comm abs origin recordStep]
    refine ih _ (by omega) ((Nat.dvd_add_right hdvd).mpr (Nat.dvd_refl _)) ?_
    apply hrecord _ _ _ (by omega) _ h
    rwa [Nat.add_sub_cancel' habs]
  | case2 abs g hlt =>
    have hle : stop ≤ abs := Nat.not_lt.mp hlt
    rw [recordBelow_of_le hle, recordBelow_of_le (Nat.add_le_add_right hle origin)]
    exact ⟨rfl, h, habs, hdvd⟩

/-- How two walks stand to one another: the second is the origin ahead. -/
structure WalksAs (R : σ → τ → Prop) (frameOffset origin : Nat) (same : Prop) (w : Walked σ)
    (v : Walked τ) : Prop where
  abs_eq : v.abs = w.abs + origin
  abs_le : frameOffset ≤ w.abs
  abs_dvd : recordStep ∣ w.abs
  grid : R w.grid v.grid
  repeats : same → v.repeats = w.repeats

theorem WalksAs.walkRun {same : Prop} {asks : Bool}
    (hrecord : ∀ p g e, p ≤ last → recordStep ∣ frameOffset + p → R g e →
      R (record p g) (recordₑ p e))
    (hprobe : same → asks = true → ∀ p g e, R g e → probeₑ p e = probe p g)
    (hzero : origin ≠ 0 → frameOffset ≠ 0) {run spacing runs : Nat} (idx : Nat)
    {w : Walked σ} {v : Walked τ} (h : WalksAs R frameOffset origin same w v) :
    WalksAs R frameOffset origin same
      (SeenContentGrid.walkRun record probe frameOffset last run spacing runs asks w idx)
      (SeenContentGrid.walkRun recordₑ probeₑ (frameOffset + origin) last run spacing runs asks v
        idx) := by
  have hend : frameOffset + origin + last + 1 = frameOffset + last + 1 + origin := by omega
  have hmin : min (frameOffset + origin + idx * spacing) (frameOffset + last + 1 + origin) =
      min (frameOffset + idx * spacing) (frameOffset + last + 1) + origin := by omega
  obtain ⟨habs, hgrid, hle, hdvd⟩ := recordBelow_related hrecord
    (min (frameOffset + idx * spacing) (frameOffset + last + 1)) (Nat.min_le_right _ _)
    w.abs w.grid v.grid h.abs_le h.abs_dvd h.grid
  obtain ⟨habs', hgrid', hle', hdvd'⟩ := recordBelow_related hrecord
    (frameOffset + last + 1) (Nat.le_refl _) _ _ _ hle hdvd hgrid
  have hrepeats : same → (SeenContentGrid.walkRun recordₑ probeₑ (frameOffset + origin) last run
        spacing runs asks v idx).repeats =
      (SeenContentGrid.walkRun record probe frameOffset last run spacing runs asks w
        idx).repeats := by
    intro hsame
    cases asks with
    | false => simp [SeenContentGrid.walkRun, h.repeats hsame]
    | true =>
      have hnonzero : frameOffset + origin ≠ 0 ↔ frameOffset ≠ 0 := by omega
      have hany : (fun p => probeₑ p (recordBelow recordₑ (frameOffset + origin)
          (min (frameOffset + idx * spacing) (frameOffset + last + 1) + origin) (w.abs + origin)
          v.grid).2) =
          (fun p => probe p (recordBelow record frameOffset
            (min (frameOffset + idx * spacing) (frameOffset + last + 1)) w.abs w.grid).2) := by
        funext p
        exact hprobe hsame rfl p _ _ hgrid
      simp only [SeenContentGrid.walkRun, hend, hmin, h.abs_eq, h.repeats hsame, hnonzero, hany]
  by_cases hlast : idx + 1 = runs
  · constructor
    · simpa only [SeenContentGrid.walkRun, hend, hmin, h.abs_eq, if_pos hlast, habs] using habs'
    · simpa only [SeenContentGrid.walkRun, if_pos hlast] using hle'
    · simpa only [SeenContentGrid.walkRun, if_pos hlast] using hdvd'
    · simpa only [SeenContentGrid.walkRun, hend, hmin, h.abs_eq, if_pos hlast, habs] using hgrid'
    · exact hrepeats
  · constructor
    · simpa only [SeenContentGrid.walkRun, hend, hmin, h.abs_eq, if_neg hlast] using habs
    · simpa only [SeenContentGrid.walkRun, if_neg hlast] using hle
    · simpa only [SeenContentGrid.walkRun, if_neg hlast] using hdvd
    · simpa only [SeenContentGrid.walkRun, hend, hmin, h.abs_eq, if_neg hlast] using hgrid
    · exact hrepeats

theorem walkBlock_related {same : Prop} {len : Nat} {asks : Bool} (horigin : recordStep ∣ origin)
    (hrecord : ∀ p g e, p ≤ len - keyLen → recordStep ∣ frameOffset + p → R g e →
      R (record p g) (recordₑ p e))
    (hprobe : same → asks = true → ∀ p g e, R g e → probeₑ p e = probe p g)
    (hzero : origin ≠ 0 → frameOffset ≠ 0) {g : σ} {e : τ} (h : R g e) :
    WalksAs R frameOffset origin same (walkBlock record probe frameOffset len asks g)
      (walkBlock recordₑ probeₑ (frameOffset + origin) len asks e) := by
  unfold walkBlock
  generalize (len + max (len / probeFraction) (16 * min probeRun (max (len / 16) 8)) - 1) /
    max (len / probeFraction) (16 * min probeRun (max (len / 16) 8)) = runs
  have hfold : ∀ (l : List Nat) (w : Walked σ) (v : Walked τ),
      WalksAs R frameOffset origin same w v → ∀ runs, WalksAs R frameOffset origin same
        (l.foldl (walkRun record probe frameOffset (len - keyLen)
          (min probeRun (max (len / 16) 8))
          (max (len / probeFraction) (16 * min probeRun (max (len / 16) 8))) runs asks) w)
        (l.foldl (walkRun recordₑ probeₑ (frameOffset + origin) (len - keyLen)
          (min probeRun (max (len / 16) 8))
          (max (len / probeFraction) (16 * min probeRun (max (len / 16) 8))) runs asks) v) := by
    intro l
    induction l with
    | nil => exact fun _ _ hw _ => hw
    | cons idx l ih =>
      intro w v hw runs
      exact ih _ _ (hw.walkRun hrecord hprobe hzero idx) runs
  apply hfold
  obtain ⟨k, rfl⟩ := horigin
  constructor
  · simp only [recordStep]
    omega
  · simp only [recordStep]
    omega
  · exact Nat.dvd_mul_left _ _
  · exact h
  · exact fun _ => rfl

end Walk

theorem recordStep_eq : recordStep = 512 := rfl

theorem rebaseRetainBytes_eq : rebaseRetainBytes = 2147483648 := rfl

/-- A live slot is the record of this frame, its step counted from the origin; a record that no
live slot holds is of an earlier frame, or was left behind by more than a rebase keeps. -/
structure Held (origin top now epoch frame word tag : Nat) (cell : Option SeenRecord) : Prop where
  epoch_le : (unpack word).epoch ≤ epoch
  frame_le : ∀ r, cell = some r → r.frame ≤ frame
  live : (unpack word).epoch = epoch → ∃ r, cell = some r ∧ r.tag = tag ∧
    r.fingerprint = (unpack word).fingerprint ∧ r.frame = frame ∧
    r.offset = (unpack word).atStep * recordStep + origin ∧
    (unpack word).atStep * recordStep ≤ top
  dropped : (unpack word).epoch ≠ epoch → ∀ r, cell = some r → r.frame = frame →
    r.offset < origin ∧ r.offset + rebaseRetainBytes < now

variable {origin top now epoch frame word tag : Nat} {cell : Option SeenRecord}

theorem Held.later {top' now' : Nat} (h : Held origin top now epoch frame word tag cell)
    (htop : top ≤ top') (hnow : now ≤ now') : Held origin top' now' epoch frame word tag cell where
  epoch_le := h.epoch_le
  frame_le := h.frame_le
  live := by
    intro he
    obtain ⟨r, hr, ht, hf, hfr, ho, hle⟩ := h.live he
    exact ⟨r, hr, ht, hf, hfr, ho, Nat.le_trans hle htop⟩
  dropped := by
    intro he r hr hfr
    obtain ⟨hlt, hfar⟩ := h.dropped he r hr hfr
    exact ⟨hlt, Nat.lt_of_lt_of_le hfar hnow⟩

/-- An empty slot under a running epoch. -/
theorem Held.empty (hepoch : 0 < epoch)
    (hold : ∀ r, cell = some r → r.frame < frame) : Held origin top now epoch frame 0 tag cell where
  epoch_le := Nat.zero_le _
  frame_le := fun r hr => Nat.le_of_lt (hold r hr)
  live := fun he => absurd he (Nat.ne_of_lt hepoch)
  dropped := fun _ r hr hfr => absurd hfr (Nat.ne_of_lt (hold r hr))

theorem Held.nextFrame {origin' top' now' : Nat}
    (h : Held origin top now epoch frame word tag cell) :
    Held origin' top' now' (epoch + 1) (frame + 1) word tag cell where
  epoch_le := Nat.le_succ_of_le h.epoch_le
  frame_le := fun r hr => Nat.le_succ_of_le (h.frame_le r hr)
  live := fun he => absurd he (Nat.ne_of_lt (Nat.lt_succ_of_le h.epoch_le))
  dropped := fun _ r hr hfr => absurd hfr (Nat.ne_of_lt (Nat.lt_succ_of_le (h.frame_le r hr)))

theorem Held.made {key fingerprint p frameOffset : Nat} (hepoch : epoch < 2 ^ 16)
    (hf : fingerprint < 2 ^ 16) (hdvd : recordStep ∣ frameOffset + p)
    (htop : frameOffset + p ≤ top) (hfits : frameOffset + p < 2 ^ 41) (hkey : tag = key) :
    Held origin top now epoch frame
      (SeenSample.pack ⟨fingerprint, epoch, (frameOffset + p) / recordStep % 2 ^ 32⟩) tag
      (some ⟨key, fingerprint, frame, frameOffset + origin + p⟩) := by
  have hsteps : (frameOffset + p) / recordStep < 2 ^ 32 := by
    rw [recordStep_eq]
    omega
  have hback : (frameOffset + p) / recordStep * recordStep = frameOffset + p :=
    Nat.div_mul_cancel hdvd
  have hunpack : unpack
      (SeenSample.pack ⟨fingerprint, epoch, (frameOffset + p) / recordStep % 2 ^ 32⟩) =
      ⟨fingerprint, epoch, (frameOffset + p) / recordStep⟩ := by
    rw [Nat.mod_eq_of_lt hsteps, unpack_pack hf hepoch hsteps]
  constructor
  · simp only [hunpack, Nat.le_refl]
  · rintro r ⟨⟩
    exact Nat.le_refl _
  · intro _
    refine ⟨_, rfl, hkey.symm, ?_, rfl, ?_, ?_⟩
    · simp only [hunpack]
    · simp only [hunpack, hback]
      omega
    · simpa only [hunpack, hback] using htop
  · intro he
    exact absurd (by simp only [hunpack]) he

/-- The origin moves by `base` steps and the record keeps its offset in the stream. -/
theorem Held.rebase (base : Nat) (h : Held origin top now epoch frame word tag cell)
    (hepoch : epoch < 2 ^ 16) (hpos : 0 < epoch)
    (hfar : base * recordStep + origin + rebaseRetainBytes ≤ now) :
    Held (origin + base * recordStep) (top - base * recordStep) now epoch frame
      (rebaseSlot epoch base word tag).1 (rebaseSlot epoch base word tag).2 cell := by
  unfold rebaseSlot
  by_cases he : (unpack word).epoch = epoch
  · obtain ⟨r, hr, ht, hf, hfr, ho, hle⟩ := h.live he
    rw [if_neg (not_not_intro he)]
    by_cases hkept : base ≤ (unpack word).atStep
    · have hunpack : unpack (SeenSample.pack
          { unpack word with atStep := (unpack word).atStep - base }) =
          { unpack word with atStep := (unpack word).atStep - base } := by
        apply unpack_pack
        · exact SeenSample.unpack_fingerprint_lt word
        · exact he ▸ hepoch
        · exact Nat.lt_of_le_of_lt (Nat.sub_le _ _) (SeenSample.unpack_atStep_lt word)
      have hmul : ((unpack word).atStep - base) * recordStep + base * recordStep =
          (unpack word).atStep * recordStep := by
        rw [← Nat.add_mul, Nat.sub_add_cancel hkept]
      rw [if_pos hkept]
      constructor
      · simpa only [hunpack] using h.epoch_le
      · exact h.frame_le
      · intro _
        refine ⟨r, hr, ht, ?_, hfr, ?_, ?_⟩
        · simpa only [hunpack] using hf
        · simp only [hunpack]
          omega
        · simp only [hunpack]
          omega
      · intro hne
        exact absurd (by simpa only [hunpack] using he) hne
    · have hmul : ((unpack word).atStep + 1) * recordStep ≤ base * recordStep :=
        Nat.mul_le_mul_right _ (Nat.lt_of_not_le hkept)
      rw [if_neg hkept]
      constructor
      · exact Nat.zero_le _
      · exact h.frame_le
      · intro h0
        exact absurd h0 (Nat.ne_of_lt hpos)
      · intro _ r' hr' _
        obtain rfl : r' = r := Option.some.inj (hr'.symm.trans hr)
        simp only [recordStep_eq, Nat.add_mul] at *
        omega
  · rw [if_pos he]
    constructor
    · exact h.epoch_le
    · exact h.frame_le
    · intro he'
      exact absurd he' he
    · intro _ r hr hfr
      obtain ⟨hlt, hlast⟩ := h.dropped he r hr hfr
      exact ⟨Nat.lt_add_right _ hlt, hlast⟩

/-- A probe of a slot, as it stands and as the endless grid has it. -/
theorem Held.probe_eq {reach here : Nat} (mark fingerprint : Nat)
    (h : Held origin top now epoch frame word tag cell)
    (hnow : now ≤ here + origin) (hreach : reach ≤ rebaseRetainBytes ∨ origin = 0) :
    (cell.any fun r => decide (r.tag = mark ∧ r.frame = frame ∧ r.fingerprint = fingerprint ∧
      r.offset ≤ here + origin ∧ here + origin - r.offset ≤ reach)) =
    (if tag ≠ mark then false
      else if (unpack word).epoch ≠ epoch ∨ (unpack word).fingerprint ≠ fingerprint then false
      else decide ((unpack word).atStep * recordStep ≤ here ∧
        here - (unpack word).atStep * recordStep ≤ reach)) := by
  by_cases he : (unpack word).epoch = epoch
  · obtain ⟨r, rfl, ht, hf, hfr, ho, -⟩ := h.live he
    have hdist : here + origin - r.offset = here - (unpack word).atStep * recordStep := by omega
    have hle : r.offset ≤ here + origin ↔ (unpack word).atStep * recordStep ≤ here := by omega
    simp only [Option.any_some, hle, hdist, ht, hf, hfr, he]
    by_cases hmark : tag = mark
    · by_cases hfp : (unpack word).fingerprint = fingerprint
      · simp [hmark, hfp]
      · simp [hfp]
    · simp [hmark]
  · have hright : (if tag ≠ mark then false
        else if (unpack word).epoch ≠ epoch ∨ (unpack word).fingerprint ≠ fingerprint then false
        else decide ((unpack word).atStep * recordStep ≤ here ∧
          here - (unpack word).atStep * recordStep ≤ reach)) = false := by simp [he]
    rw [hright]
    cases cell with
    | none => rfl
    | some r =>
      by_cases hfr : r.frame = frame
      · obtain ⟨hlt, hfar⟩ := h.dropped he r rfl hfr
        -- too far back for the reach, and no record is dropped where the origin never moved
        have hmiss : ¬ here + origin - r.offset ≤ reach := by omega
        simp only [Option.any_some, hmiss, and_false, decide_false]
      · simp [hfr]

structure Tracks (origin top : Nat) (g : SeenContentGrid) (e : EndlessGrid) : Prop where
  cells_length : e.cells.length = g.slots.length
  offset : e.frameOffset = g.frameOffset + origin
  origin_dvd : recordStep ∣ origin
  started : origin ≠ 0 → g.frameOffset ≠ 0
  asked : e.asked = g.asked
  epoch_lt : g.epoch < 2 ^ 16
  epoch_pos : g.slots ≠ [] → 0 < g.epoch
  held : ∀ i < g.slots.length, Held origin top e.frameOffset g.epoch e.frame
    (g.slots.getD i 0) (g.tags.getD i 0) (e.cells.getD i none)

/-- The stretch a hit keeps the search on for ends at the same place. -/
def Sticky (origin : Nat) (g : SeenContentGrid) (e : EndlessGrid) : Prop :=
  ∀ t, g.frameOffset < t → (t ≤ g.repeatUntil ↔ t + origin ≤ e.repeatUntil)

variable {g : SeenContentGrid} {e : EndlessGrid}

theorem Tracks.ask (h : Tracks origin top g e) :
    Tracks origin top { g with asked := true } { e with asked := true } where
  cells_length := h.cells_length
  offset := h.offset
  origin_dvd := h.origin_dvd
  started := h.started
  asked := rfl
  epoch_lt := h.epoch_lt
  epoch_pos := h.epoch_pos
  held := h.held

theorem Tracks.advance (h : Tracks origin top g e) {len : Nat} (htop : top ≤ g.frameOffset + len)
    (until_ untilₑ : Nat) :
    Tracks origin (g.frameOffset + len)
      { g with frameOffset := g.frameOffset + len, repeatUntil := until_ }
      { e with frameOffset := e.frameOffset + len, repeatUntil := untilₑ } where
  cells_length := h.cells_length
  offset := by
    show e.frameOffset + len = g.frameOffset + len + origin
    rw [h.offset, Nat.add_right_comm]
  origin_dvd := h.origin_dvd
  started := fun ho => Nat.ne_of_gt (Nat.add_pos_left (Nat.pos_of_ne_zero (h.started ho)) _)
  asked := h.asked
  epoch_lt := h.epoch_lt
  epoch_pos := h.epoch_pos
  held := fun i hi => (h.held i hi).later htop (Nat.le_add_right _ _)

theorem Sticky.advance (h : Sticky origin g e) (len : Nat) :
    Sticky origin { g with frameOffset := g.frameOffset + len }
      { e with frameOffset := e.frameOffset + len } :=
  fun t ht => h t (Nat.lt_of_le_of_lt (Nat.le_add_right _ _) ht)

theorem getD_replicate_eq {α : Type} (n i : Nat) (a : α) : (List.replicate n a).getD i a = a := by
  rw [List.getD_eq_getElem?_getD, List.getElem?_replicate]
  split <;> rfl

theorem getD_set {α : Type} {l : List α} {i j : Nat} (h : i < l.length) (a d : α) :
    (l.set j a).getD i d = if j = i then a else l.getD i d := by
  rw [List.getD_eq_getElem?_getD, List.getElem?_set]
  by_cases hij : j = i
  · subst hij
    simp [h]
  · simp [hij, List.getD_eq_getElem?_getD]

/-- A frame starts on the old frame's slots, none of them its own. -/
theorem Tracks.resetForFrame (h : Tracks origin top g e) :
    Tracks 0 0 g.resetForFrame e.resetForFrame := by
  unfold SeenContentGrid.resetForFrame
  by_cases hwrap : (g.epoch + 1) % 2 ^ 16 = 0
  · simp only [if_pos hwrap]
    constructor
    · show e.cells.length = (List.replicate g.slots.length 0).length
      rw [List.length_replicate, h.cells_length]
    · rfl
    · exact Nat.dvd_zero _
    · exact fun h0 => absurd rfl h0
    · rfl
    · exact Nat.one_lt_two_pow (by simp)
    · exact fun _ => Nat.one_pos
    · intro i hi
      simp only [getD_replicate_eq]
      refine Held.empty Nat.one_pos ?_
      intro r hr
      exact Nat.lt_succ_of_le ((h.held i (by simpa using hi)).frame_le r hr)
  · have hnext : (g.epoch + 1) % 2 ^ 16 = g.epoch + 1 := by
      have := h.epoch_lt
      omega
    simp only [hnext]
    constructor
    · exact h.cells_length
    · rfl
    · exact Nat.dvd_zero _
    · exact fun h0 => absurd rfl h0
    · rfl
    · have := h.epoch_lt
      show g.epoch + 1 < 2 ^ 16
      omega
    · exact fun _ => Nat.succ_pos _
    · exact fun i hi => (h.held i hi).nextFrame

theorem Sticky.resetForFrame : Sticky 0 g.resetForFrame e.resetForFrame := by
  have huntil : g.resetForFrame.repeatUntil = 0 := by
    unfold SeenContentGrid.resetForFrame
    dsimp only
    split <;> rfl
  intro t _
  rw [huntil]
  rfl

theorem resetForFrame_frameOffset : g.resetForFrame.frameOffset = 0 := by
  unfold SeenContentGrid.resetForFrame
  dsimp only
  split <;> rfl

/-- How far the origin moves. -/
def moveOf (g : SeenContentGrid) : Nat :=
  (g.frameOffset / recordStep - rebaseRetainBytes / recordStep) * recordStep

theorem moveOf_add (h : rebaseRetainBytes / recordStep ≤ g.frameOffset / recordStep) :
    g.moveOf + rebaseRetainBytes + g.frameOffset % recordStep = g.frameOffset := by
  simp only [moveOf, rebaseRetainBytes_eq, recordStep_eq] at *
  omega

theorem Tracks.rebase (h : Tracks origin g.frameOffset g e)
    (hfar : rebaseRetainBytes / recordStep ≤ g.frameOffset / recordStep)
    (hfits : g.frameOffset < 2 ^ 41 + keyLen) :
    Tracks (origin + g.moveOf) g.rebaseOffsets.frameOffset g.rebaseOffsets e := by
  have hmove := moveOf_add hfar
  have hmin : min (g.frameOffset / recordStep - rebaseRetainBytes / recordStep) u32Max =
      g.frameOffset / recordStep - rebaseRetainBytes / recordStep := by
    simp only [rebaseRetainBytes_eq, recordStep_eq, u32Max, keyLen] at *
    omega
  unfold rebaseOffsets
  simp only [if_pos hfar, hmin]
  constructor
  · simp [h.cells_length, g.sameLength]
  · show e.frameOffset = g.frameOffset - g.moveOf + (origin + g.moveOf)
    rw [h.offset]
    omega
  · exact (Nat.dvd_add_right h.origin_dvd).mpr (Nat.dvd_mul_left _ _)
  · intro _
    show g.frameOffset - g.moveOf ≠ 0
    rw [rebaseRetainBytes_eq] at hmove
    omega
  · exact h.asked
  · exact h.epoch_lt
  · intro hne
    apply h.epoch_pos
    rintro hnil
    exact hne (by simp [hnil])
  · intro i hi
    have hslot : i < g.slots.length := by simpa [g.sameLength] using hi
    have htag : i < g.tags.length := g.sameLength ▸ hslot
    have hheld := (h.held i hslot).rebase
      (g.frameOffset / recordStep - rebaseRetainBytes / recordStep) h.epoch_lt
      (h.epoch_pos (List.ne_nil_of_length_pos (Nat.zero_lt_of_lt hslot)))
      (by
        show g.moveOf + origin + rebaseRetainBytes ≤ e.frameOffset
        rw [h.offset]
        omega)
    simpa [moveOf, List.getD_eq_getElem?_getD, List.getElem?_zipWith, hslot, htag] using hheld

theorem Sticky.rebase (h : Sticky origin g e)
    (hfar : rebaseRetainBytes / recordStep ≤ g.frameOffset / recordStep) :
    Sticky (origin + g.moveOf) g.rebaseOffsets e := by
  have hmove := moveOf_add hfar
  unfold rebaseOffsets
  simp only [if_pos hfar]
  intro t ht
  have ht : g.frameOffset - g.moveOf < t := ht
  have hold := h (t + g.moveOf) (by omega)
  show t ≤ g.repeatUntil - g.moveOf ↔ t + (origin + g.moveOf) ≤ e.repeatUntil
  rw [Nat.add_comm origin, ← Nat.add_assoc, ← hold]
  omega

theorem rebaseOffsets_frameOffset
    (hfar : rebaseRetainBytes / recordStep ≤ g.frameOffset / recordStep) :
    g.rebaseOffsets.frameOffset + g.moveOf = g.frameOffset := by
  have hmove := moveOf_add hfar
  unfold rebaseOffsets
  simp only [if_pos hfar]
  show g.frameOffset - g.moveOf + g.moveOf = g.frameOffset
  omega

theorem Tracks.grow (h : Tracks origin top g e) (wanted : Nat) :
    Tracks origin top (g.grow wanted) (e.grow wanted) := by
  unfold SeenContentGrid.grow EndlessGrid.grow
  rw [h.cells_length]
  by_cases hwide : g.slots.length < wanted
  · simp only [if_pos hwide]
    constructor
    · simp
    · exact h.offset
    · exact h.origin_dvd
    · exact h.started
    · exact h.asked
    · exact max_lt h.epoch_lt (Nat.one_lt_two_pow (by simp))
    · exact fun _ => Nat.lt_of_lt_of_le Nat.one_pos (Nat.le_max_right _ _)
    · intro i _
      simp only [getD_replicate_eq]
      refine Held.empty (Nat.lt_of_lt_of_le Nat.one_pos (Nat.le_max_right _ _)) ?_
      intro r hr
      cases hr
  · simpa only [if_neg hwide] using h

theorem fingerprint_lt (wide : Bool) (key : Nat) : fingerprint wide key < 2 ^ 16 := by
  unfold fingerprint
  apply Nat.or_lt_two_pow
  · exact Nat.mod_lt _ (Nat.two_pow_pos 16)
  · exact Nat.one_lt_two_pow (Nat.succ_ne_zero 15)

theorem Tracks.recordKey (h : Tracks origin top g e) (hne : g.slots ≠ []) (wide : Bool)
    (block : List UInt8) (mask : Nat) {p : Nat} (hdvd : recordStep ∣ g.frameOffset + p)
    (htop : g.frameOffset + p ≤ top) (hfits : g.frameOffset + p < 2 ^ 41) :
    Tracks origin top (g.recordKey wide block mask p) (e.recordKey wide block mask p) where
  cells_length := by simp [SeenContentGrid.recordKey, EndlessGrid.recordKey, h.cells_length]
  offset := h.offset
  origin_dvd := h.origin_dvd
  started := h.started
  asked := h.asked
  epoch_lt := h.epoch_lt
  epoch_pos := fun _ => h.epoch_pos hne
  held := by
    intro i hi
    have hslot : i < g.slots.length := by
      simpa only [SeenContentGrid.recordKey, List.length_set] using hi
    have htag : i < g.tags.length := g.sameLength ▸ hslot
    have hcell : i < e.cells.length := h.cells_length ▸ hslot
    have hword : (g.recordKey wide block mask p).slots.getD i 0 = _ := getD_set hslot _ 0
    have hmark : (g.recordKey wide block mask p).tags.getD i 0 = _ := getD_set htag _ 0
    have hmade : (e.recordKey wide block mask p).cells.getD i none = _ := getD_set hcell _ none
    rw [hword, hmark, hmade]
    by_cases hi' : (slotAndTag (keyAt block p) mask).1 = i
    · rw [if_pos hi', if_pos hi', if_pos hi', h.offset]
      exact Held.made h.epoch_lt (fingerprint_lt wide _) hdvd htop hfits rfl
    · rw [if_neg hi', if_neg hi', if_neg hi']
      exact h.held i hslot

theorem Tracks.probeKey (h : Tracks origin top g e) (hne : g.slots ≠ []) (wide : Bool)
    (block : List UInt8) {reach : Nat} (hreach : reach ≤ rebaseRetainBytes ∨ origin = 0)
    (p : Nat) :
    e.probeKey wide block reach (g.slots.length - 1) p =
      g.probeKey wide block reach (g.slots.length - 1) p := by
  have hslot : (slotAndTag (keyAt block p) (g.slots.length - 1)).1 < g.slots.length :=
    Nat.lt_of_le_of_lt Nat.and_le_right
      (Nat.sub_lt (List.length_pos_of_ne_nil hne) Nat.one_pos)
  have hhere : e.frameOffset + p = g.frameOffset + p + origin := by
    rw [h.offset, Nat.add_right_comm]
  have heq := (h.held _ hslot).probe_eq (slotAndTag (keyAt block p) (g.slots.length - 1)).2
    (fingerprint wide (keyAt block p)) (hhere ▸ Nat.le_add_right _ p) hreach
  simp only [EndlessGrid.probeKey, SeenContentGrid.probeKey, hhere]
  exact heq

/-- What stays as it was while a block is walked. -/
structure Walking (origin : Nat) (g₀ : SeenContentGrid) (e₀ : EndlessGrid) (last : Nat)
    (g : SeenContentGrid) (e : EndlessGrid) : Prop where
  tracks : Tracks origin (g₀.frameOffset + last) g e
  frameOffset : g.frameOffset = g₀.frameOffset
  repeatUntil : g.repeatUntil = g₀.repeatUntil
  endless : e.repeatUntil = e₀.repeatUntil
  length : g.slots.length = g₀.slots.length

theorem Tracks.walkBlock (h : Tracks origin g.frameOffset g e) (hne : g.slots ≠ []) (wide : Bool)
    {block : List UInt8} (windowSize : Nat) (asks : Bool)
    (hroom : g.frameOffset + (block.length - keyLen) < 2 ^ 41) :
    WalksAs (Walking origin g e (block.length - keyLen)) g.frameOffset origin
      (asks = true → reachOf windowSize ≤ rebaseRetainBytes ∨ origin = 0)
      (SeenContentGrid.walkBlock (SeenContentGrid.recordKey wide block (g.slots.length - 1))
        (SeenContentGrid.probeKey wide block (reachOf windowSize) (g.slots.length - 1))
        g.frameOffset block.length asks g)
      (SeenContentGrid.walkBlock (EndlessGrid.recordKey wide block (e.cells.length - 1))
        (EndlessGrid.probeKey wide block (reachOf windowSize) (e.cells.length - 1))
        e.frameOffset block.length asks e) := by
  rw [h.cells_length, h.offset]
  have hfull : ∀ g' e', Walking origin g e (block.length - keyLen) g' e' → g'.slots ≠ [] := by
    intro g' e' hw hnil
    exact hne (List.length_eq_zero_iff.mp (hw.length ▸ List.length_eq_zero_iff.mpr hnil))
  apply walkBlock_related h.origin_dvd
  · intro p g' e' hp hdvd hw
    refine ⟨?_, hw.frameOffset, hw.repeatUntil, hw.endless, ?_⟩
    · rw [← hw.frameOffset] at hdvd
      apply hw.tracks.recordKey (hfull _ _ hw) wide block _ hdvd
      · rw [hw.frameOffset]
        exact Nat.add_le_add_left hp _
      · rw [hw.frameOffset]
        omega
    · simpa [SeenContentGrid.recordKey] using hw.length
  · intro hsame hasks p g' e' hw
    rw [← hw.length]
    exact hw.tracks.probeKey (hfull _ _ hw) wide block (hsame hasks) p
  · exact h.started
  · refine ⟨?_, rfl, rfl, rfl, rfl⟩
    exact ⟨h.cells_length, h.offset, h.origin_dvd, h.started, h.asked, h.epoch_lt, h.epoch_pos,
      fun i hi => (h.held i hi).later (Nat.le_add_right _ _) (Nat.le_refl _)⟩

/-- After an operation the grid still tracks the endless one, from an origin no lower; and where
the sticky stretches agreed and nothing beyond a rebase's reach was asked, so do the answers. -/
def Follows {α : Type} (origin : Nat) (sticky narrow : Prop) (r : α × SeenContentGrid)
    (rₑ : α × EndlessGrid) : Prop :=
  ∃ origin', origin ≤ origin' ∧ Tracks origin' r.2.frameOffset r.2 rₑ.2 ∧
    r.2.frameOffset < 2 ^ 41 + keyLen ∧
    (sticky → narrow ∨ origin' = 0 → rₑ.1 = r.1 ∧ Sticky origin' r.2 rₑ.2)

theorem rebase_due {len : Nat} (hlen : len ≤ maxBlockSize)
    (hdue : u32Max < (g.frameOffset + len) / recordStep) :
    rebaseRetainBytes / recordStep ≤ g.frameOffset / recordStep := by
  simp only [maxBlockSize, u32Max, rebaseRetainBytes_eq, recordStep_eq] at *
  omega

theorem rebased_lt
    (hfar : rebaseRetainBytes / recordStep ≤ g.frameOffset / recordStep) :
    g.rebaseOffsets.frameOffset < rebaseRetainBytes + recordStep := by
  have hmove := moveOf_add hfar
  have hback := rebaseOffsets_frameOffset hfar
  have hmod : g.frameOffset % recordStep < recordStep := Nat.mod_lt _ (by simp [recordStep_eq])
  omega

theorem Tracks.skipBlock (h : Tracks origin g.frameOffset g e)
    (hfits : g.frameOffset < 2 ^ 41 + keyLen) {len : Nat} (hlen : len ≤ maxBlockSize)
    {α : Type} (a : α) (narrow : Prop) :
    Follows origin (Sticky origin g e) narrow (a, g.skipBlock len) (a, e.skipBlock len) := by
  unfold SeenContentGrid.skipBlock
  by_cases hdue : u32Max < (g.frameOffset + len) / recordStep
  · have hfar := rebase_due hlen hdue
    simp only [if_pos hdue]
    refine ⟨origin + g.moveOf, Nat.le_add_right _ _,
      (h.rebase hfar hfits).advance (Nat.le_add_right _ _) _ _, ?_, ?_⟩
    · have hlt := rebased_lt hfar
      simp only [rebaseRetainBytes_eq, recordStep_eq, maxBlockSize, keyLen] at *
      omega
    · intro hsticky _
      exact ⟨rfl, (hsticky.rebase hfar).advance len⟩
  · simp only [if_neg hdue]
    refine ⟨origin, Nat.le_refl _, h.advance (Nat.le_add_right _ _) _ _, ?_, ?_⟩
    · rw [u32Max, recordStep_eq] at hdue
      show g.frameOffset + len < 2 ^ 41 + 8
      omega
    · intro hsticky _
      exact ⟨rfl, hsticky.advance len⟩

/-- Made ready for a block, the grid has a table and room for each of the block's records. -/
theorem Tracks.makeReady (h : Tracks origin g.frameOffset g e)
    (hfits : g.frameOffset < 2 ^ 41 + keyLen) {len : Nat} (hlen : len ≤ maxBlockSize)
    (windowSize : Nat) :
    ∃ origin', origin ≤ origin' ∧
      Tracks origin' (g.makeReady len windowSize).frameOffset (g.makeReady len windowSize)
        (e.grow (slotsFor windowSize)) ∧
      (g.makeReady len windowSize).slots ≠ [] ∧
      (g.makeReady len windowSize).frameOffset + (len - keyLen) < 2 ^ 41 ∧
      (Sticky origin g e →
        Sticky origin' (g.makeReady len windowSize) (e.grow (slotsFor windowSize))) := by
  have hgrown := h.grow (slotsFor windowSize)
  have hoffset : (g.grow (slotsFor windowSize)).frameOffset = g.frameOffset := by
    unfold SeenContentGrid.grow
    split <;> rfl
  have huntil : (g.grow (slotsFor windowSize)).repeatUntil = g.repeatUntil := by
    unfold SeenContentGrid.grow
    split <;> rfl
  have huntilₑ : (e.grow (slotsFor windowSize)).repeatUntil = e.repeatUntil := by
    unfold EndlessGrid.grow
    split <;> rfl
  have hwide : (g.grow (slotsFor windowSize)).slots ≠ [] := by
    have hpos : 0 < slotsFor windowSize := by
      unfold slotsFor
      split
      · exact Nat.zero_lt_of_lt (Nat.lt_succ_self (64 * 1024 - 1))
      · exact Nat.lt_of_lt_of_le (Nat.zero_lt_of_lt (Nat.lt_succ_self 63)) (Nat.le_max_left _ _)
    intro hnil
    unfold SeenContentGrid.grow at hnil
    split at hnil
    · exact absurd (List.replicate_eq_nil_iff _ |>.mp hnil) (Nat.ne_of_gt hpos)
    · rename_i hle
      rw [hnil] at hle
      exact hle hpos
  have hsticky : Sticky origin g e →
      Sticky origin (g.grow (slotsFor windowSize)) (e.grow (slotsFor windowSize)) := by
    intro hs t ht
    rw [huntil, huntilₑ]
    exact hs t (hoffset ▸ ht)
  rw [← hoffset] at hgrown hfits
  unfold SeenContentGrid.makeReady
  generalize g.grow (slotsFor windowSize) = g' at *
  generalize e.grow (slotsFor windowSize) = e' at *
  have hlast : len - keyLen ≤ maxBlockSize := Nat.le_trans (Nat.sub_le _ _) hlen
  by_cases hdue : u32Max < (g'.frameOffset + (len - keyLen)) / recordStep
  · have hfar := rebase_due hlast hdue
    simp only [if_pos hdue]
    refine ⟨origin + g'.moveOf, Nat.le_add_right _ _, hgrown.rebase hfar hfits, ?_, ?_,
      fun hs => (hsticky hs).rebase hfar⟩
    · unfold rebaseOffsets
      simp only [if_pos hfar]
      apply List.ne_nil_of_length_pos
      have hpos := List.length_pos_of_ne_nil hwide
      simpa [g'.sameLength] using hpos
    · have hlt := rebased_lt hfar
      simp only [rebaseRetainBytes_eq, recordStep_eq, maxBlockSize] at *
      omega
  · simp only [if_neg hdue]
    refine ⟨origin, Nat.le_refl _, hgrown, hwide, ?_, hsticky⟩
    simp only [u32Max, recordStep_eq] at *
    omega

theorem Tracks.takeBlock (h : Tracks origin g.frameOffset g e)
    (hfits : g.frameOffset < 2 ^ 41 + keyLen) (wide : Bool) {block : List UInt8}
    (hlen : block.length ≤ maxBlockSize) (windowSize : Nat) (asks : Bool) :
    Follows origin (Sticky origin g e) (asks = true → reachOf windowSize ≤ rebaseRetainBytes)
      (g.takeBlock wide block windowSize asks) (e.takeBlock wide block windowSize asks) := by
  unfold SeenContentGrid.takeBlock EndlessGrid.takeBlock
  by_cases hshort : block.length < keyLen
  · simp only [if_pos hshort]
    exact h.skipBlock hfits hlen false _
  simp only [if_neg hshort]
  obtain ⟨origin', hle, hready, hne, hroom, hsticky⟩ := h.makeReady hfits hlen windowSize
  have hwalk : WalksAs _ _ _ _ (g.walked wide block windowSize asks)
      (e.walked wide block windowSize asks) :=
    hready.walkBlock hne wide windowSize asks hroom
  generalize g.walked wide block windowSize asks = w at *
  generalize e.walked wide block windowSize asks = v at *
  generalize g.makeReady block.length windowSize = g' at *
  generalize e.grow (slotsFor windowSize) = e' at *
  obtain ⟨-, -, -, hgrid, hrepeats⟩ := hwalk
  have hoffset : v.grid.frameOffset + block.length = w.grid.frameOffset + block.length + origin' := by
    rw [hgrid.tracks.offset, Nat.add_right_comm]
  have hend : g'.frameOffset + (block.length - keyLen) ≤ w.grid.frameOffset + block.length := by
    rw [hgrid.frameOffset]
    omega
  have hlt : w.grid.frameOffset + block.length < 2 ^ 41 + keyLen := by
    rw [hgrid.frameOffset]
    omega
  have hbefore : Sticky origin g e → Sticky origin' w.grid v.grid := by
    intro hs t ht
    rw [hgrid.repeatUntil, hgrid.endless]
    exact hsticky hs t (hgrid.frameOffset ▸ ht)
  refine ⟨origin', hle, ?_, ?_, ?_⟩
  · cases hw : w.repeats <;> cases hv : v.repeats <;>
      simp only [settle_hit, settle_miss, EndlessGrid.settle_hit, EndlessGrid.settle_miss, hw, hv]
    all_goals exact hgrid.tracks.advance hend _ _
  · cases hw : w.repeats <;> simpa only [settle_hit, settle_miss, hw] using hlt
  · intro hs hnarrow
    have hsame : v.repeats = w.repeats := by
      apply hrepeats
      intro hasks
      exact hnarrow.imp (fun hn => hn hasks) id
    cases hw : w.repeats with
    | true =>
      rw [settle_hit hw, EndlessGrid.settle_hit (hsame.trans hw)]
      refine ⟨rfl, ?_⟩
      intro t _
      simp only [hoffset]
      omega
    | false =>
      have hpos : 0 < block.length := Nat.lt_of_lt_of_le (Nat.succ_pos 7) (Nat.not_lt.mp hshort)
      have hstill := hbefore hs _ (Nat.lt_add_of_pos_right hpos)
      rw [settle_miss hw, EndlessGrid.settle_miss (hsame.trans hw)]
      refine ⟨?_, (hbefore hs).advance block.length⟩
      simp only [hoffset]
      exact decide_eq_decide.mpr hstill.symm

namespace Op

/-- The bytes an operation is about. -/
def len : Op → Nat
  | .resetForFrame => 0
  | .recordAndReportRepeat block _ => block.length
  | .recordSearched block _ => block.length
  | .recordUnclassified block _ => block.length
  | .skipRecording len => len

/-- Not a question about content further back than a rebase keeps. -/
def Narrow : Op → Prop
  | .recordAndReportRepeat _ windowSize => reachOf windowSize ≤ rebaseRetainBytes
  | _ => True

end Op

theorem Tracks.step (h : Tracks origin g.frameOffset g e)
    (hfits : g.frameOffset < 2 ^ 41 + keyLen) (wide : Bool) {op : Op}
    (hop : op.len ≤ maxBlockSize) (hreset : op ≠ .resetForFrame) :
    Follows origin (Sticky origin g e) op.Narrow (g.step wide op) (e.step wide op) := by
  have hsearched : ∀ (block : List UInt8) (windowSize : Nat) (g : SeenContentGrid)
      (e : EndlessGrid), Tracks origin g.frameOffset g e → g.frameOffset < 2 ^ 41 + keyLen →
      block.length ≤ maxBlockSize → Follows origin (Sticky origin g e) True
        ((none : Option Bool), (g.takeBlock wide block windowSize false).2)
        ((none : Option Bool), (e.takeBlock wide block windowSize false).2) := by
    intro block windowSize g e h hfits hlen
    obtain ⟨origin', hle, htracks, hlt, hsame⟩ := h.takeBlock hfits wide hlen windowSize false
    refine ⟨origin', hle, htracks, hlt, ?_⟩
    intro hs _
    exact ⟨rfl, (hsame hs (Or.inl (fun hasks => absurd hasks Bool.false_ne_true))).2⟩
  cases op with
  | resetForFrame => exact absurd rfl hreset
  | recordAndReportRepeat block windowSize =>
    have hask : Tracks origin ({ g with asked := true } : SeenContentGrid).frameOffset
      { g with asked := true } { e with asked := true } := h.ask
    obtain ⟨origin', hle, htracks, hlt, hsame⟩ := hask.takeBlock hfits wide hop windowSize true
    refine ⟨origin', hle, htracks, hlt, ?_⟩
    intro hs hnarrow
    obtain ⟨hanswer, hsticky⟩ := hsame hs (hnarrow.imp (fun hn _ => hn) id)
    exact ⟨congrArg some hanswer, hsticky⟩
  | recordSearched block windowSize =>
    simp only [SeenContentGrid.step, EndlessGrid.step, h.asked]
    by_cases hasked : g.asked = true
    · simp only [if_pos hasked]
      exact hsearched block windowSize g e h hfits hop
    · simp only [if_neg hasked]
      exact h.skipBlock hfits hop none _
  | recordUnclassified block windowSize => exact hsearched block windowSize _ _ h.ask hfits hop
  | skipRecording len => exact h.skipBlock hfits hop none _

/-- What a run from a new grid keeps: the endless grid's records from some origin, and while no
rebase has moved the origin of the frame, the endless grid's sticky stretch too. -/
structure Reached (origin : Nat) (g : SeenContentGrid) (e : EndlessGrid) : Prop where
  tracks : Tracks origin g.frameOffset g e
  fits : g.frameOffset < 2 ^ 41 + keyLen
  sticky : origin = 0 → Sticky 0 g e

theorem Reached.new : Reached 0 {} {} where
  tracks :=
    { cells_length := rfl
      offset := rfl
      origin_dvd := Nat.dvd_zero _
      started := fun h => absurd rfl h
      asked := rfl
      epoch_lt := Nat.two_pow_pos 16
      epoch_pos := fun h => absurd rfl h
      held := fun i hi => absurd hi (Nat.not_lt_zero i) }
  fits := Nat.lt_of_lt_of_le (Nat.two_pow_pos 41) (Nat.le_add_right _ _)
  sticky := fun _ _ _ => Iff.rfl

theorem Reached.resetForFrame (h : Reached origin g e) :
    Reached 0 g.resetForFrame e.resetForFrame where
  tracks := resetForFrame_frameOffset (g := g) ▸ h.tracks.resetForFrame
  fits := by
    rw [resetForFrame_frameOffset]
    exact Nat.lt_of_lt_of_le (Nat.two_pow_pos 41) (Nat.le_add_right _ _)
  sticky := fun _ => Sticky.resetForFrame

theorem Reached.step (h : Reached origin g e) (wide : Bool) {op : Op}
    (hop : op.len ≤ maxBlockSize) :
    ∃ origin', Reached origin' (g.step wide op).2 (e.step wide op).2 := by
  by_cases hreset : op = .resetForFrame
  · subst hreset
    exact ⟨0, h.resetForFrame⟩
  · obtain ⟨origin', hle, htracks, hlt, hsame⟩ := h.tracks.step h.fits wide hop hreset
    refine ⟨origin', htracks, hlt, ?_⟩
    intro h0
    subst h0
    have horigin : origin = 0 := Nat.le_zero.mp hle
    subst horigin
    exact (hsame (h.sticky rfl) (Or.inr rfl)).2

theorem Reached.run (h : Reached origin g e) (wide : Bool) {ops : List Op}
    (hops : ∀ op ∈ ops, op.len ≤ maxBlockSize) :
    ∃ origin', Reached origin' (g.run wide ops) (e.run wide ops) := by
  induction ops generalizing origin g e with
  | nil => exact ⟨origin, h⟩
  | cons op ops ih =>
    obtain ⟨origin', h'⟩ := h.step wide (hops op List.mem_cons_self)
    exact ih h' (fun op' hop' => hops op' (List.mem_cons_of_mem _ hop'))

/-- From agreeing sticky stretches, narrow questions are answered the same for good. -/
theorem Reached.answers_eq (h : Reached origin g e) (hs : Sticky origin g e) (wide : Bool)
    {ops : List Op} (hops : ∀ op ∈ ops, op.len ≤ maxBlockSize ∧ op.Narrow) :
    e.answers wide ops = g.answers wide ops := by
  induction ops generalizing origin g e with
  | nil => rfl
  | cons op ops ih =>
    obtain ⟨hop, hnarrow⟩ := hops op List.mem_cons_self
    have hrest := fun op' hop' => hops op' (List.mem_cons_of_mem op hop')
    unfold EndlessGrid.answers SeenContentGrid.answers
    by_cases hreset : op = .resetForFrame
    · subst hreset
      exact congrArg (none :: ·) (ih h.resetForFrame Sticky.resetForFrame hrest)
    · obtain ⟨origin', hle, htracks, hlt, hsame⟩ := h.tracks.step h.fits wide hop hreset
      obtain ⟨hanswer, hs'⟩ := hsame hs (Or.inl hnarrow)
      rw [hanswer, ih ⟨htracks, hlt, fun h0 => h0 ▸ hs'⟩ hs' hrest]

theorem Tracks.stickyAs (h : Tracks origin top g e) : Sticky origin g (e.stickyAs g) := by
  intro t _
  have hoffset := h.offset
  simp only [EndlessGrid.stickyAs]
  omega

theorem Reached.stickyAs (h : Reached origin g e) : Reached origin g (e.stickyAs g) where
  tracks :=
    { cells_length := h.tracks.cells_length
      offset := h.tracks.offset
      origin_dvd := h.tracks.origin_dvd
      started := h.tracks.started
      asked := h.tracks.asked
      epoch_lt := h.tracks.epoch_lt
      epoch_pos := h.tracks.epoch_pos
      held := h.tracks.held }
  fits := h.fits
  sticky := fun h0 => h0 ▸ h.tracks.stickyAs

/-- A slot of the frame in progress, and the sample in it. -/
def Live (g : SeenContentGrid) (i : Nat) (s : SeenSample) : Prop :=
  g.slots[i]?.map unpack = some s ∧ s.epoch = g.epoch

theorem Reached.live (h : Reached origin g e) {i : Nat} {s : SeenSample} (hlive : g.Live i s) :
    s.atStep * recordStep ≤ g.frameOffset ∧
    ∃ r, e.cells[i]? = some (some r) ∧ r.frame = e.frame ∧ r.fingerprint = s.fingerprint ∧
      r.offset + g.frameOffset = s.atStep * recordStep + e.frameOffset := by
  obtain ⟨hslot, hepoch⟩ := hlive
  obtain ⟨word, hword, rfl⟩ := Option.map_eq_some_iff.mp hslot
  have hi : i < g.slots.length := (List.getElem?_eq_some_iff.mp hword).1
  have hcell : i < e.cells.length := h.tracks.cells_length ▸ hi
  have hheld := h.tracks.held i hi
  have hw : g.slots.getD i 0 = word := by simp [hword]
  have hc : e.cells.getD i none = e.cells[i] := by simp [hcell]
  rw [hw, hc] at hheld
  obtain ⟨r, hr, -, hf, hfr, ho, hle⟩ := hheld.live hepoch
  refine ⟨hle, r, ?_, hfr, hf, ?_⟩
  · rw [List.getElem?_eq_getElem hcell, hr]
  · rw [ho, h.tracks.offset]
    omega

theorem Reached.finds_eq (h : Reached origin g e) (wide : Bool) {block : List UInt8}
    (hlen : block.length ≤ maxBlockSize) {windowSize : Nat}
    (hreach : reachOf windowSize ≤ rebaseRetainBytes) (asks : Bool) :
    (g.walked wide block windowSize asks).repeats =
      (e.walked wide block windowSize asks).repeats := by
  obtain ⟨origin', -, hready, hne, hroom, -⟩ := h.tracks.makeReady h.fits hlen windowSize
  have hwalk := hready.walkBlock hne wide windowSize asks hroom
  exact (hwalk.repeats (fun _ => Or.inl hreach)).symm

section OneKey

variable {σ : Type} (record : Nat → σ → σ) (probe : Nat → σ → Bool) {frameOffset : Nat}

/-- A block of one key at the start of a frame. -/
theorem walkBlock_first (asks : Bool) (g : σ) :
    (walkBlock record probe 0 keyLen asks g).repeats = false ∧
      (walkBlock record probe 0 keyLen asks g).grid = record 0 g := by
  have hwalk : walkBlock record probe 0 keyLen asks g =
      walkRun record probe 0 0 8 128 1 asks ⟨0, false, g⟩ 0 := rfl
  rw [hwalk]
  constructor
  · simp [walkRun]
  · have hlate : 1 ≤ recordStep := Nat.le_add_left 1 511
    simp [walkRun, recordBelow_of_le (Nat.le_refl 0), recordBelow_of_lt Nat.one_pos,
      recordBelow_of_le hlate]

/-- A block of one key off the grid: one probe and no record. -/
theorem walkBlock_between (hoff : ¬ recordStep ∣ frameOffset) (g : σ) :
    (walkBlock record probe frameOffset keyLen true g).repeats = probe 0 g ∧
      (walkBlock record probe frameOffset keyLen true g).grid = g := by
  have hwalk : walkBlock record probe frameOffset keyLen true g =
      walkRun record probe frameOffset 0 8 128 1 true
        ⟨(frameOffset + recordStep - 1) / recordStep * recordStep, false, g⟩ 0 := rfl
  have hzero : frameOffset ≠ 0 := fun h0 => hoff (h0 ▸ Nat.dvd_zero _)
  have hpast : frameOffset + 1 ≤ (frameOffset + recordStep - 1) / recordStep * recordStep := by
    rw [recordStep_eq] at *
    omega
  rw [hwalk]
  constructor
  · simp [walkRun, recordBelow_of_le (Nat.le_of_succ_le hpast), hzero]
  · simp [walkRun, recordBelow_of_le (Nat.le_of_succ_le hpast), recordBelow_of_le hpast]

end OneKey

theorem run_skips (wide : Bool) {len n : Nat} (h : g.frameOffset + n * len < 2 ^ 41) :
    g.run wide (List.replicate n (.skipRecording len)) =
      { g with frameOffset := g.frameOffset + n * len } := by
  induction n generalizing g with
  | zero => simp [run]
  | succ n ih =>
    have hstep : (g.step wide (.skipRecording len)).2 =
        { g with frameOffset := g.frameOffset + len } := by
      have hroom : ¬ u32Max < (g.frameOffset + len) / recordStep := by
        rw [u32Max, recordStep_eq]
        rw [Nat.add_mul] at h
        omega
      simp only [step, skipBlock, if_neg hroom]
    rw [List.replicate_succ]
    show SeenContentGrid.run wide (g.step wide (.skipRecording len)).2 _ = _
    rw [hstep, ih]
    · simp only [Nat.add_mul, Nat.one_mul, Nat.add_assoc, Nat.add_comm len]
    · show g.frameOffset + len + n * len < 2 ^ 41
      rw [Nat.add_mul] at h
      omega

theorem endless_skips (wide : Bool) (len n : Nat) :
    e.run wide (List.replicate n (.skipRecording len)) =
      { e with frameOffset := e.frameOffset + n * len } := by
  induction n generalizing e with
  | zero => simp [EndlessGrid.run]
  | succ n ih =>
    rw [List.replicate_succ]
    show EndlessGrid.run wide (e.skipBlock len) _ = _
    rw [ih]
    simp only [EndlessGrid.skipBlock, Nat.add_mul, Nat.one_mul, Nat.add_assoc, Nat.add_comm len]

/-- The grid asked about a block of one key off the grid's own points. -/
theorem takeBlock_between (wide : Bool) {block : List UInt8} (hlen : block.length = keyLen)
    {windowSize : Nat} (hgrown : slotsFor windowSize ≤ g.slots.length)
    (hoff : ¬ recordStep ∣ g.frameOffset) (hroom : g.frameOffset < 2 ^ 41) :
    g.takeBlock wide block windowSize true =
      if g.probeKey wide block (reachOf windowSize) (g.slots.length - 1) 0 then
        (true, { g with
          frameOffset := g.frameOffset + keyLen
          repeatUntil := g.frameOffset + keyLen + stickyReach })
      else (decide (g.frameOffset + keyLen ≤ g.repeatUntil),
        { g with frameOffset := g.frameOffset + keyLen }) := by
  have hready : g.makeReady keyLen windowSize = g := by
    have hnot : ¬ u32Max < (g.frameOffset + (keyLen - keyLen)) / recordStep := by
      rw [u32Max, recordStep_eq]
      omega
    unfold makeReady grow
    simp only [if_neg (Nat.not_lt.mpr hgrown), if_neg hnot]
  obtain ⟨hrepeats, hgrid⟩ := walkBlock_between
    (recordKey wide block (g.slots.length - 1))
    (probeKey wide block (reachOf windowSize) (g.slots.length - 1)) hoff g
  have hwalked : g.walked wide block windowSize true =
      walkBlock (recordKey wide block (g.slots.length - 1))
        (probeKey wide block (reachOf windowSize) (g.slots.length - 1))
        g.frameOffset keyLen true g := by
    simp only [walked, hready, hlen]
  unfold takeBlock
  rw [if_neg (by rw [hlen]; exact Nat.lt_irrefl _), hwalked, hlen]
  cases hprobe : probeKey wide block (reachOf windowSize) (g.slots.length - 1) 0 g with
  | true => simp only [settle_hit (hrepeats.trans hprobe), hgrid, if_true]
  | false =>
    simp only [settle_miss (hrepeats.trans hprobe), hgrid, Bool.false_eq_true, if_false]

theorem endless_between (wide : Bool) {block : List UInt8} (hlen : block.length = keyLen)
    {windowSize : Nat} (hgrown : slotsFor windowSize ≤ e.cells.length)
    (hoff : ¬ recordStep ∣ e.frameOffset) :
    e.takeBlock wide block windowSize true =
      if e.probeKey wide block (reachOf windowSize) (e.cells.length - 1) 0 then
        (true, { e with
          frameOffset := e.frameOffset + keyLen
          repeatUntil := e.frameOffset + keyLen + stickyReach })
      else (decide (e.frameOffset + keyLen ≤ e.repeatUntil),
        { e with frameOffset := e.frameOffset + keyLen }) := by
  have hready : e.grow (slotsFor windowSize) = e := if_neg (Nat.not_lt.mpr hgrown)
  obtain ⟨hrepeats, hgrid⟩ := walkBlock_between
    (EndlessGrid.recordKey wide block (e.cells.length - 1))
    (EndlessGrid.probeKey wide block (reachOf windowSize) (e.cells.length - 1)) hoff e
  have hwalked : e.walked wide block windowSize true =
      walkBlock (EndlessGrid.recordKey wide block (e.cells.length - 1))
        (EndlessGrid.probeKey wide block (reachOf windowSize) (e.cells.length - 1))
        e.frameOffset keyLen true e := by
    simp only [EndlessGrid.walked, hready, hlen]
  unfold EndlessGrid.takeBlock
  rw [if_neg (by rw [hlen]; exact Nat.lt_irrefl _), hwalked, hlen]
  cases hprobe : EndlessGrid.probeKey wide block (reachOf windowSize) (e.cells.length - 1) 0 e with
  | true => simp only [EndlessGrid.settle_hit (hrepeats.trans hprobe), hgrid, if_true]
  | false =>
    simp only [EndlessGrid.settle_miss (hrepeats.trans hprobe), hgrid, Bool.false_eq_true,
      if_false]

/-- A grid with no live slot finds nothing. -/
theorem probeKey_of_dead (hdead : ∀ i s, ¬ g.Live i s) (hne : g.slots ≠ []) (wide : Bool)
    (block : List UInt8) (reach p : Nat) :
    g.probeKey wide block reach (g.slots.length - 1) p = false := by
  have hslot : (slotAndTag (keyAt block p) (g.slots.length - 1)).1 < g.slots.length :=
    Nat.lt_of_le_of_lt Nat.and_le_right
      (Nat.sub_lt (List.length_pos_of_ne_nil hne) Nat.one_pos)
  have hepoch : (unpack (g.slots.getD (slotAndTag (keyAt block p)
      (g.slots.length - 1)).1 0)).epoch ≠ g.epoch := by
    intro he
    refine hdead (slotAndTag (keyAt block p) (g.slots.length - 1)).1 _ ⟨?_, he⟩
    simp [hslot]
  simp only [probeKey, hepoch, ne_eq, not_false_eq_true, true_or, if_true, ite_self]

theorem slotsFor_le (windowSize : Nat) : slotsFor windowSize ≤ maxSlots := by
  unfold slotsFor
  split
  · exact Nat.le_refl _
  · exact max_le (Nat.le_add_left 64 65472) (Nat.min_le_right _ _)

/-- A frame's grid with the widest table, before its first record. -/
def firstGrid : SeenContentGrid where
  slots := List.replicate maxSlots 0
  tags := List.replicate maxSlots 0
  epoch := 1
  asked := true
  sameLength := by simp

theorem takeBlock_first (wide : Bool) {block : List UInt8} (hlen : block.length = keyLen) :
    ({ epoch := 1, asked := true } : SeenContentGrid).takeBlock wide block 0 true =
      (false, { firstGrid.recordKey wide block (maxSlots - 1) 0 with frameOffset := keyLen }) := by
  have hpos : ([] : List Nat).length < maxSlots := Nat.lt_of_lt_of_le Nat.one_pos
    (Nat.le_add_left 1 65535)
  have hnot : ¬ u32Max < (0 + (keyLen - keyLen)) / recordStep := by simp
  have hready : ({ epoch := 1, asked := true } : SeenContentGrid).makeReady keyLen 0 =
      firstGrid := by
    simp only [makeReady, grow, slotsFor, if_true, if_pos hpos, Nat.max_self, if_neg hnot,
      firstGrid]
  have hlength : firstGrid.slots.length = maxSlots := List.length_replicate
  have hoffset : firstGrid.frameOffset = 0 := rfl
  obtain ⟨hrepeats, hgrid⟩ := walkBlock_first
    (recordKey wide block (maxSlots - 1))
    (probeKey wide block u64Max (maxSlots - 1)) true firstGrid
  have hwalked : ({ epoch := 1, asked := true } : SeenContentGrid).walked wide block 0 true =
      walkBlock (recordKey wide block (maxSlots - 1)) (probeKey wide block u64Max (maxSlots - 1))
        0 keyLen true firstGrid := by
    simp only [walked, hlen, hready, hlength, hoffset, reachOf, if_true]
  have hstart : (firstGrid.recordKey wide block (maxSlots - 1) 0).frameOffset = 0 := rfl
  have huntil : (firstGrid.recordKey wide block (maxSlots - 1) 0).repeatUntil = 0 := rfl
  unfold takeBlock
  rw [if_neg (by rw [hlen]; exact Nat.lt_irrefl _), hwalked, hlen, settle_miss hrepeats, hgrid]
  simp only [hstart, huntil, Nat.zero_add, keyLen, Nat.le_zero, OfNat.ofNat_ne_zero, decide_false]

/-- The same for the endless grid. -/
def firstEndless : EndlessGrid where
  cells := List.replicate maxSlots none
  frame := 1
  asked := true

theorem endless_first (wide : Bool) {block : List UInt8} (hlen : block.length = keyLen) :
    ({ frame := 1, asked := true } : EndlessGrid).takeBlock wide block 0 true =
      (false, { firstEndless.recordKey wide block (maxSlots - 1) 0 with
        frameOffset := keyLen }) := by
  have hpos : ([] : List (Option SeenRecord)).length < maxSlots :=
    Nat.lt_of_lt_of_le Nat.one_pos (Nat.le_add_left 1 65535)
  have hready : ({ frame := 1, asked := true } : EndlessGrid).grow (slotsFor 0) =
      firstEndless := by
    simp only [EndlessGrid.grow, slotsFor, if_true, if_pos hpos, firstEndless]
  have hlength : firstEndless.cells.length = maxSlots := List.length_replicate
  have hoffset : firstEndless.frameOffset = 0 := rfl
  have hstart : (firstEndless.recordKey wide block (maxSlots - 1) 0).frameOffset = 0 := rfl
  have huntil : (firstEndless.recordKey wide block (maxSlots - 1) 0).repeatUntil = 0 := rfl
  obtain ⟨hrepeats, hgrid⟩ := walkBlock_first
    (EndlessGrid.recordKey wide block (maxSlots - 1))
    (EndlessGrid.probeKey wide block u64Max (maxSlots - 1)) true firstEndless
  have hwalked : ({ frame := 1, asked := true } : EndlessGrid).walked wide block 0 true =
      walkBlock (EndlessGrid.recordKey wide block (maxSlots - 1))
        (EndlessGrid.probeKey wide block u64Max (maxSlots - 1)) 0 keyLen true firstEndless := by
    simp only [EndlessGrid.walked, hlen, hready, hlength, hoffset, reachOf, if_true]
  unfold EndlessGrid.takeBlock
  rw [if_neg (by rw [hlen]; exact Nat.lt_irrefl _), hwalked, hlen,
    EndlessGrid.settle_miss hrepeats, hgrid]
  simp only [hstart, huntil, Nat.zero_add, keyLen, Nat.le_zero, OfNat.ofNat_ne_zero, decide_false]

/-- A block recorded at the start of a frame, and so many blocks skipped that the last of them
makes the grid move its origin. -/
def skipped (block : List UInt8) : List Op :=
  [.resetForFrame, .recordAndReportRepeat block 0] ++
    (List.replicate (2 ^ 24 - 1) (.skipRecording maxBlockSize) ++ [.skipRecording maxBlockSize])

theorem run_skipped (wide : Bool) {block : List UInt8} (hlen : block.length = keyLen) :
    (run wide {} (skipped block)).frameOffset = rebaseRetainBytes + keyLen + maxBlockSize ∧
      (run wide {} (skipped block)).repeatUntil = 0 ∧
      (run wide {} (skipped block)).slots.length = maxSlots := by
  have hfirst : run wide {} [.resetForFrame, .recordAndReportRepeat block 0] =
      { firstGrid.recordKey wide block (maxSlots - 1) 0 with frameOffset := keyLen } :=
    congrArg Prod.snd (takeBlock_first wide hlen)
  have hlength : (firstGrid.recordKey wide block (maxSlots - 1) 0).slots.length = maxSlots := by
    simp only [recordKey, List.length_set, firstGrid, List.length_replicate]
  have htags := (firstGrid.recordKey wide block (maxSlots - 1) 0).sameLength
  have huntil : (firstGrid.recordKey wide block (maxSlots - 1) 0).repeatUntil = 0 := rfl
  rw [hlength] at htags
  have hroom : keyLen + (2 ^ 24 - 1) * maxBlockSize < 2 ^ 41 := by simp [keyLen, maxBlockSize]
  have hlast : run wide {} (skipped block) =
      ({ firstGrid.recordKey wide block (maxSlots - 1) 0 with
        frameOffset := keyLen + (2 ^ 24 - 1) * maxBlockSize } : SeenContentGrid).skipBlock
          maxBlockSize := by
    have hskips := run_skips (g := { firstGrid.recordKey wide block (maxSlots - 1) 0 with
      frameOffset := keyLen }) wide hroom
    unfold run at *
    rw [skipped, List.foldl_append, hfirst, List.foldl_append, hskips]
    rfl
  generalize firstGrid.recordKey wide block (maxSlots - 1) 0 = made at *
  have hdue : u32Max < (keyLen + (2 ^ 24 - 1) * maxBlockSize + maxBlockSize) / recordStep := by
    simp [u32Max, keyLen, maxBlockSize, recordStep]
  have hfar : rebaseRetainBytes / recordStep ≤
      (keyLen + (2 ^ 24 - 1) * maxBlockSize) / recordStep := by
    simp [keyLen, maxBlockSize, recordStep, rebaseRetainBytes]
  rw [hlast]
  simp only [skipBlock, if_pos hdue, rebaseOffsets, if_pos hfar, huntil, Nat.zero_sub,
    List.length_zipWith, hlength, htags, Nat.min_self, and_true]
  simp [keyLen, maxBlockSize, recordStep, rebaseRetainBytes]

theorem endless_skipped (wide : Bool) {block : List UInt8} (hlen : block.length = keyLen) :
    EndlessGrid.run wide {} (skipped block) =
      { firstEndless.recordKey wide block (maxSlots - 1) 0 with
        frameOffset := keyLen + (2 ^ 24 - 1) * maxBlockSize + maxBlockSize } := by
  have hfirst : EndlessGrid.run wide {} [.resetForFrame, .recordAndReportRepeat block 0] =
      { firstEndless.recordKey wide block (maxSlots - 1) 0 with frameOffset := keyLen } :=
    congrArg Prod.snd (endless_first wide hlen)
  have hskips := endless_skips
    (e := { firstEndless.recordKey wide block (maxSlots - 1) 0 with frameOffset := keyLen })
    wide maxBlockSize (2 ^ 24 - 1)
  unfold EndlessGrid.run at *
  rw [skipped, List.foldl_append, hfirst, List.foldl_append, hskips]
  simp only [List.foldl_cons, List.foldl_nil, EndlessGrid.step, EndlessGrid.skipBlock]

theorem skipped_len {block : List UInt8} (hlen : block.length = keyLen) :
    ∀ op ∈ skipped block, op.len ≤ maxBlockSize := by
  intro op hop
  simp only [skipped, List.mem_append, List.mem_cons, List.not_mem_nil, or_false] at hop
  rcases hop with (rfl | rfl) | hop | rfl
  · exact Nat.zero_le _
  · simp [Op.len, hlen, keyLen, maxBlockSize]
  · rw [List.eq_of_mem_replicate hop]
    exact Nat.le_refl _
  · exact Nat.le_refl _

/-- The rebase has dropped the one record there was. -/
theorem dead_skipped (wide : Bool) {block : List UInt8} (hlen : block.length = keyLen) :
    ∀ i s, ¬ (run wide {} (skipped block)).Live i s := by
  intro i s hlive
  obtain ⟨origin, h⟩ := Reached.new.run wide (skipped_len hlen)
  obtain ⟨-, r, hr, -, -, hoffset⟩ := h.live hlive
  rw [endless_skipped wide hlen, (run_skipped wide hlen).1] at hoffset
  rw [endless_skipped wide hlen] at hr
  have hzero : r.offset = 0 := by
    simp only [EndlessGrid.recordKey, List.getElem?_set, firstEndless, List.getElem?_replicate] at hr
    split at hr
    · split at hr
      · obtain rfl := Option.some.inj (Option.some.inj hr)
        rfl
      · cases hr
    · split at hr <;> cases hr
  rw [hzero] at hoffset
  simp only [rebaseRetainBytes, keyLen, maxBlockSize] at hoffset
  omega

/-- Questions put to a grid with no live slot, off the grid's points and past any stretch. -/
theorem ask_dead (hdead : ∀ i s, ¬ g.Live i s) (hlength : g.slots.length = maxSlots)
    (huntil : g.repeatUntil = 0) (hoff : ¬ recordStep ∣ g.frameOffset)
    (hroom : g.frameOffset < 2 ^ 41) (wide : Bool) {block : List UInt8}
    (hlen : block.length = keyLen) (windowSize : Nat) :
    g.step wide (.recordAndReportRepeat block windowSize) =
      (some false, { g with frameOffset := g.frameOffset + keyLen, asked := true }) := by
  have hne : g.slots ≠ [] := by
    intro hnil
    rw [hnil] at hlength
    exact absurd hlength (Nat.ne_of_lt (Nat.le_add_left 1 65535))
  have hprobe : ({ g with asked := true } : SeenContentGrid).probeKey wide block
      (reachOf windowSize) (g.slots.length - 1) 0 = false :=
    probeKey_of_dead (g := { g with asked := true }) hdead hne wide block _ 0
  have htaken := takeBlock_between (g := { g with asked := true }) wide hlen
    (hlength ▸ slotsFor_le windowSize) hoff hroom
  have hlate : ¬ g.frameOffset + keyLen ≤ g.repeatUntil := by
    rw [huntil]
    exact Nat.not_succ_le_zero _
  rw [hprobe, if_neg Bool.false_ne_true] at htaken
  simp only [step, htaken, hlate, decide_false]

theorem run_ask (wide : Bool) (ops : List Op) (op : Op) :
    run wide {} (ops ++ [op]) = ((run wide {} ops).step wide op).2 := by
  simp only [run, List.foldl_append, List.foldl_cons, List.foldl_nil]

theorem endless_ask (wide : Bool) (ops : List Op) (op : Op) :
    EndlessGrid.run wide {} (ops ++ [op]) = ((EndlessGrid.run wide {} ops).step wide op).2 := by
  simp only [EndlessGrid.run, List.foldl_append, List.foldl_cons, List.foldl_nil]

theorem Live.of_eq {g' : SeenContentGrid} {i : Nat} {s : SeenSample} (h : g'.Live i s)
    (hslots : g'.slots = g.slots) (hepoch : g'.epoch = g.epoch) : g.Live i s := by
  unfold Live at *
  rwa [hslots, hepoch] at h

theorem ask_dead_twice (hdead : ∀ i s, ¬ g.Live i s) (hlength : g.slots.length = maxSlots)
    (huntil : g.repeatUntil = 0)
    (hoffset : g.frameOffset = rebaseRetainBytes + keyLen + maxBlockSize) (wide : Bool)
    {block : List UInt8} (hlen : block.length = keyLen) (windowSize windowSize' : Nat) :
    ((g.step wide (.recordAndReportRepeat block windowSize)).2.step wide
      (.recordAndReportRepeat block windowSize')).1 = some false := by
  have hoff : ¬ recordStep ∣ g.frameOffset ∧ ¬ recordStep ∣ g.frameOffset + keyLen := by
    simp only [hoffset, recordStep, rebaseRetainBytes, keyLen, maxBlockSize]
    omega
  have hroom : g.frameOffset + keyLen < 2 ^ 41 := by
    simp only [hoffset, rebaseRetainBytes, keyLen, maxBlockSize]
    omega
  have hbefore : g.frameOffset < 2 ^ 41 := by omega
  have hagain : ∀ i s, ¬ ({ g with frameOffset := g.frameOffset + keyLen, asked := true } :
      SeenContentGrid).Live i s := fun i s hlive => hdead i s (hlive.of_eq rfl rfl)
  rw [ask_dead hdead hlength huntil hoff.1 hbefore wide hlen windowSize,
    ask_dead hagain hlength huntil hoff.2 hroom wide hlen windowSize']

theorem endless_probe {wide : Bool} {block : List UInt8} {reach mask p : Nat} {r : SeenRecord}
    (hcell : e.cells.getD (slotAndTag (keyAt block p) mask).1 none = some r)
    (htag : r.tag = (slotAndTag (keyAt block p) mask).2) (hframe : r.frame = e.frame)
    (hfp : r.fingerprint = fingerprint wide (keyAt block p))
    (hle : r.offset ≤ e.frameOffset + p) (hreach : e.frameOffset + p - r.offset ≤ reach) :
    e.probeKey wide block reach mask p = true := by
  simp only [EndlessGrid.probeKey, hcell, Option.any_some]
  exact decide_eq_true ⟨htag, hframe, hfp, hle, hreach⟩

theorem endless_hits (wide : Bool) {block : List UInt8} {frameOffset : Nat}
    (hreach : frameOffset ≤ u64Max) :
    ({ firstEndless.recordKey wide block (maxSlots - 1) 0 with
        frameOffset := frameOffset, asked := true } : EndlessGrid).probeKey wide block u64Max
      (maxSlots - 1) 0 = true := by
  have hslot : (slotAndTag (keyAt block 0) (maxSlots - 1)).1 <
      (List.replicate maxSlots (none : Option SeenRecord)).length := by
    rw [List.length_replicate]
    exact Nat.lt_of_le_of_lt Nat.and_le_right (Nat.sub_lt (Nat.le_add_left 1 65535) Nat.one_pos)
  have hcell := getD_set (j := (slotAndTag (keyAt block 0) (maxSlots - 1)).1) hslot
    (some (⟨(slotAndTag (keyAt block 0) (maxSlots - 1)).2,
    fingerprint wide (keyAt block 0), 1, firstEndless.frameOffset + 0⟩ : SeenRecord)) none
  rw [if_pos rfl] at hcell
  refine endless_probe (r := ⟨(slotAndTag (keyAt block 0) (maxSlots - 1)).2,
    fingerprint wide (keyAt block 0), 1, firstEndless.frameOffset + 0⟩) hcell ?_ ?_ ?_ ?_ ?_
  · rfl
  · rfl
  · rfl
  · exact Nat.zero_le _
  · exact hreach

/-- A hit keeps the search on for any question right behind it. -/
theorem endless_ask_twice (hlength : e.cells.length = maxSlots) (wide : Bool)
    {block : List UInt8} (hlen : block.length = keyLen) {windowSize : Nat}
    (hhit : ({ e with asked := true } : EndlessGrid).probeKey wide block (reachOf windowSize)
      (maxSlots - 1) 0 = true)
    (hoff : ¬ recordStep ∣ e.frameOffset ∧ ¬ recordStep ∣ e.frameOffset + keyLen)
    (windowSize' : Nat) :
    ((e.step wide (.recordAndReportRepeat block windowSize)).2.step wide
      (.recordAndReportRepeat block windowSize')).1 = some true := by
  have hfirst := endless_between (e := { e with asked := true }) wide hlen
    (hlength ▸ slotsFor_le windowSize) hoff.1
  simp only [hlength, hhit, if_true] at hfirst
  have hsecond := endless_between (e := { e with
      frameOffset := e.frameOffset + keyLen
      repeatUntil := e.frameOffset + keyLen + stickyReach
      asked := true }) wide hlen (hlength ▸ slotsFor_le windowSize') hoff.2
  have hstill : e.frameOffset + keyLen + keyLen ≤ e.frameOffset + keyLen + stickyReach := by
    simp only [keyLen, stickyReach, maxBlockSize]
    omega
  simp only [EndlessGrid.step, hfirst, hsecond]
  split
  · rfl
  · simp only [hstill, decide_true]

/-- So many blocks skipped that the origin moves again, and a question of a kilobyte. -/
def secondRebase : List Op :=
  List.replicate (2 ^ 24) (.skipRecording maxBlockSize) ++
    [.recordAndReportRepeat [1, 2, 3, 4, 5, 6, 7, 8] 1024]

theorem secondRebase_narrow : ∀ op ∈ secondRebase, op.len ≤ maxBlockSize ∧ op.Narrow := by
  intro op hop
  rcases List.mem_append.mp hop with hskip | hask
  · rw [List.eq_of_mem_replicate hskip]
    exact ⟨Nat.le_refl _, trivial⟩
  · rw [List.mem_singleton.mp hask]
    simp [Op.len, Op.Narrow, maxBlockSize, reachOf, rebaseRetainBytes]

/-- Over every run of operations on blocks no longer than the format's: a live record lies at or
before the frame's offset and is the record the frame itself made there, its step not wrapped; the
next block's records have steps that fit; a question that reaches back no further than a rebase
keeps finds what it would with no rebase; while no rebase has moved the frame's origin, any run of
such questions from there on is answered as with no rebase; and wherever the run stands, whatever it
has rebased and asked, no later rebase changes the answer to such a question. -/
theorem seen_content_sound (wide : Bool) (ops : List Op)
    (hops : ∀ op ∈ ops, op.len ≤ maxBlockSize) :
    (∀ i s, (run wide {} ops).Live i s →
      s.atStep * recordStep ≤ (run wide {} ops).frameOffset ∧
      ∃ r, (EndlessGrid.run wide {} ops).cells[i]? = some (some r) ∧
        r.frame = (EndlessGrid.run wide {} ops).frame ∧ r.fingerprint = s.fingerprint ∧
        r.offset + (run wide {} ops).frameOffset =
          s.atStep * recordStep + (EndlessGrid.run wide {} ops).frameOffset) ∧
    (∀ (block : List UInt8) (windowSize : Nat), block.length ≤ maxBlockSize →
      (((run wide {} ops).makeReady block.length windowSize).frameOffset +
        (block.length - keyLen)) / recordStep ≤ u32Max) ∧
    (∀ (block : List UInt8) (windowSize : Nat), block.length ≤ maxBlockSize →
      reachOf windowSize ≤ rebaseRetainBytes →
      ((run wide {} ops).walked wide block windowSize true).repeats =
        ((EndlessGrid.run wide {} ops).walked wide block windowSize true).repeats) ∧
    ((run wide {} ops).frameOffset = (EndlessGrid.run wide {} ops).frameOffset →
      ∀ later : List Op, (∀ op ∈ later, op.len ≤ maxBlockSize ∧ op.Narrow) →
        (run wide {} ops).answers wide later =
          (EndlessGrid.run wide {} ops).answers wide later) ∧
    ∀ later : List Op, (∀ op ∈ later, op.len ≤ maxBlockSize ∧ op.Narrow) →
      (run wide {} ops).answers wide later =
        ((EndlessGrid.run wide {} ops).stickyAs (run wide {} ops)).answers wide later := by
  obtain ⟨origin, h⟩ := Reached.new.run wide hops
  refine ⟨fun i s hlive => h.live hlive, ?_, ?_, ?_, ?_⟩
  · intro block windowSize hlen
    obtain ⟨_, -, -, -, hroom, -⟩ := h.tracks.makeReady h.fits hlen windowSize
    rw [u32Max, recordStep_eq]
    omega
  · intro block windowSize hlen hreach
    exact h.finds_eq wide hlen hreach true
  · intro hsame later hlater
    have horigin : origin = 0 := by
      have hoffset := h.tracks.offset
      omega
    subst horigin
    exact (h.answers_eq (h.sticky rfl) wide hlater).symm
  · intro later hlater
    exact (h.stickyAs.answers_eq h.tracks.stickyAs wide hlater).symm

/-- The grid that has rebased and been asked from a window with no bound, taken over a second rebase
to a question of a kilobyte. -/
theorem seen_content_sound_second_rebase :
    (run true {} (skipped [1, 2, 3, 4, 5, 6, 7, 8] ++
        [.recordAndReportRepeat [1, 2, 3, 4, 5, 6, 7, 8] 0])).answers true secondRebase =
      ((EndlessGrid.run true {} (skipped [1, 2, 3, 4, 5, 6, 7, 8] ++
          [.recordAndReportRepeat [1, 2, 3, 4, 5, 6, 7, 8] 0])).stickyAs
        (run true {} (skipped [1, 2, 3, 4, 5, 6, 7, 8] ++
          [.recordAndReportRepeat [1, 2, 3, 4, 5, 6, 7, 8] 0]))).answers true secondRebase := by
  refine (seen_content_sound true _ ?_).2.2.2.2 secondRebase secondRebase_narrow
  intro op hop
  rcases List.mem_append.mp hop with hskipped | hasked
  · exact skipped_len rfl op hskipped
  · rw [List.mem_singleton.mp hasked]
    simp [Op.len, maxBlockSize]

/-- A question with no window put after the rebase, and one that reaches a byte back behind it: the
first misses the record the rebase has dropped, and the stretch its hit would have opened is missing
for the second. -/
theorem wide_question_lapses :
    ((run true {} (skipped [1, 2, 3, 4, 5, 6, 7, 8] ++
        [.recordAndReportRepeat [1, 2, 3, 4, 5, 6, 7, 8] 0])).step true
      (.recordAndReportRepeat [1, 2, 3, 4, 5, 6, 7, 8] 1)).1 = some false ∧
    ((EndlessGrid.run true {} (skipped [1, 2, 3, 4, 5, 6, 7, 8] ++
        [.recordAndReportRepeat [1, 2, 3, 4, 5, 6, 7, 8] 0])).step true
      (.recordAndReportRepeat [1, 2, 3, 4, 5, 6, 7, 8] 1)).1 = some true ∧
    (∀ op ∈ skipped [1, 2, 3, 4, 5, 6, 7, 8], op.len ≤ maxBlockSize) ∧
    reachOf 1 ≤ rebaseRetainBytes := by
  have hlen : ([1, 2, 3, 4, 5, 6, 7, 8] : List UInt8).length = keyLen := rfl
  refine ⟨?_, ?_, skipped_len hlen, by simp [reachOf, rebaseRetainBytes]⟩
  · obtain ⟨hoffset, huntil, hlength⟩ := run_skipped true hlen
    rw [run_ask]
    exact ask_dead_twice (dead_skipped true hlen) hlength huntil hoffset true hlen 0 1
  · rw [endless_ask, endless_skipped true hlen]
    apply endless_ask_twice _ true hlen _ _ 1
    · simp only [EndlessGrid.recordKey, List.length_set, firstEndless, List.length_replicate]
    · exact endless_hits true (by simp [keyLen, maxBlockSize, u64Max])
    · simp only [keyLen, maxBlockSize, recordStep]
      omega

end SeenContentGrid

end Encoding
