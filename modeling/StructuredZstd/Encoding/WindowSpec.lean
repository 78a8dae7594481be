import Mathlib.Algebra.Order.BigOperators.Group.List
import StructuredZstd.Encoding.MatchGenerator

namespace Encoding

namespace BlockBackend

/-- What the newest block may add to the limit. -/
def slack : BlockBackend → Nat → Nat
  | dfast, _ => 0
  | row, len => len
  | hashChain, _ => 0

theorem commitBlock_spec (b : BlockBackend) {w : ChunkWindow} {len : Nat} (h0 : len ≠ 0)
    (hm : len ≤ w.maxWindowSize) (hu : len ≤ w.uncommittedLen) :
    ∃ w' front rest, b.commitBlock w len = some w' ∧ w.chunkLens = front ++ rest ∧
      w'.chunkLens = rest ++ [len] ∧ w.Commits w' front.sum len ∧
      w'.windowSize ≤ w.maxWindowSize + b.slack len ∧
      ∀ c ∈ front.getLast?, w.maxWindowSize + b.slack len < c + w'.windowSize := by
  cases b with
  | dfast => exact w.commitBlock_spec h0 hm hu
  | row => exact w.rowCommitBlock_spec h0 hm hu
  | hashChain => exact w.commitBlock_spec h0 hm hu

theorem commitBlock_zero (b : BlockBackend) (w : ChunkWindow) : b.commitBlock w 0 = some w := by
  cases b <;> simp [commitBlock, ChunkWindow.commitBlock, ChunkWindow.rowCommitBlock]

theorem commitBlock_fits {b : BlockBackend} {w w' : ChunkWindow} {len : Nat}
    (h : b.commitBlock w len = some w') (h0 : len ≠ 0) :
    len ≤ w.maxWindowSize ∧ len ≤ w.uncommittedLen := by
  by_contra hn
  have hor : w.maxWindowSize < len ∨ w.uncommittedLen < len := by omega
  cases b <;>
    simp [commitBlock, ChunkWindow.commitBlock, ChunkWindow.rowCommitBlock, h0, hor] at h

theorem trimToWindow_spec (b : BlockBackend) (w : ChunkWindow) :
    ∃ w' front, b.trimToWindow w = some w' ∧ w.chunkLens = front ++ w'.chunkLens ∧
      w.Drops w' front.sum ∧ w'.windowSize ≤ w.maxWindowSize ∧
      ∀ c ∈ front.getLast?, w.maxWindowSize < c + w'.windowSize := by
  obtain ⟨v, front, hv, hf, hd, hle, -, hlast⟩ := w.evict_spec (Nat.zero_le _)
  cases b with
  | dfast =>
    have hdrop : v.Drops (if v.historyStart ≠ 0 then v.drainDead else v) 0 ∧
        (if v.historyStart ≠ 0 then v.drainDead else v).chunkLens = v.chunkLens := by
      split
      · exact ⟨v.drainDead_drops, rfl⟩
      · exact ⟨.refl v, rfl⟩
    have hsize := hdrop.1.windowSize
    rw [Nat.zero_add] at hsize
    refine ⟨_, front, by rw [trimToWindow, ChunkWindow.dfastTrimToWindow, hv]; rfl, ?_,
      hd.trans hdrop.1, by omega, ?_⟩
    · rw [hdrop.2]
      exact hf
    · intro c hc
      have := hlast c hc
      omega
  | row => exact ⟨v, front, hv, hf, hd, hle, hlast⟩
  | hashChain => exact ⟨v, front, hv, hf, hd, hle, hlast⟩

end BlockBackend

namespace MatcherStorage

def tag : MatcherStorage → Option BlockBackend
  | simple _ => none
  | blocks b _ => some b

/-- The dictionary boundary the Fast backend searches under. -/
def dictEnd : MatcherStorage → Nat
  | simple m => m.effectiveDictEnd
  | blocks _ _ => 0

/-- The frame window a scan is held to. -/
def Announces (W : Nat) : MatcherStorage → Prop
  | simple m => 1 <<< m.windowLog = W
  | blocks _ _ => True

/-- The newest block lies in the window. -/
def Placed : MatcherStorage → Prop
  | simple m => m.lastBlockStart ≤ m.committedLen
  | blocks _ _ => True

/-- The window is no larger than its limit lets it be. -/
def Fits : MatcherStorage → Prop
  | simple m => m.committedLen ≤ m.maxWindowSize * 2
  | blocks b w => w.windowSize ≤ w.maxWindowSize + b.slack w.lastBlockLen

/-- `s'` is `s` with its oldest `n` bytes gone; a dictionary boundary is void after that. -/
structure Evicts (s s' : MatcherStorage) (n : Nat) : Prop where
  le : n ≤ s.live.length
  live : s'.live = s.live.drop n
  uncommitted : s'.uncommitted = s.uncommitted
  tag : s'.tag = s.tag
  announces : ∀ W, s.Announces W → s'.Announces W
  lastBlockLen : s.lastBlockLen ≤ s.maxWindowSize → s'.lastBlockLen = s.lastBlockLen
  dictEnd : s'.dictEnd = 0 ∨ n = 0 ∧ s'.dictEnd = s.dictEnd

/-- `s'` is `s` with its oldest `n` bytes gone and the next `len` bytes committed. -/
structure Committed (s s' : MatcherStorage) (n len : Nat) : Prop where
  le : n ≤ s.live.length
  len_le : len ≤ s.uncommitted.length
  live : s'.live = s.live.drop n ++ s.uncommitted.take len
  uncommitted : s'.uncommitted = s.uncommitted.drop len
  tag : s'.tag = s.tag
  announces : ∀ W, s.Announces W → s'.Announces W
  maxWindowSize : s'.maxWindowSize = s.maxWindowSize
  placed : s.Placed → s'.Placed
  fits : s.Fits → s'.Fits
  lastBlockLen : len ≠ 0 → s'.lastBlockLen = len
  dictEnd : s'.dictEnd = 0 ∨ n = 0 ∧ s'.dictEnd = s.dictEnd

/-- The bytes a commit of `len` finds the window too full for. -/
def Full (len : Nat) : MatcherStorage → Prop
  | simple m => m.maxWindowSize * 2 < m.committedLen + len
  | blocks b w => w.maxWindowSize + b.slack len < w.windowSize + len

end MatcherStorage

namespace FastWindow

variable (m : FastWindow)

@[simp] theorem length_live : m.live.length = m.committedLen := by
  simp [live, committedLen]

@[simp] theorem length_uncommitted : m.uncommitted.length = m.uncommittedLen := by
  have := m.uncommittedLen_le
  simp [uncommitted, committedLen]
  omega

theorem length_history : m.history.length = m.committedLen + m.uncommittedLen := by
  have := m.uncommittedLen_le
  rw [committedLen]
  omega

@[simp] theorem drain_committedLen {n : Nat} (h : n ≤ m.committedLen) :
    (m.drainRealPrefix n h).committedLen = m.committedLen - n := by
  simp [drainRealPrefix, committedLen]
  omega

theorem drain_live {n : Nat} (h : n ≤ m.committedLen) :
    (m.drainRealPrefix n h).live = m.live.drop n := by
  rw [live, drain_committedLen]
  simp [drainRealPrefix, live, List.drop_take]

theorem drain_uncommitted {n : Nat} (h : n ≤ m.committedLen) :
    (m.drainRealPrefix n h).uncommitted = m.uncommitted := by
  rw [uncommitted, drain_committedLen, uncommitted]
  simp only [drainRealPrefix, List.drop_drop]
  rw [Nat.add_sub_cancel' h]

@[simp] theorem drain_effectiveDictEnd {n : Nat} (h : n ≤ m.committedLen) :
    (m.drainRealPrefix n h).effectiveDictEnd = 0 := by
  simp [drainRealPrefix, effectiveDictEnd, DictAttach.invalidate, DictAttach.new]

@[simp] theorem stage_committedLen {len : Nat} (h : len ≤ m.uncommittedLen) :
    (m.stage len).committedLen = m.committedLen + len := by
  have := m.uncommittedLen_le
  simp [stage, committedLen]
  omega

theorem stage_live {len : Nat} (h : len ≤ m.uncommittedLen) :
    (m.stage len).live = m.live ++ m.uncommitted.take len := by
  rw [live, m.stage_committedLen h, live, uncommitted, ← List.take_add]
  rfl

theorem stage_uncommitted {len : Nat} (h : len ≤ m.uncommittedLen) :
    (m.stage len).uncommitted = m.uncommitted.drop len := by
  rw [uncommitted, m.stage_committedLen h, uncommitted, List.drop_drop]
  rfl

theorem stage_lastBlockStart {len : Nat} (h : len ≤ m.uncommittedLen) :
    (m.stage len).lastBlockStart = m.committedLen := by
  have := m.uncommittedLen_le
  simp [stage, committedLen]
  omega

/-- A commit drops what `evicted_by` says off the front, then stages the block. -/
theorem commitBlock_eq {m' : FastWindow} {len e : Nat} (h : m.commitBlock len = some (m', e)) :
    e = m.evictedBy len ∧ len ≤ m.uncommittedLen ∧ len ≤ m.maxWindowSize * 2 ∧
      (e = 0 ∧ m' = m.stage len ∨
        ∃ he : e ≤ m.committedLen, e ≠ 0 ∧ m' = (m.drainRealPrefix e he).stage len) := by
  rw [commitBlock] at h
  split at h
  · cases h
  · rename_i hguard
    dsimp only at h
    simp only [Option.some.injEq, Prod.mk.injEq] at h
    obtain ⟨rfl, rfl⟩ := h
    refine ⟨rfl, by omega, by omega, ?_⟩
    by_cases he : m.evictedBy len > 0
    · exact .inr ⟨m.evictedBy_le len, by omega, by rw [if_pos he]⟩
    · exact .inl ⟨by omega, by rw [if_neg he]⟩

end FastWindow

namespace MatcherStorage

theorem Committed.length {s s' : MatcherStorage} {n len : Nat} (h : Committed s s' n len) :
    s'.live.length + n = s.live.length + len := by
  have := h.le
  have := h.len_le
  rw [h.live]
  simp
  omega

theorem commitBlock_simple {m : FastWindow} {s' : MatcherStorage} {len e : Nat}
    (h : (simple m).commitBlock len = some (s', e)) :
    Committed (simple m) s' e len ∧ (e ≠ 0 → (simple m).Full len) ∧
      (e ≠ 0 → len ≤ m.maxWindowSize → m.maxWindowSize ≤ s'.live.length) := by
  obtain ⟨⟨m', e'⟩, hm, he⟩ := Option.map_eq_some_iff.mp h
  simp only [Prod.mk.injEq] at he
  obtain ⟨rfl, rfl⟩ := he
  obtain ⟨heq, hu, hcap, hor⟩ := m.commitBlock_eq hm
  have hev : e' ≠ 0 → m.maxWindowSize * 2 < m.committedLen + len ∧
      m.committedLen - e' = min (m.maxWindowSize * 2 - len) m.maxWindowSize := by
    intro h0
    rw [FastWindow.evictedBy, FastWindow.realLen, historyDrainBase] at heq
    split at heq <;> omega
  rcases hor with ⟨h0, rfl⟩ | ⟨he, h0, rfl⟩
  · refine ⟨⟨by simp [h0], by simpa [uncommitted] using hu, ?_, ?_, rfl, fun W h => h, rfl, ?_, ?_,
      ?_, .inr ⟨h0, rfl⟩⟩, fun h => absurd h0 h, fun h => absurd h0 h⟩
    · simpa [h0, live, uncommitted] using m.stage_live hu
    · simpa [uncommitted] using m.stage_uncommitted hu
    · intro _
      change (m.stage len).lastBlockStart ≤ (m.stage len).committedLen
      rw [m.stage_committedLen hu, m.stage_lastBlockStart hu]
      omega
    · intro hfit
      have hno : ¬ m.realLen > m.maxWindowSize * 2 - len := by
        intro hgt
        rw [FastWindow.evictedBy, if_pos hgt] at heq
        rw [FastWindow.realLen, historyDrainBase] at heq hgt
        omega
      rw [FastWindow.realLen, historyDrainBase] at hno
      change (m.stage len).committedLen ≤ m.maxWindowSize * 2
      rw [m.stage_committedLen hu]
      omega
    · intro _
      change (m.stage len).committedLen - (m.stage len).lastBlockStart = len
      rw [m.stage_committedLen hu, m.stage_lastBlockStart hu]
      omega
  · have hu' : len ≤ (m.drainRealPrefix e' he).uncommittedLen := hu
    obtain ⟨hfull, hkeep⟩ := hev h0
    refine ⟨⟨by simpa [live] using he, by simpa [uncommitted] using hu, ?_, ?_, rfl, fun W h => h,
      rfl, ?_, ?_, ?_, .inl (FastWindow.drain_effectiveDictEnd m he)⟩, fun _ => hfull, ?_⟩
    · change ((m.drainRealPrefix e' he).stage len).live = m.live.drop e' ++ m.uncommitted.take len
      rw [FastWindow.stage_live _ hu', FastWindow.drain_live, FastWindow.drain_uncommitted]
    · change ((m.drainRealPrefix e' he).stage len).uncommitted = m.uncommitted.drop len
      rw [FastWindow.stage_uncommitted _ hu', FastWindow.drain_uncommitted]
    · intro _
      change ((m.drainRealPrefix e' he).stage len).lastBlockStart ≤
        ((m.drainRealPrefix e' he).stage len).committedLen
      rw [FastWindow.stage_committedLen _ hu', FastWindow.stage_lastBlockStart _ hu']
      omega
    · intro _
      change ((m.drainRealPrefix e' he).stage len).committedLen ≤ m.maxWindowSize * 2
      rw [FastWindow.stage_committedLen _ hu', FastWindow.drain_committedLen]
      omega
    · intro _
      change ((m.drainRealPrefix e' he).stage len).committedLen -
        ((m.drainRealPrefix e' he).stage len).lastBlockStart = len
      rw [FastWindow.stage_committedLen _ hu', FastWindow.stage_lastBlockStart _ hu']
      omega
    · intro _ hlen
      change _ ≤ ((m.drainRealPrefix e' he).stage len).live.length
      rw [FastWindow.length_live, FastWindow.stage_committedLen _ hu',
        FastWindow.drain_committedLen]
      omega

/-- No block of the window is longer than `size`. -/
def ChunksLe (size : Nat) : MatcherStorage → Prop
  | simple _ => True
  | blocks _ w => ∀ c ∈ w.chunkLens, c ≤ size

theorem commitBlock_blocks {b : BlockBackend} {w : ChunkWindow} {s' : MatcherStorage} {len e : Nat}
    (h : (blocks b w).commitBlock len = some (s', e)) :
    Committed (blocks b w) s' e len ∧ (e ≠ 0 → (blocks b w).Full len) ∧
      (∀ size, (blocks b w).ChunksLe size → len ≤ size → s'.ChunksLe size ∧
        (e ≠ 0 → w.maxWindowSize ≤ s'.live.length + size)) := by
  obtain ⟨w', hw', he⟩ := Option.map_eq_some_iff.mp h
  cases he
  by_cases h0 : len = 0
  · subst h0
    rw [b.commitBlock_zero] at hw'
    cases hw'
    refine ⟨⟨by simp, by simp, by simp [live], rfl, rfl, fun W h => h, rfl, fun h => h,
      fun h => h, fun h => absurd rfl h, .inr ⟨by simp, rfl⟩⟩, by simp, ?_⟩
    intro size hs _
    exact ⟨hs, by simp⟩
  · obtain ⟨hm, hu⟩ := BlockBackend.commitBlock_fits hw' h0
    obtain ⟨v, front, rest, hv, hf, hr, hc, hle, hlast⟩ := b.commitBlock_spec h0 hm hu
    rw [hw'] at hv
    cases hv
    have hsize := hc.windowSize
    have hfw := hc.le
    have he : w.windowSize + len - w'.windowSize = front.sum := by omega
    have hlastLen : w'.lastBlockLen = len := by simp [ChunkWindow.lastBlockLen, hr]
    rw [he]
    refine ⟨⟨by simpa [live] using hfw, by simpa [uncommitted] using hu, hc.live, hc.uncommitted,
      rfl, fun W h => h, hc.maxWindowSize, fun h => h, ?_, fun _ => hlastLen, .inl rfl⟩, ?_, ?_⟩
    · intro _
      change w'.windowSize ≤ w'.maxWindowSize + b.slack w'.lastBlockLen
      rw [hc.maxWindowSize, hlastLen]
      exact hle
    · intro hne
      cases hl : front.getLast? with
      | none => simp [List.getLast?_eq_none_iff.mp hl] at hne
      | some c =>
        have hlt := hlast c (by simp [hl])
        have hcs : c ≤ front.sum := List.le_sum_of_mem (List.mem_of_getLast? hl)
        change w.maxWindowSize + b.slack len < w.windowSize + len
        omega
    · intro size hs hlen
      refine ⟨?_, ?_⟩
      · intro c hcm
        rw [hr, List.mem_append, List.mem_singleton] at hcm
        rcases hcm with hcm | rfl
        · exact hs c (hf ▸ List.mem_append_right front hcm)
        · exact hlen
      · intro hne
        cases hl : front.getLast? with
        | none => simp [List.getLast?_eq_none_iff.mp hl] at hne
        | some c =>
          have hlt := hlast c (by simp [hl])
          have hcs := hs c (hf ▸ List.mem_append_left rest (List.mem_of_getLast? hl))
          simp [live]
          omega

/-- What a commit that goes through has done. -/
theorem commitBlock_committed {s s' : MatcherStorage} {len e : Nat}
    (h : s.commitBlock len = some (s', e)) : Committed s s' e len ∧ (e ≠ 0 → s.Full len) := by
  cases s with
  | simple m => exact ⟨(commitBlock_simple h).1, (commitBlock_simple h).2.1⟩
  | blocks b w => exact ⟨(commitBlock_blocks h).1, (commitBlock_blocks h).2.1⟩

theorem commitBlock_zero {s s' : MatcherStorage} {e : Nat} (h : s.commitBlock 0 = some (s', e))
    (hf : s.Fits) : e = 0 := by
  cases s with
  | simple m =>
    by_contra he
    have hfull : m.maxWindowSize * 2 < m.committedLen + 0 := (commitBlock_simple h).2.1 he
    have hf : m.committedLen ≤ m.maxWindowSize * 2 := hf
    omega
  | blocks b w =>
    rw [commitBlock, b.commitBlock_zero] at h
    cases h
    simp

/-- A commit that evicts leaves the window full up to one block. -/
theorem commitBlock_keeps {s s' : MatcherStorage} {len e size : Nat}
    (h : s.commitBlock len = some (s', e)) (hs : s.ChunksLe size) (hlen : len ≤ size)
    (hmax : len ≤ s.maxWindowSize) :
    s'.ChunksLe size ∧ (e ≠ 0 → s.maxWindowSize ≤ s'.live.length + size) := by
  cases s with
  | simple m =>
    obtain ⟨hc, -, hk⟩ := commitBlock_simple h
    have ht := hc.tag
    refine ⟨?_, fun h0 => Nat.le_trans (hk h0 hmax) (Nat.le_add_right _ _)⟩
    cases s' with
    | simple m' => trivial
    | blocks b w => cases ht
  | blocks b w => exact (commitBlock_blocks h).2.2 size hs hlen

/-- A block no larger than the limit is committed. -/
theorem commitBlock_total {s : MatcherStorage} {len : Nat} (hm : len ≤ s.maxWindowSize)
    (hu : len ≤ s.uncommitted.length) (hst : s.staged = false) :
    ∃ s' e, s.commitBlock len = some (s', e) := by
  cases s with
  | simple m =>
    have hu : len ≤ m.uncommittedLen := by simpa [uncommitted] using hu
    have hm : len ≤ m.maxWindowSize := hm
    have hst : m.stagedBlock.isSome = false := hst
    rw [commitBlock, FastWindow.commitBlock, if_neg (by simp [hst]; omega)]
    exact ⟨_, _, rfl⟩
  | blocks b w =>
    have hu : len ≤ w.uncommittedLen := by simpa [uncommitted] using hu
    by_cases h0 : len = 0
    · subst h0
      rw [commitBlock, b.commitBlock_zero]
      exact ⟨_, _, rfl⟩
    · obtain ⟨w', -, -, hw', -⟩ := b.commitBlock_spec h0 hm hu
      rw [commitBlock, hw']
      exact ⟨_, _, rfl⟩

/-- A trim brings the window down to its limit and stops there. -/
theorem trimToWindow_spec (s : MatcherStorage) :
    ∃ s' e, s.trimToWindow = some (s', e) ∧ Evicts s s' e ∧
      s'.live.length ≤ s.maxWindowSize ∧ s'.maxWindowSize = s.maxWindowSize ∧
      s'.staged = s.staged ∧ (s.Placed → s'.Placed) := by
  cases s with
  | simple m =>
    refine ⟨_, _, rfl, ?_⟩
    rw [FastWindow.trimToWindow]
    split
    · rename_i hle
      refine ⟨⟨by simp, by simp, rfl, rfl, fun W h => h, fun _ => rfl, .inr ⟨rfl, rfl⟩⟩, ?_, rfl, rfl,
        fun h => h⟩
      simpa [live, maxWindowSize, FastWindow.realLen, historyDrainBase] using hle
    · rename_i hgt
      rw [FastWindow.realLen, historyDrainBase] at hgt
      have he : m.realLen - m.maxWindowSize ≤ m.committedLen := by
        rw [FastWindow.realLen]
        omega
      refine ⟨⟨by simpa [live] using he, m.drain_live he, m.drain_uncommitted he, rfl, fun W h => h,
        ?_, .inl (m.drain_effectiveDictEnd he)⟩, ?_, rfl, rfl, ?_⟩
      · intro hfit
        change (m.drainRealPrefix _ he).committedLen - (m.lastBlockStart - _) =
          m.committedLen - m.lastBlockStart
        change m.committedLen - m.lastBlockStart ≤ m.maxWindowSize at hfit
        rw [m.drain_committedLen, FastWindow.realLen, historyDrainBase]
        omega
      · change (m.drainRealPrefix _ he).live.length ≤ m.maxWindowSize
        rw [FastWindow.length_live, m.drain_committedLen, FastWindow.realLen, historyDrainBase]
        omega
      · intro hp
        change (m.drainRealPrefix _ he).lastBlockStart ≤ (m.drainRealPrefix _ he).committedLen
        rw [m.drain_committedLen]
        exact Nat.sub_le_sub_right hp _
  | blocks b w =>
    obtain ⟨w', front, hw', hf, hd, hle, hlast⟩ := b.trimToWindow_spec w
    have hsize := hd.windowSize
    refine ⟨blocks b w', front.sum, ?_, ?_, by simpa [live, maxWindowSize] using hle,
      hd.maxWindowSize, rfl, fun h => h⟩
    · rw [trimToWindow, hw', Option.map_some]
      congr 2
      omega
    · exact ⟨by simp [live]; omega, hd.live, hd.uncommitted, rfl, fun W h => h,
        fun hfit => w.lastBlockLen_of_evict hf hfit hlast, .inl rfl⟩

theorem fits_of_le {s : MatcherStorage} (h : s.live.length ≤ s.maxWindowSize) : s.Fits := by
  cases s with
  | simple m =>
    have h : m.committedLen ≤ m.maxWindowSize := by simpa [live, maxWindowSize] using h
    change m.committedLen ≤ m.maxWindowSize * 2
    omega
  | blocks b w =>
    have h : w.windowSize ≤ w.maxWindowSize := by simpa [live, maxWindowSize] using h
    exact Nat.le_trans h (Nat.le_add_right _ _)

theorem minPrimedTail_le (s : MatcherStorage) : s.minPrimedTail ≤ 5 := by
  cases s <;> simp [minPrimedTail]

section SetMax

variable (s : MatcherStorage) (size : Nat)

@[simp] theorem setMaxWindowSize_max : (s.setMaxWindowSize size).maxWindowSize = size := by
  cases s <;> rfl

@[simp] theorem setMaxWindowSize_self : s.setMaxWindowSize s.maxWindowSize = s := by
  cases s <;> rfl

@[simp] theorem setMaxWindowSize_uncommitted :
    (s.setMaxWindowSize size).uncommitted = s.uncommitted := by
  cases s <;> rfl

@[simp] theorem setMaxWindowSize_tag : (s.setMaxWindowSize size).tag = s.tag := by
  cases s <;> rfl

@[simp] theorem setMaxWindowSize_staged : (s.setMaxWindowSize size).staged = s.staged := by
  cases s <;> rfl

@[simp] theorem setMaxWindowSize_lastBlockLen :
    (s.setMaxWindowSize size).lastBlockLen = s.lastBlockLen := by
  cases s <;> rfl

@[simp] theorem setMaxWindowSize_dictEnd : (s.setMaxWindowSize size).dictEnd = s.dictEnd := by
  cases s <;> rfl

@[simp] theorem setMaxWindowSize_placed : (s.setMaxWindowSize size).Placed ↔ s.Placed := by
  cases s <;> rfl

@[simp] theorem setMaxWindowSize_announces {W : Nat} :
    (s.setMaxWindowSize size).Announces W ↔ s.Announces W := by
  cases s <;> rfl

end SetMax

namespace Evicts

variable {s s' s'' : MatcherStorage} {m n : Nat}

theorem refl (s : MatcherStorage) : Evicts s s 0 :=
  ⟨Nat.zero_le _, rfl, rfl, rfl, fun _ h => h, fun _ => rfl, .inr ⟨rfl, rfl⟩⟩

theorem setMax (h : Evicts s s' n) (size : Nat) : Evicts s (s'.setMaxWindowSize size) n where
  le := h.le
  live := by simp [h.live]
  uncommitted := by simp [h.uncommitted]
  tag := by simp [h.tag]
  announces := fun W hW => by simpa using h.announces W hW
  lastBlockLen := fun hl => by simpa using h.lastBlockLen hl
  dictEnd := by simpa using h.dictEnd

theorem trans (h : Evicts s s' m) (h' : Evicts s' s'' n)
    (hfit : s.lastBlockLen ≤ s'.maxWindowSize) : Evicts s s'' (m + n) where
  le := by
    have hle := h.le
    have hle' := h'.le
    rw [h.live, List.length_drop] at hle'
    omega
  live := by rw [h'.live, h.live, List.drop_drop]
  uncommitted := h'.uncommitted.trans h.uncommitted
  tag := h'.tag.trans h.tag
  announces := fun W hW => h'.announces W (h.announces W hW)
  lastBlockLen := by
    intro hl
    have hl := h.lastBlockLen hl
    rw [h'.lastBlockLen (hl ▸ hfit), hl]
  dictEnd := by
    rcases h'.dictEnd with h0 | ⟨rfl, h0⟩
    · exact .inl h0
    · rw [h0]
      exact h.dictEnd

end Evicts

theorem minPrimedTail_of_tag {s s' : MatcherStorage} (h : s'.tag = s.tag) :
    s'.minPrimedTail = s.minPrimedTail := by
  cases s <;> cases s' <;> simp_all [tag, minPrimedTail]

/-- Filling puts bytes behind the window and leaves everything else. -/
structure Filled (s s' : MatcherStorage) (bytes : List UInt8) : Prop where
  live : s'.live = s.live
  uncommitted : s'.uncommitted = s.uncommitted ++ bytes
  tag : s'.tag = s.tag
  maxWindowSize : s'.maxWindowSize = s.maxWindowSize
  fits : s'.Fits ↔ s.Fits
  placed : s'.Placed ↔ s.Placed
  announces : ∀ W, s'.Announces W ↔ s.Announces W
  chunksLe : ∀ n, s'.ChunksLe n ↔ s.ChunksLe n
  lastBlockLen : s'.lastBlockLen = s.lastBlockLen
  dictEnd : s'.dictEnd = s.dictEnd

theorem fillInPlace_spec {s s' : MatcherStorage} {bytes : List UInt8}
    (h : s.fillInPlace bytes = some s') : Filled s s' bytes := by
  cases s with
  | simple m =>
    cases h
    have hc : (m.fillUncommitted bytes).committedLen = m.committedLen := by
      have := m.uncommittedLen_le
      simp [FastWindow.fillUncommitted, FastWindow.committedLen]
      omega
    have hle : m.committedLen ≤ m.history.length := Nat.sub_le _ _
    refine ⟨?_, ?_, rfl, rfl, ?_, ?_, fun _ => Iff.rfl, fun _ => Iff.rfl, ?_, rfl⟩
    · change (m.fillUncommitted bytes).live = m.live
      rw [FastWindow.live, hc, FastWindow.live]
      exact List.take_append_of_le_length hle
    · change (m.fillUncommitted bytes).uncommitted = m.uncommitted ++ bytes
      rw [FastWindow.uncommitted, hc, FastWindow.uncommitted]
      exact List.drop_append_of_le_length hle
    · simp only [Fits, hc]
      rfl
    · simp only [Placed, hc]
      rfl
    · change (m.fillUncommitted bytes).committedLen - m.lastBlockStart =
        m.committedLen - m.lastBlockStart
      rw [hc]
  | blocks b w =>
    rw [fillInPlace, Option.map_eq_some_iff] at h
    obtain ⟨w', hw', rfl⟩ := h
    rw [ChunkWindow.fillUncommitted] at hw'
    split at hw'
    · cases hw'
      have hle := w.length_eq
      refine ⟨?_, ?_, rfl, rfl, Iff.rfl, Iff.rfl, fun _ => Iff.rfl, fun _ => Iff.rfl, rfl, rfl⟩
      · simp only [live, ChunkWindow.live]
        rw [List.drop_append_of_le_length (by omega), List.take_append_of_le_length (by simp; omega)]
      · simp only [uncommitted, ChunkWindow.uncommitted_eq]
        exact List.drop_append_of_le_length (by omega)
    · cases hw'

/-- A block searched or indexed: only what waits for it changes, and a dictionary boundary that is
set lies at the end of the window. -/
structure Scanned (s s' : MatcherStorage) : Prop where
  live : s'.live = s.live
  uncommitted : s'.uncommitted = s.uncommitted
  tag : s'.tag = s.tag
  maxWindowSize : s'.maxWindowSize = s.maxWindowSize
  fits : s'.Fits ↔ s.Fits
  placed : s'.Placed ↔ s.Placed
  announces : ∀ W, s'.Announces W ↔ s.Announces W
  chunksLe : ∀ n, s'.ChunksLe n ↔ s.ChunksLe n
  lastBlockLen : s'.lastBlockLen = s.lastBlockLen

theorem Scanned.refl (s : MatcherStorage) : Scanned s s :=
  ⟨rfl, rfl, rfl, rfl, Iff.rfl, Iff.rfl, fun _ => Iff.rfl, fun _ => Iff.rfl, rfl⟩

theorem scanBlock_spec {s s' : MatcherStorage} (h : s.scanBlock = some s') :
    Scanned s s' ∧ s'.dictEnd = s.dictEnd := by
  cases s with
  | simple m =>
    simp only [scanBlock, FastWindow.startMatching, FastWindow.takeStagedBlock, Option.map_map,
      Option.map_eq_some_iff] at h
    obtain ⟨len, -, rfl⟩ := h
    exact ⟨⟨rfl, rfl, rfl, rfl, Iff.rfl, Iff.rfl, fun _ => Iff.rfl, fun _ => Iff.rfl, rfl⟩, rfl⟩
  | blocks b w =>
    cases h
    exact ⟨Scanned.refl _, rfl⟩

theorem markDictPrimed_spec (s : MatcherStorage) :
    Scanned s (s.markDictPrimed.setDictionaryIndexFloor 0) ∧
      (s.markDictPrimed.setDictionaryIndexFloor 0).dictEnd = s.dictEnd := by
  cases s with
  | simple m =>
    refine ⟨⟨rfl, rfl, rfl, rfl, Iff.rfl, Iff.rfl, fun _ => Iff.rfl, fun _ => Iff.rfl, rfl⟩, ?_⟩
    cases ha : m.dict.attached <;>
      simp [markDictPrimed, setDictionaryIndexFloor, dictEnd, FastWindow.effectiveDictEnd,
        DictAttach.markPrimed, ha]
  | blocks b w => exact ⟨Scanned.refl _, rfl⟩

theorem indexDictionarySlice_spec {s s' : MatcherStorage} {attach : Bool}
    (h : s.indexDictionarySlice attach = some s') :
    Scanned s s' ∧ (s.dictEnd ≤ s.live.length → s'.dictEnd ≤ s'.live.length) := by
  cases s with
  | simple m =>
    obtain ⟨m', hm, rfl⟩ := Option.map_eq_some_iff.mp h
    cases attach with
    | true =>
      simp only [if_true, FastWindow.skipMatchingForDictPrime, Option.bind_eq_some_iff,
        FastWindow.takeStagedBlock, Option.map_eq_some_iff] at hm
      obtain ⟨⟨m₁, start⟩, ⟨len, -, heq⟩, hp⟩ := hm
      cases heq
      simp only [FastWindow.primeDictTableForRange] at hp
      split at hp
      · cases hp
        refine ⟨⟨rfl, rfl, rfl, rfl, Iff.rfl, Iff.rfl, fun _ => Iff.rfl, fun _ => Iff.rfl, rfl⟩, ?_⟩
        simp only [dictEnd, FastWindow.effectiveDictEnd, live, FastWindow.length_live]
        intro hle
        split at hle <;> simp_all [FastWindow.committedLen]
        split <;> simp
      · split at hp
        · cases hp
        · cases hp
          refine ⟨⟨rfl, rfl, rfl, rfl, Iff.rfl, Iff.rfl, fun _ => Iff.rfl, fun _ => Iff.rfl, rfl⟩, ?_⟩
          simp only [dictEnd, FastWindow.effectiveDictEnd, live, FastWindow.length_live]
          intro hle
          split at hle <;> simp_all [FastWindow.committedLen]
    | false =>
      simp only [Bool.false_eq_true, if_false, FastWindow.skipMatchingForDictCopy,
        FastWindow.takeStagedBlock, Option.map_map, Option.map_eq_some_iff] at hm
      obtain ⟨len, -, rfl⟩ := hm
      refine ⟨⟨rfl, rfl, rfl, rfl, Iff.rfl, Iff.rfl, fun _ => Iff.rfl, fun _ => Iff.rfl, rfl⟩, ?_⟩
      intro _
      simp only [Function.comp_apply, dictEnd, FastWindow.effectiveDictEnd, live,
        FastWindow.length_live, DictAttach.invalidate, DictAttach.new]
      split
      · rfl
      · simp
  | blocks b w =>
    cases h
    exact ⟨Scanned.refl _, fun h => h⟩

end MatcherStorage

namespace MatcherStorage

/-- The most the window holds once a block is in, where the newest block has no slack. -/
def room : MatcherStorage → Nat
  | simple m => m.maxWindowSize * 2
  | blocks _ w => w.maxWindowSize

theorem full_iff {s : MatcherStorage} {len : Nat} (h : s.tag ≠ some .row) :
    s.Full len ↔ s.room < s.live.length + len := by
  cases s with
  | simple m => simp [Full, room, live]
  | blocks b w =>
    cases b with
    | row => exact absurd rfl h
    | dfast => simp [Full, room, live, BlockBackend.slack]
    | hashChain => simp [Full, room, live, BlockBackend.slack]

theorem fits_iff {s : MatcherStorage} (h : s.tag ≠ some .row) :
    s.Fits ↔ s.live.length ≤ s.room := by
  cases s with
  | simple m => simp [Fits, room, live]
  | blocks b w =>
    cases b with
    | row => exact absurd rfl h
    | dfast => simp [Fits, room, live, BlockBackend.slack]
    | hashChain => simp [Fits, room, live, BlockBackend.slack]

theorem room_of_max {s s' : MatcherStorage} (ht : s'.tag = s.tag)
    (hm : s'.maxWindowSize = s.maxWindowSize) : s'.room = s.room := by
  cases s <;> cases s' <;> simp_all [tag, room, maxWindowSize]

/-- `s'` is `s` with the next `len` bytes committed and none evicted. -/
structure Extends (s s' : MatcherStorage) (len : Nat) : Prop where
  len_le : len ≤ s.uncommitted.length
  live : s'.live = s.live ++ s.uncommitted.take len
  uncommitted : s'.uncommitted = s.uncommitted.drop len
  tag : s'.tag = s.tag
  maxWindowSize : s'.maxWindowSize = s.maxWindowSize
  announces : ∀ W, s.Announces W → s'.Announces W
  placed : s.Placed → s'.Placed
  dictEnd : s'.dictEnd = 0 ∨ s'.dictEnd = s.dictEnd

namespace Extends

variable {s s' s'' : MatcherStorage} {m n : Nat}

theorem refl (s : MatcherStorage) : Extends s s 0 :=
  ⟨Nat.zero_le _, by simp, rfl, rfl, rfl, fun _ h => h, fun h => h, .inr rfl⟩

theorem trans (h : Extends s s' m) (h' : Extends s' s'' n) : Extends s s'' (m + n) where
  len_le := by
    have hm := h.len_le
    have hn := h'.len_le
    rw [h.uncommitted, List.length_drop] at hn
    omega
  live := by rw [h'.live, h.live, h.uncommitted, List.take_add, List.append_assoc]
  uncommitted := by rw [h'.uncommitted, h.uncommitted, List.drop_drop]
  tag := h'.tag.trans h.tag
  maxWindowSize := h'.maxWindowSize.trans h.maxWindowSize
  announces := fun W hW => h'.announces W (h.announces W hW)
  placed := fun hp => h'.placed (h.placed hp)
  dictEnd := by
    rcases h'.dictEnd with h0 | h0
    · exact .inl h0
    · rw [h0]
      exact h.dictEnd

theorem length (h : Extends s s' n) : s'.live.length = s.live.length + n := by
  rw [h.live, List.length_append, List.length_take, Nat.min_eq_left h.len_le]

theorem room (h : Extends s s' n) : s'.room = s.room := room_of_max h.tag h.maxWindowSize

end Extends

theorem scanPiece_extends {s s' : MatcherStorage} {len : Nat} (ht : s.tag ≠ some .row)
    (hroom : s.live.length + len ≤ s.room) (h : s.scanPiece len = some s') : Extends s s' len := by
  obtain ⟨⟨s₁, e⟩, hs₁, hs'⟩ := Option.bind_eq_some_iff.mp h
  obtain ⟨hc, hfull⟩ := commitBlock_committed hs₁
  obtain ⟨hi, hdict⟩ := scanBlock_spec hs'
  have he : e = 0 := by
    by_contra hne
    have := (full_iff ht).mp (hfull hne)
    omega
  subst he
  refine ⟨hc.len_le, ?_, ?_, hi.tag.trans hc.tag, hi.maxWindowSize.trans hc.maxWindowSize, ?_, ?_, ?_⟩
  · rw [hi.live, hc.live, List.drop_zero]
  · rw [hi.uncommitted, hc.uncommitted]
  · exact fun W hW => (hi.announces W).mpr (hc.announces W hW)
  · exact fun hp => hi.placed.mpr (hc.placed hp)
  · rw [hdict]
    rcases hc.dictEnd with h0 | ⟨-, h0⟩
    · exact .inl h0
    · exact .inr h0

theorem scanPieces_extends {sequences : List (Nat × Nat)} {s s' : MatcherStorage} {left : Nat}
    (ht : s.tag ≠ some .row) (hroom : s.live.length + left ≤ s.room)
    (h : s.scanPieces left sequences = some s') : Extends s s' left := by
  induction sequences generalizing s left with
  | nil =>
    rw [scanPieces] at h
    split at h
    · exact scanPiece_extends ht hroom h
    · rename_i h0
      rw [not_not.mp h0]
      cases h
      exact Extends.refl _
  | cons q rest ih =>
    obtain ⟨litLength, matchLength⟩ := q
    rw [scanPieces] at h
    split at h
    · cases h
    · rename_i hle
      obtain ⟨s₁, hs₁, h⟩ := Option.bind_eq_some_iff.mp h
      obtain ⟨s₂, hs₂, h⟩ := Option.bind_eq_some_iff.mp h
      have h₁ : Extends s s₁ litLength := by
        split at hs₁
        · exact scanPiece_extends ht (by omega) hs₁
        · rename_i h0
          rw [not_not.mp h0]
          cases hs₁
          exact Extends.refl _
      have hl₁ := h₁.length
      have hr₁ := h₁.room
      have h₂ := scanPiece_extends (h₁.tag ▸ ht) (by omega) hs₂
      have hl₂ := h₂.length
      have hr₂ := h₂.room
      have h₃ := ih (h₂.tag ▸ h₁.tag ▸ ht) (by omega) h
      have hsum : left = litLength + matchLength + (left - (litLength + matchLength)) := by omega
      rw [hsum]
      exact (h₁.trans h₂).trans h₃

/-- A block handed back: the window ends where the block began. -/
theorem uncommitBlock_spec {s s' : MatcherStorage} (hp : s.Placed)
    (h : s.uncommitBlock s.lastBlockLen = some s') :
    s.lastBlockLen ≤ s.live.length ∧
      s'.live = s.live.take (s.live.length - s.lastBlockLen) ∧
      s'.uncommitted = s.live.drop (s.live.length - s.lastBlockLen) ++ s.uncommitted ∧
      s'.tag = s.tag ∧ s'.maxWindowSize = s.maxWindowSize ∧
      (∀ W, s.Announces W → s'.Announces W) ∧ s'.Placed ∧ s'.dictEnd = s.dictEnd := by
  cases s with
  | simple m =>
    rw [uncommitBlock, Option.map_eq_some_iff] at h
    obtain ⟨m', hm', rfl⟩ := h
    rw [FastWindow.uncommitBlock] at hm'
    split at hm'
    · cases hm'
      rename_i hg
      have hp : m.lastBlockStart ≤ m.committedLen := hp
      have hlast : (simple m).lastBlockLen = m.committedLen - m.lastBlockStart := rfl
      have hlen := m.length_history
      have hcl : m.history.length - (m.uncommittedLen + (simple m).lastBlockLen) =
          m.committedLen - (simple m).lastBlockLen := by
        rw [FastWindow.committedLen]
        omega
      have hsplit : m.history = m.live ++ m.uncommitted := (List.take_append_drop _ _).symm
      refine ⟨by simp only [live, FastWindow.length_live]; omega, ?_, ?_, rfl, rfl, fun _ h => h, ?_,
        rfl⟩
      · simp only [live, FastWindow.live]
        rw [FastWindow.committedLen, hcl, List.take_take]
        congr 1
        simp only [List.length_take]
        omega
      · simp only [uncommitted, FastWindow.uncommitted, live, FastWindow.length_live]
        rw [FastWindow.committedLen, hcl]
        conv_lhs => rw [hsplit]
        rw [List.drop_append_of_le_length (by rw [FastWindow.length_live]; omega)]
        rfl
      · change m.lastBlockStart ≤ m.history.length - (m.uncommittedLen + (simple m).lastBlockLen)
        omega
    · cases hm'
  | blocks b w =>
    rw [uncommitBlock, Option.map_eq_some_iff] at h
    obtain ⟨w', hw', rfl⟩ := h
    rw [ChunkWindow.uncommitBlock] at hw'
    split at hw'
    · cases hw'
      rename_i hg
      obtain ⟨front, hf⟩ := List.getLast?_eq_some_iff.mp hg
      have hws : w.windowSize = front.sum + (blocks b w).lastBlockLen := by
        simp [w.windowSize_eq, hf]
      have hlen := w.length_eq
      refine ⟨by simp only [live, ChunkWindow.length_live]; omega, ?_, ?_, rfl, rfl, fun _ h => h,
        trivial, rfl⟩
      · simp only [live, ChunkWindow.live, List.take_take]
        congr 1
        simp only [List.length_take, List.length_drop]
        omega
      · have hl : (blocks b w).live.length = w.windowSize := w.length_live
        rw [hl]
        simp only [live, uncommitted, ChunkWindow.uncommitted_eq, ChunkWindow.live]
        rw [List.drop_take, List.drop_drop]
        have hsub : w.windowSize - (w.windowSize - (blocks b w).lastBlockLen) =
            (blocks b w).lastBlockLen := by omega
        have hadd : w.historyStart + w.windowSize =
            w.historyStart + (w.windowSize - (blocks b w).lastBlockLen) +
              (blocks b w).lastBlockLen := by omega
        have happ := List.take_append_drop (blocks b w).lastBlockLen
          (w.history.drop (w.historyStart + (w.windowSize - (blocks b w).lastBlockLen)))
        rw [List.drop_drop] at happ
        rw [hsub, hadd]
        exact happ.symm
    · cases hw'

end MatcherStorage

namespace MatcherStorage

theorem uncommitBlock_max {s s' : MatcherStorage} {len : Nat} (h : s.uncommitBlock len = some s') :
    s'.maxWindowSize = s.maxWindowSize := by
  cases s with
  | simple m =>
    obtain ⟨m', hm', rfl⟩ := Option.map_eq_some_iff.mp h
    rw [FastWindow.uncommitBlock] at hm'
    split at hm' <;> cases hm'
    rfl
  | blocks b w =>
    obtain ⟨w', hw', rfl⟩ := Option.map_eq_some_iff.mp h
    rw [ChunkWindow.uncommitBlock] at hw'
    split at hw' <;> cases hw'
    rfl

theorem scanPiece_max {s s' : MatcherStorage} {len : Nat} (h : s.scanPiece len = some s') :
    s'.maxWindowSize = s.maxWindowSize := by
  obtain ⟨⟨s₁, e⟩, hs₁, hs'⟩ := Option.bind_eq_some_iff.mp h
  exact (scanBlock_spec hs').1.maxWindowSize.trans (commitBlock_committed hs₁).1.maxWindowSize

theorem scanPieces_max {sequences : List (Nat × Nat)} {s s' : MatcherStorage} {left : Nat}
    (h : s.scanPieces left sequences = some s') : s'.maxWindowSize = s.maxWindowSize := by
  induction sequences generalizing s left with
  | nil =>
    rw [scanPieces] at h
    split at h
    · exact scanPiece_max h
    · cases h
      rfl
  | cons q rest ih =>
    obtain ⟨litLength, matchLength⟩ := q
    rw [scanPieces] at h
    split at h
    · cases h
    · obtain ⟨s₁, hs₁, h⟩ := Option.bind_eq_some_iff.mp h
      obtain ⟨s₂, hs₂, h⟩ := Option.bind_eq_some_iff.mp h
      rw [ih h, scanPiece_max hs₂]
      split at hs₁
      · exact scanPiece_max hs₁
      · cases hs₁
        rfl

theorem scanLongDistance_max {s s' : MatcherStorage} {sequences : List (Nat × Nat)}
    (h : s.scanLongDistance sequences = some s') : s'.maxWindowSize = s.maxWindowSize := by
  rw [scanLongDistance] at h
  split at h
  · exact (scanBlock_spec h).1.maxWindowSize
  · obtain ⟨s₁, hs₁, h⟩ := Option.bind_eq_some_iff.mp h
    exact (scanPieces_max h).trans (uncommitBlock_max hs₁)

end MatcherStorage

end Encoding
