import Mathlib.Data.List.Basic
import Mathlib.Algebra.Order.Group.Nat
import Mathlib.Algebra.BigOperators.Group.List.Basic
import StructuredZstd.Encoding.PreSplit

namespace Encoding

def usizeMax : Nat := 2 ^ 64 - 1
def u32Max : Nat := 2 ^ 32 - 1

def hcOptNum : Nat := 1 <<< 12
def streamAbsHeadroom : Nat := hcOptNum + 16

/-- The frame-level overflow gate of `fill_uncommitted`. -/
def checkStreamAbsHeadroom (historyAbsStart windowSize dataLen : Nat) : Bool :=
  decide (historyAbsStart + windowSize + dataLen + streamAbsHeadroom ≤ usizeMax)

/-- The rolling window of the matchers that evict whole blocks (`DfastMatchGenerator`,
`RowMatchGenerator`, `MatchTable`): a dead front, the committed blocks, and the bytes read that no
block has claimed yet. -/
structure ChunkWindow where
  history : List UInt8
  historyStart : Nat
  historyAbsStart : Nat
  chunkLens : List Nat
  windowSize : Nat
  maxWindowSize : Nat
  uncommittedLen : Nat
  windowSize_eq : windowSize = chunkLens.sum
  length_eq : history.length = historyStart + windowSize + uncommittedLen

namespace ChunkWindow

variable (w : ChunkWindow)

/-- The window before a frame's first byte, at the floor the reset left. -/
def empty (floor maxWindowSize : Nat) : ChunkWindow where
  history := []
  historyStart := 0
  historyAbsStart := floor
  chunkLens := []
  windowSize := 0
  maxWindowSize := maxWindowSize
  uncommittedLen := 0
  windowSize_eq := rfl
  length_eq := rfl

def live : List UInt8 := (w.history.drop w.historyStart).take w.windowSize

def uncommitted : List UInt8 := w.history.drop (w.history.length - w.uncommittedLen)

def historyAbsEnd : Nat := w.historyAbsStart + w.windowSize

def lastBlockLen : Nat := w.chunkLens.getLastD 0

def setMaxWindowSize (size : Nat) : ChunkWindow := { w with maxWindowSize := size }

def fillUncommitted (bytes : List UInt8) : Option ChunkWindow :=
  if checkStreamAbsHeadroom w.historyAbsStart w.windowSize (bytes.length + w.uncommittedLen) then
    some { w with
      history := w.history ++ bytes
      uncommittedLen := w.uncommittedLen + bytes.length
      length_eq := by simp [w.length_eq]; omega }
  else none

/-- One round of an eviction loop: `pop_front` of the oldest block. -/
def popFront : Option ChunkWindow :=
  match h : w.chunkLens with
  | [] => none
  | removedLen :: rest =>
    some { w with
      chunkLens := rest
      windowSize := w.windowSize - removedLen
      historyStart := w.historyStart + removedLen
      historyAbsStart := w.historyAbsStart + removedLen
      windowSize_eq := by simp [w.windowSize_eq, h]
      length_eq := by
        have hs : w.windowSize = removedLen + rest.sum := by simp [w.windowSize_eq, h]
        rw [w.length_eq]
        omega }

theorem popFront_of_cons {removedLen : Nat} {rest : List Nat}
    (h : w.chunkLens = removedLen :: rest) :
    ∃ w', w.popFront = some w' ∧ w'.chunkLens = rest ∧ w'.history = w.history ∧
      w'.historyStart = w.historyStart + removedLen ∧
      w'.historyAbsStart = w.historyAbsStart + removedLen ∧
      w'.windowSize = w.windowSize - removedLen ∧ w'.maxWindowSize = w.maxWindowSize ∧
      w'.uncommittedLen = w.uncommittedLen := by
  unfold popFront
  split
  · simp_all
  · rename_i removed tail heq
    rw [h] at heq
    cases heq
    exact ⟨_, rfl, rfl, rfl, rfl, rfl, rfl, rfl, rfl⟩

theorem popFront_of_nil (h : w.chunkLens = []) : w.popFront = none := by
  unfold popFront
  split
  · rfl
  · simp_all

theorem popFront_length {w' : ChunkWindow} (h : w.popFront = some w') :
    w'.chunkLens.length < w.chunkLens.length := by
  cases hc : w.chunkLens with
  | nil => simp [w.popFront_of_nil hc] at h
  | cons removedLen rest =>
    obtain ⟨v, hv, hr, -⟩ := w.popFront_of_cons hc
    rw [hv] at h
    cases h
    simp [hr]

end ChunkWindow

/-- `while window_size + extra > max_window_size`: evict the oldest blocks. -/
def ChunkWindow.evict (w : ChunkWindow) (extra : Nat) : Option ChunkWindow :=
  if w.windowSize + extra ≤ w.maxWindowSize then some w
  else
    match _h : w.popFront with
    | none => none
    | some w' => w'.evict extra
termination_by w.chunkLens.length
decreasing_by exact w.popFront_length _h

namespace ChunkWindow

variable (w : ChunkWindow)

/-- `history.drain_front(history_start)`. -/
def drainDead : ChunkWindow :=
  { w with
    history := w.history.drop w.historyStart
    historyStart := 0
    length_eq := by
      have := w.length_eq
      simp
      omega }

def compactHistory : ChunkWindow :=
  if w.historyStart = 0 then w
  else if w.historyStart ≥ w.maxWindowSize >>> 2 ∨
      w.historyStart * 2 ≥ w.history.length - w.uncommittedLen then w.drainDead
  else w

/-- Claim the first `len` uncommitted bytes as the newest block. -/
def claim (len : Nat) : Option ChunkWindow :=
  if h : len ≤ w.uncommittedLen then
    some { w with
      windowSize := w.windowSize + len
      chunkLens := w.chunkLens ++ [len]
      uncommittedLen := w.uncommittedLen - len
      windowSize_eq := by simp [w.windowSize_eq]
      length_eq := by
        have := w.length_eq
        omega }
  else none

/-- `commit_block` of `DfastMatchGenerator` and `MatchTable`: the window keeps room for the block. -/
def commitBlock (len : Nat) : Option ChunkWindow :=
  if len = 0 then some w
  else if w.maxWindowSize < len ∨ w.uncommittedLen < len then none
  else (w.evict len).bind fun w' => w'.compactHistory.claim len

def btIdxBase : Nat := 2

/-- `rebase_positions` of `RowMatchGenerator`: the oldest live byte becomes position 0. -/
def rebasePositions : ChunkWindow := { w with historyAbsStart := 0 }

/-- `commit_block` of `RowMatchGenerator`: the window before the block is held to a full window, so
with the block it may be larger. -/
def rowCommitBlock (len : Nat) : Option ChunkWindow :=
  if len = 0 then some w
  else if w.maxWindowSize < len ∨ w.uncommittedLen < len then none
  else
    let w := if w.historyAbsStart + w.windowSize + len ≥ u32Max - 1 - btIdxBase then
      w.rebasePositions else w
    (w.evict 0).bind fun w' => w'.compactHistory.claim len

/-- `trim_to_window` of `RowMatchGenerator` and `MatchTable`. -/
def trimToWindow : Option ChunkWindow := w.evict 0

/-- `trim_to_window` of `DfastMatchGenerator`, which drops the dead front at once. -/
def dfastTrimToWindow : Option ChunkWindow :=
  (w.evict 0).map fun w' => if w'.historyStart ≠ 0 then w'.drainDead else w'

/-- Hand the newest block back to the uncommitted input; what it evicted stays evicted. -/
def uncommitBlock (len : Nat) : Option ChunkWindow :=
  if h : w.chunkLens.getLast? = some len then
    some { w with
      chunkLens := w.chunkLens.dropLast
      windowSize := w.windowSize - len
      uncommittedLen := w.uncommittedLen + len
      windowSize_eq := by
        obtain ⟨front, hf⟩ := List.getLast?_eq_some_iff.mp h
        simp [w.windowSize_eq, hf]
      length_eq := by
        obtain ⟨front, hf⟩ := List.getLast?_eq_some_iff.mp h
        have hs : w.windowSize = front.sum + len := by simp [w.windowSize_eq, hf]
        rw [w.length_eq]
        omega }
  else none

@[simp] theorem length_live : w.live.length = w.windowSize := by
  have := w.length_eq
  simp [live]
  omega

theorem uncommitted_eq : w.uncommitted = w.history.drop (w.historyStart + w.windowSize) := by
  have h : w.history.length - w.uncommittedLen = w.historyStart + w.windowSize := by
    rw [w.length_eq]
    omega
  rw [uncommitted, h]

@[simp] theorem length_uncommitted : w.uncommitted.length = w.uncommittedLen := by
  have := w.length_eq
  simp [uncommitted]
  omega

/-- `w'` is `w` with its oldest `n` bytes gone. -/
structure Drops (w w' : ChunkWindow) (n : Nat) : Prop where
  windowSize : w.windowSize = n + w'.windowSize
  live : w'.live = w.live.drop n
  uncommitted : w'.uncommitted = w.uncommitted
  uncommittedLen : w'.uncommittedLen = w.uncommittedLen
  maxWindowSize : w'.maxWindowSize = w.maxWindowSize

namespace Drops

variable {w w' w'' : ChunkWindow} {m n : Nat}

theorem refl (w : ChunkWindow) : Drops w w 0 := ⟨by simp, by simp, rfl, rfl, rfl⟩

theorem trans (h : Drops w w' m) (h' : Drops w' w'' n) : Drops w w'' (m + n) where
  windowSize := by
    rw [h.windowSize, h'.windowSize]
    omega
  live := by rw [h'.live, h.live, List.drop_drop]
  uncommitted := h'.uncommitted.trans h.uncommitted
  uncommittedLen := h'.uncommittedLen.trans h.uncommittedLen
  maxWindowSize := h'.maxWindowSize.trans h.maxWindowSize

end Drops

theorem popFront_drops {removedLen : Nat} {rest : List Nat}
    (h : w.chunkLens = removedLen :: rest) :
    ∃ w', w.popFront = some w' ∧ w'.chunkLens = rest ∧
      w'.historyAbsStart = w.historyAbsStart + removedLen ∧ Drops w w' removedLen := by
  obtain ⟨w', hw', hr, hh, hs, ha, hsz, hm, hu⟩ := w.popFront_of_cons h
  have hle : removedLen ≤ w.windowSize := by simp [w.windowSize_eq, h]
  refine ⟨w', hw', hr, ha, ?_, ?_, ?_, hu, hm⟩
  · omega
  · rw [live, live, hh, hs, hsz, List.drop_take, List.drop_drop]
  · rw [uncommitted, uncommitted, hh, hu]

/-- An eviction takes whole blocks off the front, and none that the limit had room for. -/
theorem evict_spec {extra : Nat} (he : extra ≤ w.maxWindowSize) :
    ∃ w' front, w.evict extra = some w' ∧ w.chunkLens = front ++ w'.chunkLens ∧
      Drops w w' front.sum ∧ w'.windowSize + extra ≤ w.maxWindowSize ∧
      w'.historyAbsStart = w.historyAbsStart + front.sum ∧
      ∀ c ∈ front.getLast?, w.maxWindowSize < c + w'.windowSize + extra := by
  induction hn : w.chunkLens.length generalizing w with
  | zero =>
    have hw : w.windowSize = 0 := by simp [w.windowSize_eq, List.length_eq_zero_iff.mp hn]
    refine ⟨w, [], ?_, rfl, Drops.refl w, by omega, rfl, by simp⟩
    rw [evict, if_pos (by omega)]
  | succ n ih =>
    by_cases hfit : w.windowSize + extra ≤ w.maxWindowSize
    · exact ⟨w, [], by rw [evict, if_pos hfit], rfl, Drops.refl w, hfit, rfl, by simp⟩
    · obtain ⟨removedLen, rest, hc⟩ := List.exists_cons_of_length_eq_add_one hn
      obtain ⟨v, hv, hr, ha, hd⟩ := w.popFront_drops hc
      obtain ⟨w', front, hw', hf, hd', hle, ha', hlast⟩ :=
        ih v (by rw [hd.maxWindowSize]; exact he) (by simp_all)
      refine ⟨w', removedLen :: front, ?_, ?_, ?_, ?_, ?_, ?_⟩
      · rw [evict, if_neg hfit]
        split
        · simp_all
        · simp_all
      · rw [hc, ← hr, hf, List.cons_append]
      · rw [List.sum_cons]
        exact hd.trans hd'
      · rw [← hd.maxWindowSize]
        exact hle
      · rw [ha', ha, List.sum_cons, Nat.add_assoc]
      · intro c hcl
        cases front with
        | nil =>
          have hd := hd.windowSize
          have hd' := hd'.windowSize
          simp at hcl hd'
          omega
        | cons c' front =>
          rw [← hd.maxWindowSize]
          exact hlast c (by simpa using hcl)

/-- Trimming keeps the newest block where it fits the limit. -/
theorem lastBlockLen_of_evict {w' : ChunkWindow} {front : List Nat}
    (hf : w.chunkLens = front ++ w'.chunkLens) (hfit : w.lastBlockLen ≤ w.maxWindowSize)
    (hlast : ∀ c ∈ front.getLast?, w.maxWindowSize < c + w'.windowSize) :
    w'.lastBlockLen = w.lastBlockLen := by
  rw [lastBlockLen, lastBlockLen, hf]
  cases hc : w'.chunkLens with
  | nil =>
    cases hl : front.getLast? with
    | none => simp [List.getLast?_eq_none_iff.mp hl]
    | some c =>
      have hlt := hlast c (by simp [hl])
      have hz : w'.windowSize = 0 := by simp [w'.windowSize_eq, hc]
      have hc' : w.lastBlockLen = c := by
        simp [lastBlockLen, hf, hc, List.getLastD_eq_getLast?, hl]
      omega
  | cons c rest => simp [List.getLastD_eq_getLast?, List.getLast?_append, List.getLast?_cons]

theorem drainDead_drops : Drops w w.drainDead 0 := by
  refine ⟨by simp [drainDead], ?_, ?_, rfl, rfl⟩
  · simp [live, drainDead]
  · rw [uncommitted_eq, uncommitted_eq]
    simp [drainDead]

theorem compactHistory_eq : w.compactHistory = w ∨ w.compactHistory = w.drainDead := by
  unfold compactHistory
  split
  · exact .inl rfl
  · split
    · exact .inr rfl
    · exact .inl rfl

@[simp] theorem compactHistory_chunkLens : w.compactHistory.chunkLens = w.chunkLens := by
  rcases w.compactHistory_eq with h | h
  · rw [h]
  · rw [h]
    rfl

@[simp] theorem compactHistory_historyAbsStart :
    w.compactHistory.historyAbsStart = w.historyAbsStart := by
  rcases w.compactHistory_eq with h | h
  · rw [h]
  · rw [h]
    rfl

theorem compactHistory_drops : Drops w w.compactHistory 0 := by
  rcases w.compactHistory_eq with h | h
  · rw [h]
    exact Drops.refl w
  · rw [h]
    exact w.drainDead_drops

/-- `w'` is `w` with `n` of its oldest bytes gone and the next `len` bytes claimed. -/
structure Commits (w w' : ChunkWindow) (n len : Nat) : Prop where
  le : n ≤ w.windowSize
  windowSize : w'.windowSize = w.windowSize - n + len
  live : w'.live = w.live.drop n ++ w.uncommitted.take len
  uncommitted : w'.uncommitted = w.uncommitted.drop len
  maxWindowSize : w'.maxWindowSize = w.maxWindowSize

theorem claim_spec {len : Nat} (h : len ≤ w.uncommittedLen) :
    ∃ w', w.claim len = some w' ∧ Commits w w' 0 len ∧ w'.chunkLens = w.chunkLens ++ [len] ∧
      w'.historyAbsStart = w.historyAbsStart := by
  rw [claim, dif_pos h]
  refine ⟨_, rfl, ⟨by simp, by simp, ?_, ?_, rfl⟩, rfl, rfl⟩
  · rw [uncommitted_eq]
    simp [live, List.take_add, List.drop_drop]
  · rw [uncommitted_eq, uncommitted_eq]
    simp [List.drop_drop, Nat.add_assoc]

theorem Drops.commits {w w' w'' : ChunkWindow} {n len : Nat} (h : Drops w w' n)
    (h' : Commits w' w'' 0 len) : Commits w w'' n len where
  le := by
    have := h.windowSize
    omega
  windowSize := by
    have := h.windowSize
    rw [h'.windowSize]
    omega
  live := by rw [h'.live, h.live, h.uncommitted, List.drop_zero]
  uncommitted := by rw [h'.uncommitted, h.uncommitted]
  maxWindowSize := h'.maxWindowSize.trans h.maxWindowSize

theorem compact_claim_spec {len : Nat} (h : len ≤ w.uncommittedLen) :
    ∃ w', w.compactHistory.claim len = some w' ∧ Commits w w' 0 len ∧
      w'.chunkLens = w.chunkLens ++ [len] ∧ w'.historyAbsStart = w.historyAbsStart := by
  have hd := w.compactHistory_drops
  obtain ⟨w', hw', hc, hl, ha⟩ := w.compactHistory.claim_spec (hd.uncommittedLen ▸ h)
  exact ⟨w', hw', hd.commits hc, by simpa using hl, by simpa using ha⟩

/-- A block that fits the window is committed with room for it, the oldest blocks evicted. -/
theorem commitBlock_spec {len : Nat} (h0 : len ≠ 0) (hm : len ≤ w.maxWindowSize)
    (hu : len ≤ w.uncommittedLen) :
    ∃ w' front rest, w.commitBlock len = some w' ∧ w.chunkLens = front ++ rest ∧
      w'.chunkLens = rest ++ [len] ∧ Commits w w' front.sum len ∧
      w'.windowSize ≤ w.maxWindowSize ∧
      ∀ c ∈ front.getLast?, w.maxWindowSize < c + w'.windowSize := by
  obtain ⟨v, front, hv, hf, hd, hle, -, hlast⟩ := w.evict_spec hm
  obtain ⟨w', hw', hc, hl, -⟩ := v.compact_claim_spec (hd.uncommittedLen ▸ hu)
  have hs := hc.windowSize
  refine ⟨w', front, v.chunkLens, ?_, hf, hl, hd.commits hc, by omega, ?_⟩
  · rw [commitBlock, if_neg h0, if_neg (by omega), hv]
    exact hw'
  · intro c hcl
    have := hlast c hcl
    omega

theorem rebasePositions_drops : Drops w w.rebasePositions 0 :=
  ⟨by simp [rebasePositions], by simp [live, rebasePositions], rfl, rfl, rfl⟩

theorem rowCommitBlock_spec {len : Nat} (h0 : len ≠ 0) (hm : len ≤ w.maxWindowSize)
    (hu : len ≤ w.uncommittedLen) :
    ∃ w' front rest, w.rowCommitBlock len = some w' ∧ w.chunkLens = front ++ rest ∧
      w'.chunkLens = rest ++ [len] ∧ Commits w w' front.sum len ∧
      w'.windowSize ≤ w.maxWindowSize + len ∧
      ∀ c ∈ front.getLast?, w.maxWindowSize + len < c + w'.windowSize := by
  have hr : ∃ r, r = (if w.historyAbsStart + w.windowSize + len ≥ u32Max - 1 - btIdxBase then
      w.rebasePositions else w) ∧ Drops w r 0 ∧ r.chunkLens = w.chunkLens := by
    refine ⟨_, rfl, ?_⟩
    split
    · exact ⟨w.rebasePositions_drops, rfl⟩
    · exact ⟨Drops.refl w, rfl⟩
  obtain ⟨r, hr, hdr, hrl⟩ := hr
  obtain ⟨v, front, hv, hf, hd, hle, -, hlast⟩ := r.evict_spec (Nat.zero_le _)
  have hd := hdr.trans hd
  rw [hdr.maxWindowSize] at hle hlast
  rw [Nat.zero_add] at hd
  obtain ⟨w', hw', hc, hl, -⟩ := v.compact_claim_spec (hd.uncommittedLen ▸ hu)
  have hs := hc.windowSize
  refine ⟨w', front, v.chunkLens, ?_, hrl ▸ hf, hl, hd.commits hc, by omega, ?_⟩
  · rw [rowCommitBlock, if_neg h0, if_neg (by omega), ← hr]
    change (r.evict 0).bind _ = _
    rw [hv]
    exact hw'
  · intro c hcl
    have := hlast c hcl
    omega

end ChunkWindow

end Encoding
