import StructuredZstd.Encoding.ChunkWindow

namespace Encoding

def historyDrainBase : Nat := 0
def initialPrefixStartIndex : Nat := 1
def hashReadSize : Nat := 8
def dictTagBits : Nat := 8

/-- The lifecycle of an attached dictionary table: whether there is one, the dictionary bytes at
the front of the history, whether it is fully built, and where its fill resumes. -/
structure DictAttach where
  attached : Bool
  regionLen : Nat
  primed : Bool
  nextToUpdate : Nat
deriving Repr, DecidableEq

namespace DictAttach

def new : DictAttach := ⟨false, 0, false, 0⟩

def invalidate (_ : DictAttach) : DictAttach := new

def markPrimed (d : DictAttach) : DictAttach :=
  if d.attached then { d with primed := true } else d

end DictAttach

/-- Where a stride-3 fill of a dictionary table stops. -/
def dictFillEnd (s lastHashable : Nat) : Nat :=
  if s + 3 < lastHashable + 2 then dictFillEnd (s + 3) lastHashable else s
termination_by lastHashable + 2 - s

/-- The lower bounds the kernel searches one block under. -/
structure PrefixBounds where
  prefixStartIndex : Nat
  windowLow : Nat
deriving Repr, DecidableEq

/-- The window of a `FastKernelMatcher`: the history with the bytes read but not committed at its
end, and the dictionary it may hold at its front. -/
structure FastWindow where
  history : List UInt8
  uncommittedLen : Nat
  maxWindowSize : Nat
  windowLog : Nat
  stagedBlock : Option Nat
  lastBlockStart : Nat
  prefixStartIndex : Nat
  loadedDictEnd : Nat
  dict : DictAttach
  dictIndexFloor : Nat
  uncommittedLen_le : uncommittedLen ≤ history.length

namespace FastWindow

variable (m : FastWindow)

/-- The window after a reset that keeps no dictionary. -/
def empty (windowLog : Nat) : FastWindow where
  history := []
  uncommittedLen := 0
  maxWindowSize := 1 <<< windowLog
  windowLog := windowLog
  stagedBlock := none
  lastBlockStart := historyDrainBase
  prefixStartIndex := initialPrefixStartIndex
  loadedDictEnd := 0
  dict := .new
  dictIndexFloor := 0
  uncommittedLen_le := Nat.le_refl 0

def committedLen : Nat := m.history.length - m.uncommittedLen

def live : List UInt8 := m.history.take m.committedLen

def uncommitted : List UInt8 := m.history.drop m.committedLen

def lastBlockLen : Nat := m.committedLen - m.lastBlockStart

def setMaxWindowSize (size : Nat) : FastWindow := { m with maxWindowSize := size }

def fillUncommitted (bytes : List UInt8) : FastWindow :=
  { m with
    history := m.history ++ bytes
    uncommittedLen := m.uncommittedLen + bytes.length
    uncommittedLen_le := by
      have := m.uncommittedLen_le
      simp
      omega }

/-- Drop the oldest `dropN` bytes: the dictionary's positions are void after it. The positions of
the hash table slide with the history. -/
def drainRealPrefix (dropN : Nat) (h : dropN ≤ m.committedLen) : FastWindow :=
  { m with
    history := m.history.drop dropN
    prefixStartIndex := initialPrefixStartIndex
    dict := m.dict.invalidate
    loadedDictEnd := 0
    lastBlockStart := m.lastBlockStart - dropN
    uncommittedLen_le := by
      have := m.uncommittedLen_le
      simp [committedLen] at h ⊢
      omega }

def realLen : Nat := m.committedLen - historyDrainBase

/-- The bytes `commit_block` drops ahead of a block of `len` bytes. -/
def evictedBy (len : Nat) : Nat :=
  if m.realLen > m.maxWindowSize * 2 - len then
    m.realLen - min (m.maxWindowSize * 2 - len) m.maxWindowSize
  else 0

theorem evictedBy_le (len : Nat) : m.evictedBy len ≤ m.committedLen := by
  rw [evictedBy]
  split
  · rw [realLen]
    omega
  · exact Nat.zero_le _

/-- Stage the first `len` uncommitted bytes as the next block. -/
def stage (len : Nat) : FastWindow :=
  { m with
    uncommittedLen := m.uncommittedLen - len
    lastBlockStart := m.history.length - (m.uncommittedLen - len) - len
    stagedBlock := some len
    uncommittedLen_le := Nat.le_trans (Nat.sub_le _ _) m.uncommittedLen_le }

/-- The window is trimmed back to `max_window_size` only once it would outgrow twice that. Gives
the window and the bytes evicted. -/
def commitBlock (len : Nat) : Option (FastWindow × Nat) :=
  if m.stagedBlock.isSome ∨ m.uncommittedLen < len ∨ m.maxWindowSize * 2 < len then none
  else
    let evicted := m.evictedBy len
    let m := if evicted > 0 then m.drainRealPrefix evicted (m.evictedBy_le len) else m
    some (m.stage len, evicted)

def trimToWindow : FastWindow × Nat :=
  if m.realLen ≤ m.maxWindowSize then (m, 0)
  else (m.drainRealPrefix (m.realLen - m.maxWindowSize) (by simp [realLen]; omega),
    m.realLen - m.maxWindowSize)

/-- The window with its staged block taken, and where the block starts. -/
def takeStagedBlock : Option (FastWindow × Nat) :=
  m.stagedBlock.map fun len => ({ m with stagedBlock := none }, m.committedLen - len)

def effectiveDictEnd : Nat :=
  if m.loadedDictEnd ≠ 0 then m.loadedDictEnd
  else if m.dict.attached then m.dict.regionLen
  else 0

/-- The lowest position a scan of the newest block may match: measured from the block's end against
the announced window, or the dictionary's start while the dictionary is in reach. -/
def windowLow : Nat :=
  let advertisedWindow := 1 <<< m.windowLog
  let blockEnd := m.committedLen
  if m.effectiveDictEnd ≠ 0 ∧ blockEnd ≤ advertisedWindow + m.effectiveDictEnd then 0
  else blockEnd - advertisedWindow

/-- `start_matching`, up to the kernel: the window after it and the bounds the kernel is given. -/
def startMatching : Option (FastWindow × PrefixBounds) :=
  m.takeStagedBlock.map fun (m', _) =>
    (m', ⟨max m.windowLow m.prefixStartIndex, m.windowLow⟩)

/-- Hand the staged block, which lies inside the history, back to the uncommitted input. -/
def uncommitBlock (len : Nat) : Option FastWindow :=
  if h : m.stagedBlock = some len ∧ m.uncommittedLen + len ≤ m.history.length then
    some { m with
      stagedBlock := none
      uncommittedLen := m.uncommittedLen + len
      uncommittedLen_le := h.2 }
  else none

def primeDictTableForRange : Option FastWindow :=
  let historyLen := m.committedLen
  let dict := { m.dict with regionLen := historyLen }
  let fillStart := max m.dict.nextToUpdate m.dictIndexFloor
  let lastHashable := historyLen - hashReadSize
  if m.dict.primed ∨ historyLen < hashReadSize ∨ fillStart > lastHashable then
    some { m with dict := dict }
  else if lastHashable >>> (32 - dictTagBits) ≠ 0 then none
  else
    some { m with
      dict := { dict with attached := true, nextToUpdate := dictFillEnd fillStart lastHashable } }

/-- One slice of an attached dictionary. -/
def skipMatchingForDictPrime : Option FastWindow :=
  m.takeStagedBlock.bind fun (m, _) => m.primeDictTableForRange

/-- One slice of a copied dictionary. -/
def skipMatchingForDictCopy : Option FastWindow :=
  m.takeStagedBlock.map fun (m, _) =>
    { m with dict := m.dict.invalidate, loadedDictEnd := m.committedLen }

end FastWindow

end Encoding
