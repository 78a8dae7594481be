import StructuredZstd.Encoding.MatchGenerator
import StructuredZstd.Encoding.FastHashTable

namespace Encoding

open Lz

def rawSkipIndexStep : Nat := 512
def longMatchIndexedTail : Nat := 512
def longMatchFillStep : Nat := 3

/-- What a reset does with a hash table that continues the previous frame's. -/
inductive TableCarry where
  | clear
  | advanceEpoch
  | overwrittenByRestore (tagged : Bool)
deriving Repr, DecidableEq

/-- The fill from which slots are tagged, as numerator and denominator. -/
def fastTagMinFill : Nat × Nat := (3, 2)

def fastSlotsPayForTags (expectedInput dictionaryLen stepSize hashLog : Nat) : Bool :=
  decide (3 * fastTagMinFill.1 * stepSize * 1 <<< hashLog ≤
    fastTagMinFill.2 * (6 * expectedInput + stepSize * dictionaryLen))

def taggedPositionsFit (maxWindowSize : Nat) : Bool :=
  decide (maxWindowSize * 2 + maxBlockSize ≤ taggedPositionLimit)

/-- What the driver resolves for a frame ahead of its reset. -/
structure FastFrameShape where
  windowLog : Nat
  hashLog : Nat
  mls : Nat
  stepSize : Nat
  expectedInput : Nat
  dictionaryLen : Nat
  carry : TableCarry
deriving Repr, DecidableEq

namespace FastFrameShape

variable (s : FastFrameShape)

def primedWindow : Nat := min (1 <<< s.windowLog + s.dictionaryLen) maxPrimedWindowSize

/-- The frame's slots carry tags. -/
def tagged : Bool :=
  decide (s.windowLog < 19) &&
    fastSlotsPayForTags s.expectedInput s.dictionaryLen s.stepSize s.hashLog &&
    s.carry != .advanceEpoch && decide (s.hashLog + slotTagBits ≤ 32) &&
    taggedPositionsFit s.primedWindow

def tagBits : Nat := if s.tagged then slotTagBits else 0

end FastFrameShape

namespace FastHashTable

/-- A hash reduced to the width of the table's slots and tags. -/
def reduceHash (t : FastHashTable) (h : Nat) : Nat := h % 2 ^ (t.hashLog + t.tagBits)

/-- A store of the kernels that take the raw slots and leave the bias out. -/
def hotPut (t : FastHashTable) (hash pos : Nat) : FastHashTable :=
  { { t with bias := 0 }.put hash pos with bias := t.bias }

/-- Store positions one after another, each under its hash. -/
def putEach (put : FastHashTable → Nat → Nat → FastHashTable) (hash : Nat → Nat) :
    List Nat → FastHashTable → FastHashTable
  | [], t => t
  | p :: ps, t => putEach put hash ps (put t (t.reduceHash (hash p)) (p % 2 ^ 32))

/-- One step of a dictionary fill: a position overwrites its slot, the two after it take only
empty ones. Gives the positions stored. -/
def fillGroup (hash : Nat → Nat) (s : Nat) (t : FastHashTable) : List Nat :=
  let t := t.put (t.reduceHash (hash s)) s
  if t.slotIsEmpty (t.reduceHash (hash (s + 1))) then
    let t := t.put (t.reduceHash (hash (s + 1))) (s + 1)
    if t.slotIsEmpty (t.reduceHash (hash (s + 2))) then [s, s + 1, s + 2] else [s, s + 1]
  else if t.slotIsEmpty (t.reduceHash (hash (s + 2))) then [s, s + 2]
  else [s]

/-- The positions a copied dictionary's fill stores, and where the next slice resumes it. -/
def dictCopyFill (hash : Nat → Nat) (s lastHashable : Nat) (t : FastHashTable) : List Nat × Nat :=
  if s + 3 < lastHashable + 2 then
    let group := t.fillGroup hash s
    let (rest, next) := dictCopyFill hash (s + 3) lastHashable (t.putEach put hash group)
    (group ++ rest, next)
  else ([], s)
termination_by lastHashable + 2 - s

end FastHashTable

/-- Every `step`-th position of a range with both its ends densely, or all of it. -/
def steppedPositions (rangeStart lastHashable step : Nat) : List Nat :=
  let upTo (a b : Nat) := List.range' a (b + 1 - a)
  if step = 1 then upTo rangeStart lastHashable
  else
    upTo rangeStart (min lastHashable (rangeStart + 8)) ++
      upTo (max (lastHashable - 8) rangeStart) lastHashable ++
      List.range' rangeStart ((lastHashable - rangeStart) / step + 1) step

/-- The positions indexed for the bytes from `rangeStart` to the window's end, with the seam
before them. -/
def rangePositions (rangeStart windowEnd step : Nat) : List Nat :=
  let lastHashable := windowEnd - hashReadSize
  let backfillStart := rangeStart - (hashReadSize - 1)
  if windowEnd < hashReadSize ∨ lastHashable < backfillStart then []
  else steppedPositions backfillStart lastHashable step

/-- The positions a skipped block is indexed at under a hint. -/
def skipPositions (hint : Option Bool) (rangeStart windowEnd : Nat) : List Nat :=
  match hint with
  | none => []
  | some false => rangePositions rangeStart windowEnd 1
  | some true => rangePositions rangeStart windowEnd rawSkipIndexStep

/-- The positions indexed for the body of a long-distance match. -/
def longMatchPositions (start stop : Nat) : List Nat :=
  rangePositions (stop - min (stop - start) longMatchIndexedTail) stop longMatchFillStep

/-- The window of the next frame: empty, or the dictionary left in place and counted towards the
window. -/
def FastWindow.reset (w : FastWindow) (windowLog : Nat) (dict : DictAttach) :
    Option Nat → FastWindow
  | none => { FastWindow.empty windowLog with dict := dict, dictIndexFloor := w.dictIndexFloor }
  | some region =>
    { FastWindow.empty windowLog with
      history := w.live.take region
      maxWindowSize := 1 <<< windowLog + min region (maxPrimedWindowSize - 1 <<< windowLog)
      lastBlockStart := region
      dict := dict
      dictIndexFloor := w.dictIndexFloor
      uncommittedLen_le := Nat.zero_le _ }

/-- `FastKernelMatcher`: its window, its hash table, the length of the input it scans in place,
and the highest window end it has scanned since the table was last emptied. -/
structure FastKernelMatcher where
  window : FastWindow
  hashTable : FastHashTable
  borrowed : Option Nat
  tablePosHighWater : Nat
  dictResident : Bool
  dictCopyFillNext : Nat

namespace FastKernelMatcher

variable (m : FastKernelMatcher)

def withParamsDeferred (windowLog hashLog mls : Nat) : FastKernelMatcher where
  window := .empty windowLog
  hashTable := .newDeferred hashLog mls
  borrowed := none
  tablePosHighWater := 0
  dictResident := false
  dictCopyFillNext := 0

/-- The table, the cached dictionary and the dictionary bytes a reset keeps. -/
def resetTable (s : FastFrameShape) (kept : Bool) :
    Option (FastHashTable × DictAttach × Option Nat) :=
  match m.hashTable.bind kept s.hashLog s.mls s.tagged with
  | none => none
  | some (t, false) => some (t, m.window.dict.invalidate, none)
  | some (t, true) =>
    if s.carry = .overwrittenByRestore s.tagged then some (t, m.window.dict, none)
    else if s.carry = .advanceEpoch ∧ m.window.dict.primed then
      let region := m.window.dict.regionLen
      some (t.advanceEpoch (min m.tablePosHighWater u32Max), m.window.dict,
        if 0 < region ∧ region ≤ m.window.committedLen then some region else none)
    else some (t.clear, m.window.dict, none)

def reset (s : FastFrameShape) (kept : Bool) : Option FastKernelMatcher :=
  if 2 ≤ s.stepSize ∧ s.windowLog ≤ 30 then
    (m.resetTable s kept).map fun (t, dict, reborrow) =>
      { window := m.window.reset s.windowLog dict reborrow
        hashTable := t
        borrowed := none
        tablePosHighWater := 0
        dictResident := reborrow.isSome
        dictCopyFillNext := 0 }
  else none

/-- Widen the window by a dictionary about to be primed, and stop tagging if it outgrows what a
tagged slot holds. -/
def widenForDictionary (len : Nat) : FastKernelMatcher :=
  let size := min (m.window.maxWindowSize + len) maxPrimedWindowSize
  { m with
    window := m.window.setMaxWindowSize size
    hashTable :=
      if m.hashTable.isTagged ∧ ¬taggedPositionsFit size then m.hashTable.untagEmpty
      else m.hashTable }

/-- The table after the window dropped bytes off its front. -/
def slideTable (evicted : Nat) : FastHashTable :=
  if 0 < evicted then m.hashTable.reduceIndices (evicted % 2 ^ 32) else m.hashTable

def commitBlock (len : Nat) : Option FastKernelMatcher :=
  (m.window.commitBlock len).map fun (w, evicted) =>
    { m with window := w, hashTable := m.slideTable evicted }

def trimToWindow : FastKernelMatcher :=
  let (w, evicted) := m.window.trimToWindow
  { m with window := w, hashTable := m.slideTable evicted }

/-- Take the staged block, and remember how far a scan of it can store. -/
def takeStagedBlock : Option (FastKernelMatcher × Nat) :=
  m.window.takeStagedBlock.map fun (w, start) =>
    ({ m with
        window := w
        tablePosHighWater := max m.tablePosHighWater m.window.committedLen }, start)

/-- How the kernel for the frame stores: past the bias only beside an attached dictionary. -/
def kernelPut : FastHashTable → Nat → Nat → FastHashTable :=
  if m.window.dict.attached then .put else .hotPut

/-- The first position of the input when it is scanned in place. -/
def inputBase : Nat := m.window.dict.regionLen

/-- The window's end when the input is scanned in place up to `stop`. -/
def virtualEnd (stop : Nat) : Nat :=
  if m.window.dict.attached then m.inputBase + stop else stop

/-- Read the input in place from now on; past what a tagged slot holds, untagged. -/
def setBorrowedWindow (len : Nat) : Option FastKernelMatcher :=
  if m.window.stagedBlock.isNone ∧ m.window.uncommittedLen = 0 ∧ m.borrowed.isNone then
    some { m with
      hashTable :=
        if m.hashTable.isTagged ∧ taggedPositionLimit < len then m.hashTable.untagEmpty
        else m.hashTable
      borrowed := some len }
  else none

def clearBorrowedWindow : FastKernelMatcher := { m with borrowed := none }

/-- The bounds of an in-place block are checked against the input. -/
def blockInBounds (start stop : Nat) : Bool :=
  match m.borrowed with
  | some total => decide (start ≤ stop ∧ stop ≤ total)
  | none => false

end FastKernelMatcher

end Encoding
