import StructuredZstd.Encoding.FastWindow

namespace Encoding

def maxPrimedWindowSize : Nat := (u32Max - maxBlockSize) / 2

/-- The backends that evict whole blocks. -/
inductive BlockBackend where
  | dfast
  | row
  | hashChain
deriving Repr, DecidableEq

namespace BlockBackend

def commitBlock : BlockBackend → ChunkWindow → Nat → Option ChunkWindow
  | dfast, w, len => w.commitBlock len
  | row, w, len => w.rowCommitBlock len
  | hashChain, w, len => w.commitBlock len

def trimToWindow : BlockBackend → ChunkWindow → Option ChunkWindow
  | dfast, w => w.dfastTrimToWindow
  | row, w => w.trimToWindow
  | hashChain, w => w.trimToWindow

end BlockBackend

/-- The window of the active backend. -/
inductive MatcherStorage where
  | simple (m : FastWindow)
  | blocks (backend : BlockBackend) (w : ChunkWindow)

namespace MatcherStorage

def live : MatcherStorage → List UInt8
  | simple m => m.live
  | blocks _ w => w.live

def uncommitted : MatcherStorage → List UInt8
  | simple m => m.uncommitted
  | blocks _ w => w.uncommitted

def maxWindowSize : MatcherStorage → Nat
  | simple m => m.maxWindowSize
  | blocks _ w => w.maxWindowSize

def setMaxWindowSize : MatcherStorage → Nat → MatcherStorage
  | simple m, size => simple (m.setMaxWindowSize size)
  | blocks b w, size => blocks b (w.setMaxWindowSize size)

def lastBlockLen : MatcherStorage → Nat
  | simple m => m.lastBlockLen
  | blocks _ w => w.lastBlockLen

/-- A committed block waits to be searched or skipped; only the Fast backend keeps track of it. -/
def staged : MatcherStorage → Bool
  | simple m => m.stagedBlock.isSome
  | blocks _ _ => false

def minPrimedTail : MatcherStorage → Nat
  | simple _ => 5
  | blocks _ _ => 4

theorem minPrimedTail_pos (s : MatcherStorage) : 0 < s.minPrimedTail := by
  cases s <;> simp [minPrimedTail]

def setDictionaryIndexFloor : MatcherStorage → Nat → MatcherStorage
  | simple m, floor => simple { m with dictIndexFloor := floor }
  | blocks b w, _ => blocks b w

def fillInPlace : MatcherStorage → List UInt8 → Option MatcherStorage
  | simple m, bytes => some (simple (m.fillUncommitted bytes))
  | blocks b w, bytes => (w.fillUncommitted bytes).map (blocks b)

/-- `commit_block` with the bytes it evicted. -/
def commitBlock : MatcherStorage → Nat → Option (MatcherStorage × Nat)
  | simple m, len => (m.commitBlock len).map fun (m, evicted) => (simple m, evicted)
  | blocks b w, len =>
    (b.commitBlock w len).map fun w' => (blocks b w', w.windowSize + len - w'.windowSize)

def trimToWindow : MatcherStorage → Option (MatcherStorage × Nat)
  | simple m => some (simple m.trimToWindow.1, m.trimToWindow.2)
  | blocks b w =>
    (b.trimToWindow w).map fun w' => (blocks b w', w.windowSize - w'.windowSize)

/-- A block searched, or skipped and indexed: the window stays, the block is no longer staged. -/
def scanBlock : MatcherStorage → Option MatcherStorage
  | simple m => m.startMatching.map fun (m, _) => simple m
  | blocks b w => some (blocks b w)

def uncommitBlock : MatcherStorage → Nat → Option MatcherStorage
  | simple m, len => (m.uncommitBlock len).map simple
  | blocks b w, len => (w.uncommitBlock len).map (blocks b)

/-- Commit a piece of a block handed back, and search or index it. -/
def scanPiece (s : MatcherStorage) (len : Nat) : Option MatcherStorage :=
  (s.commitBlock len).bind fun (s, _) => s.scanBlock

/-- The gaps and bodies of the long-distance matches, then what the last one leaves. -/
def scanPieces (s : MatcherStorage) (left : Nat) : List (Nat × Nat) → Option MatcherStorage
  | [] => if left ≠ 0 then s.scanPiece left else some s
  | (litLength, matchLength) :: rest =>
    if left < litLength + matchLength then none
    else
      (if litLength ≠ 0 then s.scanPiece litLength else some s).bind fun s =>
        (s.scanPiece matchLength).bind fun s =>
          s.scanPieces (left - (litLength + matchLength)) rest

/-- `start_matching_long_distance`: a block with long-distance matches is handed back and committed
again in pieces. -/
def scanLongDistance (s : MatcherStorage) (sequences : List (Nat × Nat)) : Option MatcherStorage :=
  if sequences.isEmpty then s.scanBlock
  else (s.uncommitBlock s.lastBlockLen).bind fun s' => s'.scanPieces s.lastBlockLen sequences

/-- How far before the newest block its search may reach. The block-evicting backends search what
they retain; the Fast backend stops at the floor it hands the kernel. -/
def reach : MatcherStorage → Nat
  | simple m => m.lastBlockStart - m.windowLow
  | blocks _ w => w.windowSize - w.lastBlockLen

/-- One slice of a dictionary indexed; `attach` is the Fast backend's dictionary mode. -/
def indexDictionarySlice (attach : Bool) : MatcherStorage → Option MatcherStorage
  | simple m =>
    (if attach then m.skipMatchingForDictPrime else m.skipMatchingForDictCopy).map simple
  | blocks b w => some (blocks b w)

def markDictPrimed : MatcherStorage → MatcherStorage
  | simple m => simple { m with dict := m.dict.markPrimed }
  | blocks b w => blocks b w

/-- Evicted bytes leave the window. -/
theorem trimToWindow_length {s s' : MatcherStorage} {evicted : Nat}
    (h : s.trimToWindow = some (s', evicted)) (h0 : evicted ≠ 0) :
    s'.live.length < s.live.length := by
  cases s with
  | simple m =>
    simp only [trimToWindow, Option.some.injEq, Prod.mk.injEq] at h
    obtain ⟨rfl, rfl⟩ := h
    rw [FastWindow.trimToWindow] at h0 ⊢
    split at h0
    · exact absurd rfl h0
    · rename_i hgt
      rw [if_neg hgt]
      simp [live, FastWindow.live, FastWindow.drainRealPrefix, FastWindow.committedLen,
        FastWindow.realLen] at hgt h0 ⊢
      omega
  | blocks b w =>
    obtain ⟨w', hw', he⟩ := Option.map_eq_some_iff.mp h
    cases he
    simp [live]
    omega

@[simp] theorem setMaxWindowSize_live (s : MatcherStorage) (size : Nat) :
    (s.setMaxWindowSize size).live = s.live := by
  cases s <;> rfl

end MatcherStorage

/-- The driver's window state: the backend, the part of its limit granted to a dictionary, the
window the frame header announces, the slices a dictionary is primed in, and how the reset sized
the frame. -/
structure MatchGeneratorDriver where
  storage : MatcherStorage
  dictionaryRetainedBudget : Nat
  reportedWindowSize : Nat
  sliceSize : Nat
  resetSizeLog : Option Nat
  resetDictAttachOk : Bool
  dictReachLog : Nat

namespace MatchGeneratorDriver

/-- Shrink the limit by the dictionary's share of the bytes evicted; says whether there was any. -/
def retireDictionaryBudget (d : MatchGeneratorDriver) (evictedBytes : Nat) :
    MatchGeneratorDriver × Bool :=
  let reclaimed := min evictedBytes d.dictionaryRetainedBudget
  if reclaimed = 0 then (d, false)
  else
    ({ d with
        dictionaryRetainedBudget := d.dictionaryRetainedBudget - reclaimed
        storage := d.storage.setMaxWindowSize (d.storage.maxWindowSize - reclaimed) }, true)

theorem retireDictionaryBudget_live (d : MatchGeneratorDriver) (evictedBytes : Nat) :
    (d.retireDictionaryBudget evictedBytes).1.storage.live = d.storage.live := by
  unfold retireDictionaryBudget
  dsimp only
  split
  · rfl
  · simp

/-- Trim and retire until nothing more is evicted. -/
def trimAfterBudgetRetire (d : MatchGeneratorDriver) : Option MatchGeneratorDriver :=
  match _h : d.storage.trimToWindow with
  | none => none
  | some (s, evictedBytes) =>
    if _h0 : evictedBytes = 0 then some { d with storage := s }
    else trimAfterBudgetRetire ({ d with storage := s }.retireDictionaryBudget evictedBytes).1
termination_by d.storage.live.length
decreasing_by
  rw [retireDictionaryBudget_live]
  exact MatcherStorage.trimToWindow_length _h _h0

def commitFilled (d : MatchGeneratorDriver) (len : Nat) : Option MatchGeneratorDriver :=
  (d.storage.commitBlock len).bind fun (s, evictedBytes) =>
    let (d, retired) := { d with storage := s }.retireDictionaryBudget evictedBytes
    if retired then d.trimAfterBudgetRetire else some d

def fillInPlace (d : MatchGeneratorDriver) (bytes : List UInt8) : Option MatchGeneratorDriver :=
  (d.storage.fillInPlace bytes).map fun s => { d with storage := s }

def fastAttachDictCutoffLog : Nat := 13
/-- Whether the Fast backend attaches a dictionary rather than copying it. -/
def fastAttach (d : MatchGeneratorDriver) : Bool :=
  d.resetDictAttachOk && d.resetSizeLog.all fun log => decide (log ≤ fastAttachDictCutoffLog)

/-- The length of the next slice of a dictionary with `left` bytes to go: a last slice too short to
hash is avoided by ending the one before it earlier, or by running that to the end. -/
def primeSliceLen (sliceSize minTail left : Nat) : Option Nat :=
  if left ≤ sliceSize then some left
  else if left - sliceSize < minTail then
    if left < minTail then none
    else if left - minTail ≥ minTail then some (left - minTail)
    else some left
  else some sliceSize

def primeSlice (d : MatchGeneratorDriver) (chunk : List UInt8) : Option MatchGeneratorDriver :=
  (d.fillInPlace chunk).bind fun d =>
    (d.commitFilled chunk.length).bind fun d =>
      (d.storage.indexDictionarySlice d.fastAttach).map fun s => { d with storage := s }

/-- Commit and index a dictionary slice by slice. -/
def primeSlices (d : MatchGeneratorDriver) (rest : List UInt8) : Option MatchGeneratorDriver :=
  if rest = [] then some d
  else
    match primeSliceLen d.sliceSize d.storage.minPrimedTail rest.length with
    | none => none
    | some len =>
      if _h : len < d.storage.minPrimedTail then none
      else (d.primeSlice (rest.take len)).bind fun d' => d'.primeSlices (rest.drop len)
termination_by rest.length
decreasing_by
  have hpos := d.storage.minPrimedTail_pos
  have hne : 0 < rest.length := List.length_pos_iff.mpr ‹_›
  rw [List.length_drop]
  omega

/-- `prime_with_dictionary`, as far as the window and its budget go. -/
def primeWithDictionary (d : MatchGeneratorDriver) (dictContent : List UInt8) :
    Option MatchGeneratorDriver :=
  if dictContent = [] then some d
  else
    let base := d.storage.maxWindowSize
    let storage := (d.storage.setDictionaryIndexFloor
      (dictContent.length - 1 <<< d.dictReachLog)).setMaxWindowSize
        (min (base + dictContent.length) maxPrimedWindowSize)
    let hashable := decide (dictContent.length ≥ storage.minPrimedTail)
    (primeSlices { d with storage := storage } (if hashable then dictContent else [])).map fun d' =>
      let committed := if hashable then dictContent.length else 0
      let granted := min committed (maxPrimedWindowSize - base)
      { d' with
        storage :=
          ((d'.storage.setMaxWindowSize (base + granted)).markDictPrimed).setDictionaryIndexFloor 0
        dictionaryRetainedBudget := d'.dictionaryRetainedBudget + granted }

end MatchGeneratorDriver

end Encoding
