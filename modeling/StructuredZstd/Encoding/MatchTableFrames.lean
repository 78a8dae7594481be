import StructuredZstd.Encoding.OptimalSearch

namespace Encoding

/-- What a frame's level asks of the table. -/
structure HcConfig where
  windowLog : Nat
  hashLog : Nat
  chainLog : Nat
  hash3Log : Nat
  searchDepth : Nat
  searchMls : Nat
deriving Repr, DecidableEq

/-- A context's window log ends at 30. -/
def maxWindowLog : Nat := 30

namespace MatchTable

variable (t : MatchTable)

def new (maxWindowSize : Nat) : MatchTable where
  window := ChunkWindow.empty 0 maxWindowSize
  positionBase := 0
  indexShift := 0
  tables := []
  chainOff := 0
  hash3Off := 0
  hashLog := 20
  chainLog := 19
  hash3Log := 17
  nextToUpdate3 := 0
  skipInsertUntilAbs := 0
  dictIndexFloor := 0
  dictionaryLimitAbs := none
  dictionaryActive := false
  dictResident := false
  searchDepth := 0
  searchMls := 4
  dms := none
  inserted := []
  dictionary := []

def fillUncommitted (bytes : List UInt8) : Option MatchTable :=
  (t.window.fillUncommitted bytes).map fun w => { t with window := w }

def commitBlock (len : Nat) : Option MatchTable :=
  (t.window.commitBlock len).map fun w =>
    if len = 0 then t
    else { t with window := w, nextToUpdate3 := max t.nextToUpdate3 w.historyAbsStart }

/-- The limit lowered, and the window trimmed to it. -/
def shrinkWindow (size : Nat) : Option MatchTable :=
  if t.window.maxWindowSize < size then none
  else (t.window.setMaxWindowSize size).trimToWindow.map fun w => { t with window := w }

/-- A block committed and then handed back, to be committed again in pieces. -/
def handBackBlock (len size : Nat) : Option MatchTable :=
  (t.commitBlock len).bind fun t => (t.shrinkWindow size).bind fun t =>
    (t.window.uncommitBlock len).map fun w => { t with window := w }

/-- `configure` of the generator: new widths drop the tables and the dictionary's tree. -/
def configure (cfg : HcConfig) : MatchTable :=
  let resize := decide (t.hashLog ≠ cfg.hashLog ∨ t.chainLog ≠ cfg.chainLog ∨
    t.hash3Log ≠ cfg.hash3Log)
  let t := { t with
    dms := if resize || decide (t.searchMls ≠ cfg.searchMls) then none else t.dms
    hashLog := cfg.hashLog
    chainLog := cfg.chainLog
    hash3Log := cfg.hash3Log
    searchDepth := cfg.searchDepth
    searchMls := cfg.searchMls }
  if resize && !t.tables.isEmpty then { t with tables := [], chainOff := 0, hash3Off := 0 } else t

/-- The length of the dictionary a retire keeps in the history, when it keeps one. -/
def keptRegion : Option Nat :=
  if t.dictionaryActive && t.dms.isSome && decide (t.window.historyStart = 0) then
    (t.dictionaryLimitAbs.bind fun limit =>
      if t.floor ≤ limit then some (limit - t.floor) else none).filter fun r =>
        decide (0 < r ∧ r ≤ t.window.historyStart + t.window.windowSize)
  else none

/-- The tables laid out in the context's workspace: `continues` says that they land on the bytes
the last frame left them in. -/
def bindTables (continues : Bool) : MatchTable :=
  let (hashSize, chainSize, total) := t.tableSizes
  if continues && decide (t.tables.length = total) then t
  else
    { t with
      tables := List.replicate total hcEmpty
      chainOff := hashSize
      hash3Off := hashSize + chainSize }

/-- The window a reset leaves when it keeps the first `region` bytes of the history. -/
def keepWindow (w : ChunkWindow) (region floor : Nat) (h : w.historyStart = 0)
    (hle : region ≤ w.windowSize) : ChunkWindow where
  history := w.history.take region
  historyStart := 0
  historyAbsStart := floor
  chunkLens := [region]
  windowSize := region
  maxWindowSize := w.maxWindowSize + min region (maxPrimedWindowSize - w.maxWindowSize)
  uncommittedLen := 0
  windowSize_eq := by simp
  length_eq := by
    have := w.length_eq
    simp
    omega

/-- `reset` with what the retire before the layout settled: `nextFloor` is the end of the last
frame, `region` the length of the dictionary it keeps. -/
def resetKeeping (region nextFloor : Nat) (h : t.window.historyStart = 0)
    (hle : region ≤ t.window.windowSize) : MatchTable :=
  if nextFloor ≤ rebaseResetFloorCeiling then
    { t with
      window := keepWindow t.window region nextFloor h hle
      skipInsertUntilAbs := nextFloor + region
      nextToUpdate3 := nextFloor + region
      dictionaryLimitAbs := some (nextFloor + region)
      dictResident := true
      inserted := [] }
  else
    { t with
      window := keepWindow t.window region 0 h hle
      positionBase := 0
      indexShift := 0
      tables := List.replicate t.tables.length hcEmpty
      skipInsertUntilAbs := region
      nextToUpdate3 := region
      dictionaryLimitAbs := some region
      dictResident := true
      inserted := [] }

def resetPlain (nextFloor : Nat) : MatchTable :=
  let t := { t with
    skipInsertUntilAbs := 0
    dictionaryLimitAbs := none
    dictResident := false
    inserted := [] }
  let empty := fun floor => ChunkWindow.empty floor t.window.maxWindowSize
  if t.dictionaryActive then
    -- the clear of the tables is left to the prime or the restore that follows
    { t with window := empty 0, positionBase := 0, indexShift := 0, nextToUpdate3 := 0 }
  else if nextFloor ≤ rebaseResetFloorCeiling then
    { t with window := empty nextFloor, nextToUpdate3 := nextFloor }
  else
    { t with
      window := empty 0
      positionBase := 0
      indexShift := 0
      nextToUpdate3 := 0
      tables := List.replicate t.tables.length hcEmpty }

/-- The retire and the reset of a frame start. The bytes no block claimed are dropped first, so
the floor is the end of what was committed. -/
def reset : MatchTable :=
  match t.keptRegion with
  | none => t.resetPlain t.window.historyAbsEnd
  | some region =>
    if hk : t.window.historyStart = 0 ∧ region ≤ t.window.windowSize then
      t.resetKeeping region t.window.historyAbsEnd hk.1 hk.2
    else t

/-- The part of a reset that comes before the retire: the level's widths and window, and a frame
that copies its dictionary drops the tree. -/
def layOut (cfg : HcConfig) (copies continues : Bool) : MatchTable :=
  let t := { t with window := t.window.setMaxWindowSize (1 <<< cfg.windowLog) }.configure cfg
  let t := if copies then { t with dms := none } else t
  t.bindTables continues

def setDictionaryLimitFromPrimedBytes (primedLen : Nat) : MatchTable :=
  { t with
    dictionaryLimitAbs := if primedLen = 0 then none else some (t.floor + primedLen)
    dictionaryActive := decide (primedLen ≠ 0) }

/-- One slice of a dictionary committed, and indexed unless the dictionary is attached. -/
def primeSlice (attach : Bool) (chunk : List UInt8) : Option MatchTable :=
  (t.fillUncommitted chunk).bind fun t => (t.commitBlock chunk.length).bind fun t =>
    if attach then some t.skipMatchingDictBt else t.skipMatching (some false)

end MatchTable

def minPrimedTail : Nat := 4

def MatchTable.primeSlices (t : MatchTable) (attach : Bool) (sliceSize : Nat) (rest : List UInt8) :
    Option MatchTable :=
  if rest = [] then some t
  else
    match MatchGeneratorDriver.primeSliceLen sliceSize minPrimedTail rest.length with
    | none => none
    | some len =>
      if _h : len < minPrimedTail then none
      else (t.primeSlice attach (rest.take len)).bind fun t =>
        t.primeSlices attach sliceSize (rest.drop len)
termination_by rest.length
decreasing_by
  have hne : 0 < rest.length := List.length_pos_iff.mpr ‹_›
  rw [List.length_drop, minPrimedTail] at *
  omega

namespace MatchTable

variable (t : MatchTable)

/-- `prime_with_dictionary` on the tree backend: the deferred clear, then the dictionary's slices. -/
def primeWithDictionary (content : List UInt8) (reachLog : Nat) (attach : Bool) :
    Option MatchTable :=
  let t := t.clearTables
  if content = [] then some t
  else
    let base := t.window.maxWindowSize
    let sliceSize := min maxBlockSize base
    let t := t.setDictionaryIndexFloor (content.length - 1 <<< reachLog)
    let t := { t with
      window := t.window.setMaxWindowSize (min (base + content.length) maxPrimedWindowSize) }
    let hashable := decide (content.length ≥ minPrimedTail)
    let committed := if hashable then content else []
    (t.primeSlices attach sliceSize committed).map fun t =>
      let granted := min committed.length (maxPrimedWindowSize - base)
      let t := { t with
        window := t.window.setMaxWindowSize (base + granted)
        dictionary := committed }
      let t := t.setDictionaryLimitFromPrimedBytes committed.length
      let t := if attach then t.primeDmsBt committed.length else { t with dms := none }
      t.setDictionaryIndexFloor 0

/-- What `capture_primed_dictionary` keeps: a tree of its own stands in for the live tables. -/
def capture : MatchTable :=
  if t.dms.isSome then { t with tables := [], chainOff := 0, hash3Off := 0 } else t

/-- `restore_primed_dictionary`: the snapshot's state, over the tables the reset laid out when it
holds none of its own. -/
def restore (snap : MatchTable) : MatchTable :=
  if snap.tables.isEmpty then { snap with tables := t.tables }.ensureTables else snap

def invalidatePrimedDictionary : MatchTable := { t with dms := none, dictionaryActive := false }

end MatchTable

/-- The dictionary of a frame: its content, how much of its end the tables index, whether it is
attached, whether the frame prefers the snapshot, and whether the snapshot's key is this frame's. -/
structure FrameDictionary where
  content : List UInt8
  reachLog : Nat
  attach : Bool
  preferSnapshot : Bool
  keyMatches : Bool
deriving Repr, DecidableEq

/-- The table of a reused context, with the snapshot of a primed dictionary. -/
structure TreeBackend where
  table : MatchTable
  primed : Option MatchTable

namespace TreeBackend

variable (b : TreeBackend)

/-- `load_frame_dictionary`. -/
def loadFrameDictionary (d : FrameDictionary) : Option TreeBackend :=
  if b.table.dictResident then some b
  else
    let prime := (b.table.primeWithDictionary d.content d.reachLog d.attach).map fun t =>
      if d.preferSnapshot then ⟨t, some t.capture⟩ else { b with table := t }
    if d.preferSnapshot && d.keyMatches then
      match b.primed with
      | some snap => some { b with table := b.table.restore snap }
      | none => prime
    else prime

/-- Start a frame on the reused context. A frame with no dictionary of its own is one whose context
has none attached, or a raw frame, which ignores it. -/
def startFrame (cfg : HcConfig) (continues : Bool) (dict : Option FrameDictionary) :
    Option TreeBackend :=
  if maxWindowLog < cfg.windowLog then none
  else
    let t := (b.table.layOut cfg (dict.any fun d => !d.content.isEmpty && !d.attach)
      continues).reset
    match dict with
    | none => some { b with table := t }
    | some d => { b with table := t }.loadFrameDictionary d

/-- The dictionary is removed or replaced. -/
def invalidate : TreeBackend := ⟨b.table.invalidatePrimedDictionary, none⟩

end TreeBackend

/-- What a context does with the table, between frames and inside one. -/
inductive TreeOp where
  | startFrame (cfg : HcConfig) (continues : Bool) (dict : Option FrameDictionary)
  | invalidate
  | fill (bytes : List UInt8)
  | commit (len : Nat)
  | shrinkWindow (size : Nat)
  | handBack (len size : Nat)
  | startMatching (st : OptimalStrategy) (seed : Option (List Search)) (searches : List Search)
  | skipMatching (incompressibleHint : Option Bool)
  | skipLongMatch

namespace TreeBackend

/-- An operation on the table alone. -/
def onTable (b : TreeBackend) (t : Option MatchTable) : Option TreeBackend :=
  t.map fun t => { b with table := t }

def step (b : TreeBackend) : TreeOp → Option TreeBackend
  | .startFrame cfg continues dict => b.startFrame cfg continues dict
  | .invalidate => some b.invalidate
  | .fill bytes => b.onTable (b.table.fillUncommitted bytes)
  | .commit len => b.onTable (b.table.commitBlock len)
  | .shrinkWindow size => b.onTable (b.table.shrinkWindow size)
  | .handBack len size => b.onTable (b.table.handBackBlock len size)
  | .startMatching st seed searches => b.onTable (b.table.startMatchingOptimal st seed searches)
  | .skipMatching hint => b.onTable (b.table.skipMatching hint)
  | .skipLongMatch => b.onTable (some b.table.skipLongMatch)

def run (b : TreeBackend) : List TreeOp → Option TreeBackend
  | [] => some b
  | op :: rest => (b.step op).bind fun b => b.run rest

def new (maxWindowSize : Nat) : TreeBackend := ⟨MatchTable.new maxWindowSize, none⟩

end TreeBackend

end Encoding
