import StructuredZstd.Bits.Bytes
import StructuredZstd.Encoding.MatchGenerator

namespace Encoding

/-- What a `usize` holds of an integer computed with wrapping operations. -/
def wrapUsize (i : Int) : Nat := (i % 2 ^ 64).toNat

def wrapU32 (i : Int) : Nat := (i % 2 ^ 32).toNat

def hcPrime3Bytes : Nat := 506832829
def hcPrime4Bytes : Nat := 2654435761
def hcPrime5Bytes : Nat := 889523592379
def hcPrime6Bytes : Nat := 227718039650203

/-- The stored value of an empty slot. -/
def hcEmpty : Nat := 0

def rebaseResetFloorCeiling : Nat := usizeMax >>> 1
def incompressibleSkipStep : Nat := 512
def hcMinMatchLen : Nat := 4

def readLe (data : List UInt8) (idx n : Nat) : Nat := Bits.le ((data.drop idx).take n)

def hashValueWithMls (value hashLog mls : Nat) : Nat :=
  if mls = 3 then ((value <<< 8 % 2 ^ 32 * hcPrime3Bytes) % 2 ^ 32) >>> (32 - hashLog)
  else ((value * hcPrime4Bytes) % 2 ^ 32) >>> (32 - hashLog)

def hashValue8WithMls (value hashLog mls : Nat) : Nat :=
  if mls = 6 then ((value <<< 16 % 2 ^ 64 * hcPrime6Bytes) % 2 ^ 64) >>> (64 - hashLog)
  else ((value <<< 24 % 2 ^ 64 * hcPrime5Bytes) % 2 ^ 64) >>> (64 - hashLog)

def hashPositionAt (data : List UInt8) (idx hashLog mls : Nat) : Nat :=
  if mls ≥ 5 then hashValue8WithMls (readLe data idx 8) hashLog mls
  else hashValueWithMls (readLe data idx 4) hashLog mls

/-- The equal bytes from `a` and from `b` on, up to `limit` of them. -/
def commonPrefixLen (data : List UInt8) (a b : Nat) : Nat → Nat
  | 0 => 0
  | limit + 1 =>
    if data.getD a 0 = data.getD b 0 then commonPrefixLen data (a + 1) (b + 1) limit + 1 else 0

def countMatchFromIndices (data : List UInt8) (currentIdx candidateIdx tailLimit seedLen : Nat) :
    Nat :=
  let seed := min seedLen tailLimit
  seed + commonPrefixLen data (candidateIdx + seed) (currentIdx + seed) (tailLimit - seed)

/-- One position written into a table, and the encoding it was written under. -/
structure Insertion where
  pos : Nat
  stored : Nat
  positionBase : Nat
  indexShift : Nat
deriving Repr, DecidableEq

/-- The dictionary's own binary tree, with the region it was built over. -/
structure DmsDictTables where
  hashTable : List Nat
  chainTable : List Nat
  hashLog : Nat
  mls : Nat
  regionLen : Nat
deriving Repr, DecidableEq

/-- The storage of the optimal parsers. `tables` is the one buffer of the hash, chain and hash3
tables, which start at `0`, `chainOff` and `hash3Off`; `dms` holds a tree once it is built.
`inserted` and `dictionary` are history: the positions indexed since the frame began, and the bytes
of the dictionary last primed. -/
structure MatchTable where
  window : ChunkWindow
  positionBase : Nat
  indexShift : Nat
  tables : List Nat
  chainOff : Nat
  hash3Off : Nat
  hashLog : Nat
  chainLog : Nat
  hash3Log : Nat
  nextToUpdate3 : Nat
  skipInsertUntilAbs : Nat
  dictIndexFloor : Nat
  dictionaryLimitAbs : Option Nat
  dictionaryActive : Bool
  dictResident : Bool
  searchDepth : Nat
  searchMls : Nat
  dms : Option DmsDictTables
  inserted : List Insertion
  dictionary : List UInt8

def storedAbsPositionFast (stored positionBase indexShift : Nat) : Option Nat :=
  if stored = hcEmpty then none
  else if stored - 1 < indexShift then none
  else some (positionBase + (stored - 1 - indexShift))

/-- What a walk down the tree asks of a node, by its stored index. -/
structure TreeSearch where
  reach : Nat → Bool
  closed : Nat → Bool
  pair : Nat → Nat
  matchLen : Nat → Nat → Nat
  below : Nat → Nat → Bool
  tailLimit : Nat
  enough : Nat → Bool
  offset : Nat → Nat
  candidateEnd : Nat → Nat → Nat

/-- A walk under way: the node it looks at, the two open sides of the tree, and the matches that
beat every one before. -/
structure TreeWalk where
  tables : List Nat
  matchStored : Nat
  smallerSlot : Option Nat
  largerSlot : Option Nat
  commonLengthSmaller : Nat
  commonLengthLarger : Nat
  bestLen : Nat
  matchEndAbs : Nat
  comparesLeft : Nat
  found : List (Nat × Nat)

/-- A side closed at the tree's floor takes no more writes. -/
def setSlot (tables : List Nat) (slot : Option Nat) (v : Nat) : List Nat :=
  match slot with
  | none => tables
  | some i => tables.set i v

/-- Note a match longer than every one before. -/
def TreeWalk.improve (w : TreeWalk) (q : TreeSearch) (matchLen : Nat) : TreeWalk :=
  if matchLen > w.bestLen then
    { w with
      bestLen := matchLen
      matchEndAbs := max w.matchEndAbs (q.candidateEnd w.matchStored matchLen)
      found := w.found ++ [(q.offset w.matchStored, matchLen)] }
  else w

/-- Rebuild the tree under a new root: each node in reach is hung on the side it sorts to, and the
walk goes on into the node's subtree nearer the root. -/
def TreeSearch.descend (q : TreeSearch) : Nat → TreeWalk → TreeWalk
  | 0, w => w
  | compares + 1, w =>
    if !q.reach w.matchStored then w
    else
      let node := w.matchStored
      let nextPair := q.pair node
      let nextSmaller := w.tables.getD nextPair hcEmpty
      let nextLarger := w.tables.getD (nextPair + 1) hcEmpty
      let matchLen := q.matchLen node (min w.commonLengthSmaller w.commonLengthLarger)
      let longer := decide (matchLen > w.bestLen)
      let w := { w with comparesLeft := compares }.improve q matchLen
      if longer && q.enough matchLen then w
      else if matchLen ≥ q.tailLimit then w
      else if q.below node matchLen then
        let w := { w with
          tables := setSlot w.tables w.smallerSlot node
          commonLengthSmaller := matchLen }
        if q.closed node then { w with smallerSlot := none }
        else q.descend compares
          { w with smallerSlot := some (nextPair + 1), matchStored := nextLarger }
      else
        let w := { w with
          tables := setSlot w.tables w.largerSlot node
          commonLengthLarger := matchLen }
        if q.closed node then { w with largerSlot := none }
        else q.descend compares { w with largerSlot := some nextPair, matchStored := nextSmaller }

/-- Close the sides still open. -/
def TreeWalk.finish (w : TreeWalk) : List Nat :=
  setSlot (setSlot w.tables w.smallerSlot hcEmpty) w.largerSlot hcEmpty

namespace MatchTable

variable (t : MatchTable)

abbrev floor : Nat := t.window.historyAbsStart

abbrev live : List UInt8 := t.window.live

def setNextToUpdate3 (next : Nat) : MatchTable := { t with nextToUpdate3 := next }

def setSkipInsertUntilAbs (next : Nat) : MatchTable := { t with skipInsertUntilAbs := next }

/-- The position a slot of this table stands for. -/
abbrev decode (stored : Nat) : Option Nat :=
  storedAbsPositionFast stored t.positionBase t.indexShift

def canSkipRebaseCheck (maxAbsPos : Nat) : Bool :=
  let distance := maxAbsPos - t.positionBase
  decide (distance ≤ u32Max - 2 ∧ t.indexShift ≤ u32Max - 2 - distance)

def relativePosition (absPos : Nat) : Option Nat :=
  if absPos < t.positionBase then none
  else
    let distance := absPos - t.positionBase
    if t.indexShift > usizeMax - distance then none
    else if distance + t.indexShift ≥ u32Max then none
    else some (distance + t.indexShift)

def needsRebase (absPos : Nat) : Bool :=
  (t.relativePosition absPos).all fun relative => decide (relative ≥ u32Max - 1)

/-- The stored index of a position in an armed block, with no test; the tree insertion, the hash3
fill and the search each compute this residue. -/
def storedArmed (absPos : Nat) : Nat :=
  wrapU32 ((absPos : Int) - t.positionBase + t.indexShift + 1)

/-- Write a position into slot `i` as `stored`. -/
def write (i absPos stored : Nat) : MatchTable :=
  { t with
    tables := t.tables.set i stored
    inserted := ⟨absPos, stored, t.positionBase, t.indexShift⟩ :: t.inserted }

def windowLowAbsForTarget (targetAbs : Nat) : Nat :=
  max t.floor (targetAbs - t.window.maxWindowSize)

def btLog : Nat := t.chainLog - 1

def btMask : Nat := 1 <<< t.btLog - 1

def btPairIndexForAbs (absPos : Nat) : Nat :=
  2 * (wrapUsize (absPos + t.indexShift) &&& t.btMask)

def tableSizes : Nat × Nat × Nat :=
  let hashSize := 1 <<< t.hashLog
  let chainSize := 1 <<< t.chainLog
  let hash3Size := if t.hash3Log = 0 then 0 else 1 <<< t.hash3Log
  (hashSize, chainSize, hashSize + chainSize + hash3Size)

def ensureTables : MatchTable :=
  let (hashSize, chainSize, total) := t.tableSizes
  if t.chainOff ≠ hashSize ∨ t.hash3Off ≠ hashSize + chainSize then
    { t with
      tables := List.replicate total hcEmpty
      chainOff := hashSize
      hash3Off := hashSize + chainSize }
  else if t.tables.length ≠ total then
    { t with
      tables := t.tables.take t.hash3Off ++
        List.replicate (total - (t.tables.take t.hash3Off).length) hcEmpty }
  else t

/-- `tables.fill(HC_EMPTY)`. -/
def clearTables : MatchTable := { t with tables := List.replicate t.tables.length hcEmpty }

/-- The history index a stored index leads to. -/
def candidateIdx (stored : Nat) : Nat :=
  wrapUsize ((stored : Int) + t.positionBase - 1 - t.indexShift - t.floor)

/-- The parts of a walk that the insertion and the search share. -/
def treeSearch (absPos currentAbsEnd : Nat) (reach closed : Nat → Bool) (enough : Nat → Bool)
    (offset : Nat → Nat) (candidateEnd : Nat → Nat → Nat) : TreeSearch where
  reach := reach
  closed := closed
  pair stored := t.chainOff + 2 * (wrapUsize ((stored : Int) + t.positionBase - 1) &&& t.btMask)
  matchLen stored seed :=
    countMatchFromIndices t.live (absPos - t.floor) (t.candidateIdx stored)
      (currentAbsEnd - absPos) seed
  below stored len :=
    decide (t.live.getD (t.candidateIdx stored + len) 0 < t.live.getD (absPos - t.floor + len) 0)
  tailLimit := currentAbsEnd - absPos
  enough := enough
  offset := offset
  candidateEnd := candidateEnd

/-- The walk of the tree insertion: a node is in reach from the window's floor for the target of
the update up to the position inserted. -/
def insertSearch (absPos currentAbsEnd targetAbs : Nat) : TreeSearch :=
  let windowLow := t.windowLowAbsForTarget targetAbs
  let candidateAbs := fun stored : Nat =>
    wrapUsize ((stored : Int) + t.positionBase - 1 - t.indexShift)
  t.treeSearch absPos currentAbsEnd
    (fun stored => decide (wrapUsize ((stored : Int) + t.positionBase - 1 - t.indexShift - windowLow)
      < absPos - windowLow))
    (fun stored => decide (candidateAbs stored ≤ absPos - t.btMask))
    (fun _ => false)
    (fun stored => absPos - candidateAbs stored)
    (fun stored len => candidateAbs stored + len)

/-- The walk's start: the position is the bucket's new root, the old root the first node. -/
def startWalk (hash absPos bestLen compares : Nat) : TreeWalk where
  tables := t.tables
  matchStored := (t.tables.getD hash hcEmpty)
  smallerSlot := some (t.chainOff + t.btPairIndexForAbs absPos)
  largerSlot := some (t.chainOff + t.btPairIndexForAbs absPos + 1)
  commonLengthSmaller := 0
  commonLengthLarger := 0
  bestLen := bestLen
  matchEndAbs := absPos + 9
  comparesLeft := compares
  found := []

/-- Make `absPos` the root of its bucket's tree. -/
def plant (q : TreeSearch) (hash absPos bestLen compares : Nat) : MatchTable × TreeWalk :=
  let start := t.startWalk hash absPos bestLen compares
  let t := t.write hash absPos (t.storedArmed absPos)
  let walk := q.descend compares { start with tables := t.tables }
  ({ t with tables := walk.finish }, walk)

/-- One position of `bt_insert_range`, with how far the cursor moves. -/
def btInsert (absPos currentAbsEnd targetAbs : Nat) : MatchTable × Nat :=
  let idx := absPos - t.floor
  if idx + 8 > t.live.length then (t, 1)
  else
    let hash := hashPositionAt t.live idx t.hashLog t.searchMls
    let (t', walk) := t.plant (t.insertSearch absPos currentAbsEnd targetAbs) hash absPos 8
      t.searchDepth
    let speedPositions := if walk.bestLen > 384 then min (walk.bestLen - 384) 192 else 0
    (t', max speedPositions (walk.matchEndAbs - (absPos + 8)))

end MatchTable

/-- Insert the positions from `pos` below `stop`; returns the cursor after the last insertion. -/
def MatchTable.btInsertRange (t : MatchTable) (pos stop currentAbsEnd targetAbs : Nat) :
    MatchTable × Nat :=
  if pos < stop then
    let (t', forward) := t.btInsert pos currentAbsEnd targetAbs
    t'.btInsertRange (pos + max forward 1) stop currentAbsEnd targetAbs
  else (t, pos)
termination_by stop - pos

namespace MatchTable

variable (t : MatchTable)

def hash3Slot (absPos : Nat) : Nat :=
  t.hash3Off + hashPositionAt t.live (absPos - t.floor) t.hash3Log 3

def insertHash3OnlyNoRebase (absPos : Nat) : MatchTable :=
  if t.hash3Log = 0 then t
  else if absPos - t.floor + 4 > t.live.length then t
  else
    match t.relativePosition absPos with
    | none => t
    | some relativePos => t.write (t.hash3Slot absPos) absPos (relativePos + 1)

/-- Write `count` positions from `cursor` on into the hash3 table of an armed block. -/
def fillHash3 (t : MatchTable) (cursor : Nat) : Nat → MatchTable
  | 0 => t
  | count + 1 =>
    (t.write (t.hash3Slot cursor) cursor (t.storedArmed cursor)).fillHash3 (cursor + 1) count

/-- `fill_hash3_from`; `none` hands the catch-up back to the general loop. -/
def fillHash3From (absPos : Nat) : Option MatchTable :=
  if t.hash3Log = 0 ∨ t.nextToUpdate3 < t.floor then none
  else
    let stop := min absPos (t.floor + (t.live.length - 3))
    some ((t.fillHash3 t.nextToUpdate3 (stop - t.nextToUpdate3)).setNextToUpdate3 absPos)

def fillHash3Hoisted (absPos : Nat) : Option MatchTable :=
  if t.canSkipRebaseCheck absPos then t.fillHash3From absPos else none

def beginRebase : MatchTable :=
  { t with
    positionBase := t.floor
    indexShift := 0
    tables := List.replicate t.tables.length hcEmpty }

/-- Clear the tables and replay the history inserted so far under the new base. After the clear the
hash3 refill has nothing left to rebase, so it never returns `none`: see
`rebasePositionsCold_isSome`. -/
def rebasePositionsCold (absPos : Nat) : Option MatchTable :=
  let t := (t.beginRebase.btInsertRange t.floor absPos t.window.historyAbsEnd absPos).1
  let t := t.setNextToUpdate3 t.floor
  if t.hash3Log = 0 ∨ t.nextToUpdate3 ≥ absPos then some t else t.fillHash3Hoisted absPos

def maybeRebasePositions (absPos : Nat) : Option MatchTable :=
  if t.needsRebase absPos then t.rebasePositionsCold absPos else some t

/-- The general loop of `update_hash3_until`. -/
def updateHash3Loop (t : MatchTable) (absPos : Nat) : Nat → Option MatchTable
  | 0 => some t
  | count + 1 =>
    (if t.canSkipRebaseCheck absPos then some t
      else t.maybeRebasePositions t.nextToUpdate3).bind fun t =>
        let t := t.insertHash3OnlyNoRebase t.nextToUpdate3
        (t.setNextToUpdate3 (t.nextToUpdate3 + 1)).updateHash3Loop absPos count

def updateHash3Until (absPos : Nat) : Option MatchTable :=
  let t := t.setNextToUpdate3 (max t.nextToUpdate3 t.floor)
  if t.nextToUpdate3 ≥ absPos then some t
  else
    match t.fillHash3Hoisted absPos with
    | some t => some t
    | none => t.updateHash3Loop absPos (absPos - t.nextToUpdate3)

/-- The rounds of `bt_update_tree_until` where a rebase may be due: one position at a time. -/
def btUpdateTreeLoop (t : MatchTable) (updateAbs absPos currentAbsEnd : Nat) :
    Nat → Option MatchTable
  | 0 => some t
  | rounds + 1 =>
    if updateAbs < absPos then
      (if t.canSkipRebaseCheck absPos then some t else t.maybeRebasePositions updateAbs).bind fun t =>
        let (t, updateAbs) := t.btInsertRange updateAbs (updateAbs + 1) currentAbsEnd absPos
        t.btUpdateTreeLoop updateAbs absPos currentAbsEnd rounds
    else some t

def btUpdateTreeUntil (absPos currentAbsEnd : Nat) : Option MatchTable :=
  let t := t.setSkipInsertUntilAbs (max t.skipInsertUntilAbs t.floor)
  let updateAbs := t.skipInsertUntilAbs
  (if updateAbs < absPos then
    if t.canSkipRebaseCheck absPos then
      some (t.btInsertRange updateAbs absPos currentAbsEnd absPos).1
    else t.btUpdateTreeLoop updateAbs absPos currentAbsEnd (absPos - updateAbs)
  else some t).map fun t => t.setSkipInsertUntilAbs absPos

/-- Settle for the whole coming block that every position in it converts to a stored index. -/
def armBlockPositions (currentAbsEnd : Nat) : Option MatchTable :=
  if currentAbsEnd ≤ t.positionBase then some t
  else if t.canSkipRebaseCheck (currentAbsEnd - 1) then some t
  else t.rebasePositionsCold (max t.skipInsertUntilAbs t.floor)

def currentBlockRange : Nat × Nat :=
  (t.floor + t.window.windowSize - t.window.lastBlockLen, t.window.lastBlockLen)

def backfillBoundaryPositions (currentAbsStart currentAbsEnd : Nat) : Option MatchTable :=
  if max (currentAbsStart - 3) t.floor < currentAbsStart then
    t.btUpdateTreeUntil currentAbsStart currentAbsEnd
  else some t

def applyLimitedUpdateAfterLongMatch (currentAbsStart : Nat) : MatchTable :=
  let gap := currentAbsStart - t.skipInsertUntilAbs
  if gap > 384 then
    t.setSkipInsertUntilAbs (currentAbsStart - min (gap - 384) 192)
  else t

/-- A position of a block that is skipped: into the tree and the hash3 table. -/
def insertSkipped (pos currentAbsEnd : Nat) : Option MatchTable :=
  (t.maybeRebasePositions pos).map fun t =>
    (t.btInsertRange pos (pos + 1) currentAbsEnd currentAbsEnd).1.insertHash3OnlyNoRebase pos

def insertAllSkipped (t : MatchTable) (currentAbsEnd : Nat) : List Nat → Option MatchTable
  | [] => some t
  | pos :: rest => (t.insertSkipped pos currentAbsEnd).bind fun t =>
    t.insertAllSkipped currentAbsEnd rest

/-- Every `INCOMPRESSIBLE_SKIP_STEP`-th position, then the block's last ones one by one. -/
def sparsePositions (currentAbsStart currentAbsEnd : Nat) : List Nat :=
  let len := currentAbsEnd - currentAbsStart
  let strided := (List.range ((len + incompressibleSkipStep - 1) / incompressibleSkipStep)).map
    fun i => currentAbsStart + i * incompressibleSkipStep
  let tailStart := max (max (currentAbsEnd - (hcMinMatchLen + incompressibleSkipStep)) t.floor)
    currentAbsStart
  let dense := (List.range (currentAbsEnd - tailStart)).map (tailStart + ·)
  strided ++ dense.filter fun pos => (pos - currentAbsStart) % incompressibleSkipStep ≠ 0

def btInsertSparseIncompressibleBlock (currentAbsStart currentAbsEnd : Nat) : Option MatchTable :=
  (t.insertAllSkipped currentAbsEnd (t.sparsePositions currentAbsStart currentAbsEnd)).map fun t =>
    (t.setSkipInsertUntilAbs (max t.skipInsertUntilAbs currentAbsEnd)).setNextToUpdate3
      (max t.nextToUpdate3 currentAbsEnd)

/-- Index the newest block without searching it. -/
def skipMatching (incompressibleHint : Option Bool) : Option MatchTable :=
  let t := t.ensureTables
  let (blockStart, currentLen) := t.currentBlockRange
  let currentAbsEnd := blockStart + currentLen
  let currentAbsStart := max blockStart (min (t.floor + t.dictIndexFloor) currentAbsEnd)
  (t.backfillBoundaryPositions currentAbsStart currentAbsEnd).bind fun t =>
    if incompressibleHint = some true then
      t.btInsertSparseIncompressibleBlock currentAbsStart currentAbsEnd
    else t.btUpdateTreeUntil currentAbsEnd currentAbsEnd

/-- Leave a dictionary slice out of the live tree. -/
def skipMatchingDictBt : MatchTable :=
  let t := t.ensureTables
  let committedEnd := t.floor + t.window.windowSize
  (t.setSkipInsertUntilAbs (max t.skipInsertUntilAbs committedEnd)).setNextToUpdate3
    (max t.nextToUpdate3 committedEnd)

def setDictionaryIndexFloor (floor : Nat) : MatchTable :=
  let t := { t with dictIndexFloor := floor }
  if floor ≠ 0 then
    (t.setSkipInsertUntilAbs (max t.skipInsertUntilAbs (t.floor + floor))).setNextToUpdate3
      (max t.nextToUpdate3 (t.floor + floor))
  else t

/-- Index the newest block as the body of a long-distance match. -/
def skipLongMatch : MatchTable :=
  let t := t.ensureTables
  let (start, len) := t.currentBlockRange
  let t := t.applyLimitedUpdateAfterLongMatch (start + len)
  t.setNextToUpdate3 (max t.nextToUpdate3 t.skipInsertUntilAbs)

end MatchTable

end Encoding
