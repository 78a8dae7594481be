import StructuredZstd.Encoding.MatchTable

namespace Encoding

def hcOptMinMatchLen : Nat := 3
def hc3MaxOffset : Nat := 1 <<< 18
def hcPredefThreshold : Nat := 8
def dmsBuildDepth : Nat := 1 <<< 9

/-- The constants of an optimal strategy that its search reads. -/
structure OptimalStrategy where
  maxChainDepth : Nat
  useHash3 : Bool
  twoPassSeed : Bool
deriving Repr, DecidableEq

def btOpt : OptimalStrategy := ⟨32, false, false⟩
def btUltra : OptimalStrategy := ⟨64, true, false⟩
def btUltra2 : OptimalStrategy := ⟨512, true, true⟩

structure MatchCandidate where
  start : Nat
  offset : Nat
  matchLen : Nat
deriving Repr, DecidableEq

/-- A position the parser asks about: how long a match ends the search there, and the repeat
offsets in force. -/
structure Search where
  absPos : Nat
  sufficientLen : Nat
  rep0 : Nat
  rep1 : Nat
  rep2 : Nat
  ll0 : Bool
deriving Repr, DecidableEq

/-- A search under way: its candidates, the longest so far, whether a repeat offset gave one, and
whether a match long enough has ended it. -/
structure Ladder where
  out : List MatchCandidate
  bestLen : Nat
  repFound : Bool
  skip : Bool

def Ladder.empty : Ladder := ⟨[], 0, false, false⟩

def Ladder.push (l : Ladder) (c : MatchCandidate) : Ladder :=
  { l with out := l.out ++ [c], bestLen := c.matchLen }

structure DmsWalk where
  hashTable : List Nat
  chainTable : List Nat
  matchPacked : Nat
  smallerSlot : Nat
  largerSlot : Nat
  commonSmaller : Nat
  commonLarger : Nat

def dmsDescend (concat : List UInt8) (region current : Nat) : Nat → DmsWalk → DmsWalk
  | 0, w => w
  | compares + 1, w =>
    if w.matchPacked = 0 ∨ w.matchPacked - 1 ≥ current then w
    else
      let cand := w.matchPacked - 1
      let seed := min w.commonSmaller w.commonLarger
      let ml := seed + commonPrefixLen concat (cand + seed) (current + seed) (region - current - seed)
      if current + ml ≥ region then w
      else if concat.getD (cand + ml) 0 < concat.getD (current + ml) 0 then
        dmsDescend concat region current compares { w with
          chainTable := w.chainTable.set w.smallerSlot w.matchPacked
          commonSmaller := ml
          smallerSlot := 2 * cand + 1
          matchPacked := (w.chainTable.set w.smallerSlot w.matchPacked).getD (2 * cand + 1) 0 }
      else
        dmsDescend concat region current compares { w with
          chainTable := w.chainTable.set w.largerSlot w.matchPacked
          commonLarger := ml
          largerSlot := 2 * cand
          matchPacked := (w.chainTable.set w.largerSlot w.matchPacked).getD (2 * cand) 0 }

def dmsInsert (concat : List UInt8) (hashLog mls region : Nat) (tables : List Nat × List Nat)
    (current : Nat) : List Nat × List Nat :=
  let h := hashPositionAt concat current hashLog mls
  let walk := dmsDescend concat region current dmsBuildDepth
    { hashTable := tables.1.set h (current + 1)
      chainTable := tables.2
      matchPacked := tables.1.getD h 0
      smallerSlot := 2 * current
      largerSlot := 2 * current + 1
      commonSmaller := 0
      commonLarger := 0 }
  (walk.hashTable, (walk.chainTable.set walk.smallerSlot 0).set walk.largerSlot 0)

/-- The hash width of a dictionary's tree: the region's, between the floor and the matcher's. -/
def dmsHashLog (region hashLog : Nat) : Nat :=
  let ceilLog := if region ≤ 1 then 0 else Nat.log2 (region - 1) + 1
  min (max ceilLog (min 10 hashLog)) hashLog

namespace MatchTable

variable (t : MatchTable)

def primeDmsBt (regionLen : Nat) : MatchTable :=
  let read := if t.searchMls ≥ 5 then 8 else 4
  let region := min regionLen t.live.length
  if region < read then { t with dms := none }
  else
    let hashLog := dmsHashLog region t.hashLog
    if t.dms.any fun d => d.regionLen = region ∧ d.mls = t.searchMls ∧ d.hashLog = hashLog then t
    else
      let positions := (List.range (region + 1 - read - t.dictIndexFloor)).map
        (t.dictIndexFloor + ·)
      let (hashTable, chainTable) :=
        positions.foldl (dmsInsert t.live hashLog t.searchMls region)
          (List.replicate (1 <<< hashLog) 0, List.replicate (2 * region) 0)
      { t with dms := some ⟨hashTable, chainTable, hashLog, t.searchMls, region⟩ }

/-- One repeat-offset probe. -/
def repProbeSlot (q : Search) (tailLimit rep : Nat) (l : Ladder) : Ladder :=
  let idx := q.absPos - t.floor
  if rep = 0 ∨ rep > idx then l
  else if readLe t.live (idx - rep) 3 ≠ readLe t.live idx 3 then l
  else
    let matchLen := commonPrefixLen t.live (idx - rep) idx (min (t.live.length - idx) tailLimit)
    if matchLen < hcOptMinMatchLen then l
    else
      let l := { l with repFound := true }
      let l := if matchLen > l.bestLen then l.push ⟨q.absPos, rep, matchLen⟩ else l
      if matchLen > q.sufficientLen ∨ matchLen ≥ tailLimit then { l with skip := true } else l

def repProbes (q : Search) (tailLimit : Nat) : Ladder :=
  let reps := if q.ll0 then [q.rep1, q.rep2, q.rep0 - 1] else [q.rep0, q.rep1, q.rep2]
  reps.foldl (fun l rep => t.repProbeSlot q tailLimit rep l) Ladder.empty

/-- Bring the hash3 table up to the searched position. -/
def catchUpHash3 (absPos : Nat) : Option MatchTable :=
  if t.nextToUpdate3 ≥ t.floor then
    some ((t.fillHash3 t.nextToUpdate3 (absPos - t.nextToUpdate3)).setNextToUpdate3 absPos)
  else t.updateHash3Until absPos

def hash3Candidate (absPos tailLimit : Nat) : Option MatchCandidate :=
  let idx := absPos - t.floor
  let entry := t.tables.getD (t.hash3Slot absPos) hcEmpty
  let off := wrapU32 ((t.storedArmed absPos : Int) - entry)
  if entry ≤ t.indexShift then none
  else if off = 0 ∨ off > min idx (hc3MaxOffset - 1) then none
  else if readLe t.live (idx - off) 3 ≠ readLe t.live idx 3 then none
  else
    let ml := commonPrefixLen t.live (idx - off) idx tailLimit
    if ml ≥ hcOptMinMatchLen then some ⟨absPos, off, ml⟩ else none

/-- The walk of the search: a node is in reach from the window's floor on. -/
def collectSearch (absPos currentAbsEnd : Nat) : TreeSearch :=
  let stored := t.storedArmed absPos
  let windowLow := t.windowLowAbsForTarget absPos
  let btLow := absPos - t.btMask
  let toStored := fun abs : Nat => wrapUsize ((abs : Int) - t.positionBase + 1 + t.indexShift)
  let winLowStored := toStored windowLow
  let btLowStored := if btLow < windowLow then winLowStored - 1 else toStored btLow
  let offset := fun node : Nat => wrapU32 ((stored : Int) - node)
  t.treeSearch absPos currentAbsEnd
    (fun node => decide (node ≥ winLowStored))
    (fun node => decide (node ≤ btLowStored))
    (fun len => decide (len ≥ currentAbsEnd - absPos ∨ len > hcOptNum))
    offset
    (fun node len => absPos - offset node + len)

/-- The dictionary's tree searched with what the live walk left of the budget; `matchEndAbs` is
the end of the farthest-reaching match. -/
def dmsSearch (dms : DmsDictTables) (absPos tailLimit : Nat) :
    Nat → Nat → Nat → Nat → Ladder → Nat → Ladder × Nat
  | 0, _, _, _, l, matchEndAbs => (l, matchEndAbs)
  | compares + 1, dcur, commonSmaller, commonLarger, l, matchEndAbs =>
    let idx := absPos - t.floor
    let dictIdx := dcur - 1
    if dcur = hcEmpty ∨ dictIdx ≥ dms.regionLen ∨ dictIdx ≥ idx then (l, matchEndAbs)
    else
      let matchLen := countMatchFromIndices t.live idx dictIdx tailLimit
        (min commonSmaller commonLarger)
      let longer := decide (matchLen > l.bestLen)
      let matchEndAbs :=
        if longer then max matchEndAbs (t.floor + dictIdx + matchLen) else matchEndAbs
      let l := if longer then l.push ⟨absPos, idx - dictIdx, matchLen⟩ else l
      if longer && decide (matchLen > hcOptNum) then (l, matchEndAbs)
      else if matchLen ≥ tailLimit then (l, matchEndAbs)
      else if t.live.getD (dictIdx + matchLen) 0 < t.live.getD (idx + matchLen) 0 then
        dmsSearch dms absPos tailLimit compares (dms.chainTable.getD (2 * dictIdx + 1) hcEmpty)
          matchLen commonLarger l matchEndAbs
      else
        dmsSearch dms absPos tailLimit compares (dms.chainTable.getD (2 * dictIdx) hcEmpty)
          commonSmaller matchLen l matchEndAbs

/-- The position planted in the live tree, then the dictionary's tree. -/
def collectTrees (st : OptimalStrategy) (absPos currentAbsEnd : Nat) (l : Ladder) :
    MatchTable × Ladder :=
  let hash := hashPositionAt t.live (absPos - t.floor) t.hashLog t.searchMls
  let bestLen := max l.bestLen (hcOptMinMatchLen - 1)
  let (t', walk) := t.plant (t.collectSearch absPos currentAbsEnd) hash absPos bestLen
    (min st.maxChainDepth t.searchDepth)
  let l := { l with
    out := l.out ++ walk.found.map fun (offset, len) => ⟨absPos, offset, len⟩
    bestLen := walk.bestLen }
  let (l, matchEndAbs) :=
    match t.dms with
    | none => (l, walk.matchEndAbs)
    | some dms =>
      t.dmsSearch dms absPos (currentAbsEnd - absPos) walk.comparesLeft
        (dms.hashTable.getD (hashPositionAt t.live (absPos - t.floor) dms.hashLog dms.mls) hcEmpty)
        0 0 l walk.matchEndAbs
  (t'.setSkipInsertUntilAbs (matchEndAbs - 8), l)

/-- `bt_insert_and_collect_matches`: the repeat offsets, the hash3 table, the trees. -/
def btInsertAndCollectMatches (st : OptimalStrategy) (q : Search) (currentAbsEnd : Nat) :
    Option (MatchTable × List MatchCandidate) :=
  let tailLimit := currentAbsEnd - q.absPos
  let l := t.repProbes q tailLimit
  if l.skip then some (t, l.out)
  else if st.useHash3 && decide (l.bestLen < hcOptMinMatchLen) then
    (t.catchUpHash3 q.absPos).map fun t =>
      match t.hash3Candidate q.absPos tailLimit with
      | none =>
        let (t, l) := t.collectTrees st q.absPos currentAbsEnd l
        (t, l.out)
      | some h3 =>
        let l' := l.push h3
        if !l.repFound && decide (h3.matchLen > q.sufficientLen ∨ h3.matchLen ≥ tailLimit) then
          (t.setSkipInsertUntilAbs (q.absPos + 1), l'.out)
        else
          let (t, l) := t.collectTrees st q.absPos currentAbsEnd l'
          (t, l.out)
  else
    let (t, l) := t.collectTrees st q.absPos currentAbsEnd l
    some (t, l.out)

/-- The search at one position of an armed block: the positions the parser passed over go into the
tree first. `none` is a position outside the block, which the parser never asks about. -/
def collectOptimalCandidates (st : OptimalStrategy) (q : Search) (currentAbsEnd : Nat) :
    Option (MatchTable × List MatchCandidate) :=
  if q.absPos < t.floor ∨ currentAbsEnd < q.absPos then none
  else if q.absPos < t.skipInsertUntilAbs then some (t, [])
  else
    let t := (t.btInsertRange t.skipInsertUntilAbs q.absPos currentAbsEnd q.absPos).1
    let t := t.setSkipInsertUntilAbs q.absPos
    if q.absPos - t.floor + 8 > t.live.length then some (t, [])
    else t.btInsertAndCollectMatches st q currentAbsEnd

/-- A pass over the block: the parser asks about the positions it reaches, in its own order. -/
def searchAll (t : MatchTable) (st : OptimalStrategy) (currentAbsEnd : Nat) :
    List Search → Option MatchTable
  | [] => some t
  | q :: rest => (t.collectOptimalCandidates st q currentAbsEnd).bind fun (t, _) =>
    t.searchAll st currentAbsEnd rest

def optimalBlock (st : OptimalStrategy) (currentAbsEnd : Nat) (searches : List Search) :
    Option MatchTable :=
  (t.setSkipInsertUntilAbs (max t.skipInsertUntilAbs t.floor)).searchAll st currentAbsEnd searches

/-- Move the index shift past every entry up to the end of the block. -/
def shiftPast (currentAbsStart currentLen : Nat) : MatchTable :=
  { t with
    indexShift := currentAbsStart - t.positionBase + currentLen + t.indexShift
    positionBase := t.floor }

/-- The first pass of btultra2 over a frame's first block; its entries are left behind below the
index shift. -/
def runBtultra2SeedPass (st : OptimalStrategy) (currentAbsStart currentLen : Nat)
    (searches : List Search) : Option MatchTable :=
  (t.optimalBlock st (currentAbsStart + currentLen) searches).map fun t =>
    ((t.shiftPast currentAbsStart currentLen).setNextToUpdate3 currentAbsStart).setSkipInsertUntilAbs
      currentAbsStart

/-- The window's part of the conditions of the seed pass. -/
def firstBlockOnly (currentLen : Nat) : Bool :=
  decide (t.window.windowSize = currentLen ∧ t.window.chunkLens.length = 1 ∧
    currentLen > hcPredefThreshold)

/-- `start_matching_optimal` on the newest block: `seed` holds the searches of the seed pass, when
it runs, and `searches` those of the main pass. -/
def startMatchingOptimal (st : OptimalStrategy) (seed : Option (List Search))
    (searches : List Search) : Option MatchTable :=
  let t := t.ensureTables
  let (currentAbsStart, currentLen) := t.currentBlockRange
  if currentLen = 0 then some t
  else
    let currentAbsEnd := currentAbsStart + currentLen
    (t.armBlockPositions currentAbsEnd).bind fun t =>
      let t := t.applyLimitedUpdateAfterLongMatch currentAbsStart
      let hash3StartCursor := max t.skipInsertUntilAbs t.floor
      (t.backfillBoundaryPositions currentAbsStart currentAbsEnd).bind fun t =>
        let t := t.setNextToUpdate3 hash3StartCursor
        match seed with
        | none => t.optimalBlock st currentAbsEnd searches
        | some seeds =>
          if !(st.twoPassSeed && t.firstBlockOnly currentLen) then none
          else
            (t.runBtultra2SeedPass st currentAbsStart currentLen seeds).bind fun t =>
              (t.armBlockPositions currentAbsEnd).bind fun t =>
                t.optimalBlock st currentAbsEnd searches

end MatchTable

end Encoding
