import StructuredZstd.Fse.Normalize
import StructuredZstd.Huff0.LeafDepths

namespace Huff0.Encoder

open Fse.Encoder (lastCounted optimalTableLog)
open Fse.Decoder (highestBitSet)

def bitsAt (nodes : List HuffNode) (i : Nat) : Nat := (nodes.getD i unbuilt).nbBits

def setBits (nodes : List HuffNode) (i nbBits : Nat) : List HuffNode :=
  nodes.set i { nodes.getD i unbuilt with nbBits := nbBits }

/-- Cut the codes that are too long, from the rarest leaf on: the leaves, what the cuts cost, and
where they end. -/
def cutLong (largest target : Nat) : Nat → List HuffNode → Nat → List HuffNode × Nat × Nat
  | n, nodes, cost =>
    if target < bitsAt nodes n then
      let cost := cost + (1 <<< (largest - target) - 1 <<< (largest - bitsAt nodes n))
      let nodes := setBits nodes n target
      match n with
      | 0 => (nodes, cost, 0)
      | n + 1 => cutLong largest target n nodes cost
    else (nodes, cost, n)

/-- Walk down past the leaves of just the target length. -/
def skipAtTarget (nodes : List HuffNode) (target : Nat) : Nat → Nat
  | 0 => 0
  | n + 1 => if bitsAt nodes (n + 1) = target then skipAtTarget nodes target n else n + 1

/-- The last leaf of every length below the target, by its distance from the target. -/
def rankLasts (nodes : List HuffNode) (target n : Nat) : List (Option Nat) :=
  ((List.range (n + 1)).reverse.foldl
    (fun acc pos =>
      if acc.1 ≤ bitsAt nodes pos then acc
      else (bitsAt nodes pos, acc.2.set (target - bitsAt nodes pos) (some pos)))
    (target, List.replicate 14 none)).2

/-- Which of two ranks is cheaper to lengthen, from the largest step that does not overshoot
down. -/
def cheapestRank (nodes : List HuffNode) (rankLast : List (Option Nat)) : Nat → Nat
  | 0 => 0
  | 1 => 1
  | bits + 2 =>
    match rankLast.getD (bits + 2) none, rankLast.getD (bits + 1) none with
    | none, _ => cheapestRank nodes rankLast (bits + 1)
    | some _, none => bits + 2
    | some high, some low =>
      if (nodes.getD high unbuilt).count ≤ 2 * (nodes.getD low unbuilt).count then bits + 2
      else cheapestRank nodes rankLast (bits + 1)

/-- The next rank that has a leaf. -/
def nextRank (rankLast : List (Option Nat)) (target : Nat) : Nat → Nat → Nat
  | 0, bits => bits
  | fuel + 1, bits =>
    if bits ≤ target ∧ rankLast.getD bits none = none then nextRank rankLast target fuel (bits + 1)
    else bits

/-- The leaves while their lengths are repaired, and the cost still open. -/
structure Repair where
  nodes : List HuffNode
  rankLast : List (Option Nat)
  totalCost : Int
deriving Repr, DecidableEq

/-- Lengthen codes until the cost is paid; every round pays one at least, which bounds them. With
no leaf left to lengthen the cost stays open. -/
def payCost (target : Nat) : Nat → Repair → Repair
  | 0, r => r
  | fuel + 1, r =>
    if 0 < r.totalCost then
      let bits := cheapestRank r.nodes r.rankLast (Nat.log2 r.totalCost.toNat + 1)
      let bits := nextRank r.rankLast target (target + 1) bits
      if target < bits then r
      else
        match r.rankLast.getD bits none with
        | none => r
        | some pos =>
          let nodes := setBits r.nodes pos (bitsAt r.nodes pos + 1)
          let lower :=
            if r.rankLast.getD (bits - 1) none = none then r.rankLast.set (bits - 1) (some pos)
            else r.rankLast
          let next :=
            if pos = 0 then none
            else if bitsAt nodes (pos - 1) = target - bits then some (pos - 1)
            else none
          payCost target fuel ⟨nodes, lower.set bits next, r.totalCost - 1 <<< (bits - 1)⟩
    else r

/-- Shorten codes by a bit while the cost is below zero. -/
def returnCost (target : Nat) : Nat → Repair → Nat → Repair
  | 0, r, _ => r
  | fuel + 1, r, n =>
    if r.totalCost < 0 then
      match r.rankLast.getD 1 none with
      | none =>
        let n := skipAtTarget r.nodes target n
        if bitsAt r.nodes n = target ∨ r.nodes.length ≤ n + 1 then r
        else
          returnCost target fuel
            ⟨setBits r.nodes (n + 1) (bitsAt r.nodes (n + 1) - 1), r.rankLast.set 1 (some (n + 1)),
              r.totalCost + 1⟩ n
      | some last =>
        if r.nodes.length ≤ last + 1 then r
        else
          returnCost target fuel
            ⟨setBits r.nodes (last + 1) (bitsAt r.nodes (last + 1) - 1),
              r.rankLast.set 1 (some (last + 1)), r.totalCost + 1⟩ n
    else r

def enforceMaxHeight (nodes : List HuffNode) (target : Nat) : List HuffNode :=
  let largest := (nodes.map HuffNode.nbBits).foldl max 0
  if largest ≤ target then nodes
  else
    let (nodes, cost, n) := cutLong largest target (nodes.length - 1) nodes 0
    let n := skipAtTarget nodes target n
    let cost := cost >>> (largest - target)
    let paid := payCost target cost ⟨nodes, rankLasts nodes target n, cost⟩
    (returnCost target (-paid.totalCost).toNat paid n).nodes

/-- The code lengths cut down to the limit, as weights by symbol. The limiter can stop short of a
full code, which is seen here. -/
def limitedWeights (leaves : List HuffNode) (countsLen maxNbBits : Nat) : Option (List Nat) :=
  let out := List.replicate countsLen 0
  if leaves.length ≤ 1 then
    some (match leaves with
      | [] => out
      | leaf :: _ => out.set leaf.symbol 1)
  else
    let work := enforceMaxHeight leaves maxNbBits
    if work.any (maxNbBits < ·.nbBits) then none
    else if (work.map fun leaf => 1 <<< (maxNbBits - leaf.nbBits)).sum ≠ 1 <<< maxNbBits then none
    else
      some (work.foldl (fun out leaf => out.set leaf.symbol (maxNbBits - leaf.nbBits + 1)) out)

/-- Groups of weights that double the sum, until there are `amount`. -/
def distributeGroups (amount : Nat) : Nat → List Nat → Nat → Nat → List Nat
  | 0, weights, _, _ => weights
  | fuel + 1, weights, target, counter =>
    if weights.length < amount then
      let addNew := 1 <<< (counter - target)
      if amount - weights.length < addNew then
        distributeGroups amount fuel (weights ++ [counter]) counter (counter + 1)
      else distributeGroups amount fuel (weights ++ List.replicate addNew target) target (counter + 1)
    else weights

/-- Weights that add up to a power of two; one of fewer than two, or of more than 256, panics. -/
def distributeWeights (amount : Nat) : Option (List Nat) :=
  if 2 ≤ amount ∧ amount ≤ 256 then
    let weights := distributeGroups amount amount [1, 1] 1 2
    if weights.length = amount then some weights else none
  else none

/-- The first of the highest weights that `added` covers, among those before the first it does
not; a weight of zero panics. -/
def highestCovered (added : Nat) : List Nat → Nat → Nat × Nat → Option (Nat × Nat)
  | [], _, best => some best
  | 0 :: _, _, _ => none
  | (weight + 1) :: weights, idx, best =>
    if added < 1 <<< weight then some best
    else highestCovered added weights (idx + 1) (if best.2 < weight + 1 then (idx, weight + 1) else best)

/-- Lower weights until what was added is taken back; every round takes one at least. -/
def takeBack : Nat → Nat → List Nat → Option (List Nat)
  | 0, _, weights => some weights
  | fuel + 1, added, weights =>
    if 0 < added then do
      let (idx, weight) ← highestCovered added weights 0 (0, 0)
      if weight = 0 then none
      else takeBack fuel (added - 1 <<< (weight - 1)) (weights.set idx (weights.getD idx 0 - 1))
    else some weights

/-- Raise the low weights, and lower others by as much, until the code is short enough. -/
def redistributeWeights (weights : List Nat) (maxNumBits : Nat) : Option (List Nat) :=
  let weightSumLog := Nat.log2 (weights.map (1 <<< ·)).sum
  if weightSumLog < maxNumBits then some weights
  else do
    let floor := weightSumLog - maxNumBits + 1
    let added := (weights.map fun weight => 1 <<< floor - 1 <<< min weight floor).sum
    let weights ← takeBack added added (weights.map (max · floor))
    some (weights.map (· - (weights.headD 0 - 1)))

/-- Hand the weights out by rising count. -/
def handOut : List (Nat × Nat) → List Nat → List Nat → Option (List Nat)
  | [], _, out => some out
  | (count, symbol) :: rest, weights, out =>
    if count = 0 then handOut rest weights (out.set symbol 0)
    else
      match weights with
      | [] => none
      | weight :: weights => handOut rest weights (out.set symbol weight)

/-- Weights spread over the symbols without regard to how far their counts lie apart. -/
def legacyDistributedWeights (counts : List Nat) : Option (List Nat) := do
  let weights ← distributeWeights (counts.length - counts.count 0)
  let weights ← redistributeWeights weights (Nat.log2 weights.length + 2)
  handOut (counts.zipIdx.mergeSort fun a b => a.1 ≤ b.1) weights (List.replicate counts.length 0)

def buildLimitedWeights (counts : List Nat) (maxNbBits : Nat) : Option (List Nat) :=
  match limitedWeights (buildHuffmanLeafDepths counts) counts.length maxNbBits with
  | some weights => some weights
  | none => legacyDistributedWeights counts

def cheapHufTableLog (counts : List Nat) (total : Nat) : Option Nat :=
  if total ≤ 1 then some 11 else optimalTableLog 11 total (lastCounted counts) 1

def ceilLog2 (n : Nat) : Nat := if n ≤ 1 then 1 else Nat.log2 (n - 1) + 1

/-- What the description of the weights would take, without encoding it; nothing where neither
form can carry it. -/
def cheapDescSizeProxy (weights : List Nat) : Option Nat :=
  let n := weights.length
  if n = 0 then none
  else
    let rawSize := (n + 1) / 2 + 1
    let bits := ((List.range 13).map fun weight =>
      let c := weights.count weight
      if c = 0 then 0 else c * ceilLog2 ((n + c - 1) / c)).sum
    let fseSize := (bits + 7) / 8 + 8
    if fseSize ≤ 128 then some (if n ≤ 128 then min fseSize rawSize else fseSize)
    else if n ≤ 128 then some rawSize
    else none

/-- The bytes a stream of so many bits takes with its end mark. -/
def streamBytes (bits : Nat) : Nat := (bits + 7) / 8 + if bits % 8 = 0 then 1 else 0

/-- The weights of the best table log found so far, and the size they bring. -/
structure LogSearch where
  best : Option (List Nat)
  bestSize : Nat
deriving Repr, DecidableEq

/-- Try the table logs from the least on, until one no longer helps. -/
def searchTableLogs (counts : List Nat) (leaves : List HuffNode) (minTableLog : Nat) :
    List Nat → LogSearch → Option LogSearch
  | [], found => some found
  | tableLog :: logs, found => do
    let weights ← match limitedWeights leaves counts.length tableLog with
      | some weights => some weights
      | none => legacyDistributedWeights counts
    let weightSum := ((weights.filter (0 < ·)).map fun weight => 1 <<< (weight - 1)).sum
    if ¬ weightSum.isPowerOfTwo then searchTableLogs counts leaves minTableLog logs found
    else
      let weightLog := highestBitSet weightSum - 1
      let least := (weights.filter (0 < ·)).min?.getD 1
      if weightLog + 1 - least < tableLog ∧ minTableLog < tableLog then some found
      else
        match cheapDescSizeProxy weights.dropLast with
        | none => searchTableLogs counts leaves minTableLog logs found
        | some descSize =>
          let bits := ((weights.zip counts).map fun (weight, count) =>
            if 0 < weight then (weightLog + 1 - weight) * count else 0).sum
          let newSize := streamBytes bits + descSize
          if found.bestSize + 1 < newSize then some found
          else
            searchTableLogs counts leaves minTableLog logs
              (if newSize < found.bestSize then ⟨some weights, newSize⟩ else found)

namespace HuffmanTable

/-- Search the table log that makes description and payload smallest. -/
def buildFromCounts (counts : List Nat) : Option HuffmanTable :=
  if histogramFits counts then
    let symbols := counts.countP (0 < ·)
    if symbols ≤ 1 then do
      buildFromWeights (← buildLimitedWeights counts 11)
    else do
      let minTableLog := Nat.log2 symbols + 1
      let found ← searchTableLogs counts (buildHuffmanLeafDepths counts) minTableLog
        (List.range' minTableLog (12 - minTableLog)) ⟨none, 2 ^ 64 - 2⟩
      match found.best with
      | some weights => buildFromWeights weights
      | none => do buildFromWeights (← buildLimitedWeights counts 11)
  else none

/-- The literals table. Without the search it is built once, over a table discarded before. -/
def buildFromCountsGatedWith (counts : List Nat) (useSearch : Bool) (spare : Option HuffmanTable) :
    Option HuffmanTable :=
  if useSearch then buildFromCounts counts
  else if histogramFits counts then do
    let maxNbBits ← cheapHufTableLog counts counts.sum
    buildFromWeightsReusing (← buildLimitedWeights counts maxNbBits) spare
  else none

end HuffmanTable

end Huff0.Encoder
