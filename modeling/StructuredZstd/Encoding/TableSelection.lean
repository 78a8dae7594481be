import StructuredZstd.Fse.Normalize

namespace Encoding

open Fse.Encoder

/-- The number of slots of a sequence histogram. -/
def sequenceCodeSlots : Nat := 64

inductive StrategyTag where
  | fast
  | dfast
  | greedy
  | lazy
  | btlazy2
  | btOpt
  | btUltra
  | btUltra2
deriving Repr, DecidableEq

/-- The table an axis remembers; the predefined one is only marked. -/
inductive PreviousFseTable where
  | default
  | custom (table : FSETable)
  | rle (symbol : Nat)

def PreviousFseTable.asTable (default : FSETable) : PreviousFseTable → Option FSETable
  | .default => some default
  | .custom table => some table
  | .rle _ => none

/-- What a block decided to do for one axis. -/
inductive FseTableMode where
  | predefined (table : FSETable)
  | encoded (table : FSETable)
  | rle (symbol : Nat)
  | repeatLast (previous : PreviousFseTable)

/-- `floor(-log2(x / 256) * 256)`. -/
def inverseProbabilityLog256 : List Nat :=
  [0, 2048, 1792, 1642, 1536, 1453, 1386, 1329, 1280, 1236, 1197, 1162, 1130, 1100, 1073, 1047,
   1024, 1001, 980, 960, 941, 923, 906, 889, 874, 859, 844, 830, 817, 804, 791, 779, 768, 756,
   745, 734, 724, 714, 704, 694, 685, 676, 667, 658, 650, 642, 633, 626, 618, 610, 603, 595, 588,
   581, 574, 567, 561, 554, 548, 542, 535, 529, 523, 517, 512, 506, 500, 495, 489, 484, 478, 473,
   468, 463, 458, 453, 448, 443, 438, 434, 429, 424, 420, 415, 411, 407, 402, 398, 394, 390, 386,
   382, 377, 373, 370, 366, 362, 358, 354, 350, 347, 343, 339, 336, 332, 329, 325, 322, 318, 315,
   311, 308, 305, 302, 298, 295, 292, 289, 286, 282, 279, 276, 273, 270, 267, 264, 261, 258, 256,
   253, 250, 247, 244, 241, 239, 236, 233, 230, 228, 225, 222, 220, 217, 215, 212, 209, 207, 204,
   202, 199, 197, 194, 192, 190, 187, 185, 182, 180, 178, 175, 173, 171, 168, 166, 164, 162, 159,
   157, 155, 153, 151, 149, 146, 144, 142, 140, 138, 136, 134, 132, 130, 128, 126, 123, 121, 119,
   117, 115, 114, 112, 110, 108, 106, 104, 102, 100, 98, 96, 94, 93, 91, 89, 87, 85, 83, 82, 80,
   78, 76, 74, 73, 71, 69, 67, 66, 64, 62, 61, 59, 57, 55, 54, 52, 50, 49, 47, 46, 44, 42, 41,
   39, 37, 36, 34, 33, 31, 30, 28, 26, 25, 23, 22, 20, 19, 17, 16, 14, 13, 11, 10, 8, 7, 5, 4, 2,
   1]

/-- The cost of a histogram under its own frequencies; an index past the log table panics. -/
def entropyCost : List Nat → Nat → Nat → Option Nat
  | [], _, cost => some (cost >>> 8)
  | count :: counts, total, cost =>
    if count = 0 then entropyCost counts total cost
    else do
      let norm := 256 * count / total
      let norm := if norm = 0 then 1 else norm
      let price ← inverseProbabilityLog256[norm]?
      entropyCost counts total (cost + count * price)

/-- The cost of a histogram whose codes are priced one by one, from `symbol` on. No price panics,
a price of nothing makes the cost nothing. -/
def priceCodes (price : Nat → Option (Option Nat)) :
    List Nat → Nat → Nat → Option (Option Nat)
  | [], _, cost => some (some (cost >>> 8))
  | count :: counts, symbol, cost =>
    if count = 0 then priceCodes price counts (symbol + 1) cost
    else
      match price symbol with
      | none => none
      | some none => some none
      | some (some c) => priceCodes price counts (symbol + 1) (cost + count * c)

/-- The price of a code by its share of a table of at most 256 states. -/
def shareCost (shift : Nat) (prob : Int) : Option (Option Nat) :=
  if prob = 0 then some none
  else
    let norm := if prob = -1 then 1 else prob.toNat
    let norm256 := norm <<< shift
    if norm256 = 0 ∨ 256 ≤ norm256 then some none
    else inverseProbabilityLog256[norm256]?.map some

def crossEntropyCost (counts : List Nat) (table : FSETable) : Option (Option Nat) :=
  if table.tableSize = 0 then none
  else
    let accLog := table.accLog
    if 8 < accLog then some none
    else
      priceCodes (fun symbol => shareCost (8 - accLog) (table.states symbol).probability) counts 0 0

/-- The transform a probability gets, zero bits at least; a subtraction below zero panics. -/
def deltaNbBits? (tableLog : Nat) (prob : Int) : Option (Option Nat) :=
  if prob = -1 ∨ prob = 1 then some (some (tableLog <<< 16 - 1 <<< tableLog))
  else if 1 < prob then
    let p := prob.toNat
    if tableLog < Nat.log2 (p - 1) then none
    else
      let maxBitsOut := tableLog - Nat.log2 (p - 1)
      some (some (maxBitsOut <<< 16 - p <<< maxBitsOut))
  else some none

/-- The bits of a code in 8.8 fixed point. -/
def bitCost (tableLog : Nat) (prob : Int) : Option (Option Nat) :=
  if prob = 0 then some none
  else match deltaNbBits? tableLog prob with
    | none => none
    | some none => some none
    | some (some deltaNbBits) =>
      let tableSize := 1 <<< tableLog
      let minNbBits := deltaNbBits >>> 16
      let threshold := (minNbBits + 1) <<< 16
      if threshold < deltaNbBits + tableSize then some none
      else
        let deltaFromThreshold := threshold - (deltaNbBits + tableSize)
        let normalizedDelta := deltaFromThreshold <<< 8 >>> tableLog
        if (minNbBits + 1) * 256 < normalizedDelta then none
        else
          let cost := (minNbBits + 1) * 256 - normalizedDelta
          let badCost := (tableLog + 1) <<< 8
          if badCost ≤ cost then some none else some (some cost)

def fseBitCost (counts : List Nat) (table : FSETable) : Option (Option Nat) :=
  if table.tableSize = 0 then none
  else
    let tableLog := table.accLog
    priceCodes (fun symbol => bitCost tableLog (table.states symbol).probability) counts 0 0

/-- `build_seq_ctable_into` with the histogram it borrows: an occurrence of the last code is taken
out and put back. A last code outside the histogram panics. -/
def buildSeqCtable (counts : List Nat) (maxLog lastCode : Nat) (out : FSETable) :
    Option (FSETable × List Nat) := do
  if counts.length ≤ lastCode then none
  let table ← buildSeqCtableInto counts maxLog lastCode out
  let adjust := 1 < counts.getD lastCode 0
  let counts := if adjust then counts.set lastCode (counts.getD lastCode 0 - 1) else counts
  let counts := if adjust then counts.set lastCode (counts.getD lastCode 0 + 1) else counts
  some (table, counts)

/-- What the selection leaves: the mode, the caller's histogram, and the slot a table is built
into. -/
structure TableChoice where
  mode : FseTableMode
  counts : List Nat
  next : Option FSETable

inductive Choice where
  | previous
  | predefined
  | new
deriving Repr, DecidableEq

/-- Take up a choice that costs less than the best so far. -/
def cheaper (best : Option (Nat × Choice)) (cost : Option Nat) (choice : Choice) :
    Option (Nat × Choice) :=
  match cost with
  | none => best
  | some cost =>
    match best with
    | some (bestCost, c) => if bestCost ≤ cost then some (bestCost, c) else some (cost, choice)
    | none => some (cost, choice)

/-- The mode of a stream of one code. -/
def singleCodeMode (previous : Option PreviousFseTable) (default : FSETable) (total symbol : Nat) :
    FseTableMode :=
  let fresh : FseTableMode :=
    if total ≤ 2 ∧ (default.states symbol).probability ≠ 0 then .predefined default
    else .rle symbol
  match previous with
  | some (.rle prevSymbol) =>
    if prevSymbol = symbol then .repeatLast (.rle prevSymbol) else fresh
  | _ => fresh

/-- The cost of repeating the table that is remembered, if there is one. -/
def previousCost (previous : Option PreviousFseTable) (default : FSETable) (alphabet : List Nat) :
    Option (Option Nat) :=
  match previous.bind (·.asTable default) with
  | none => some none
  | some table => fseBitCost alphabet table

/-- The strategies that repeat a table where they can. -/
def StrategyTag.prefersRepeat : StrategyTag → Bool
  | .fast | .dfast | .greedy => true
  | _ => false

/-- The cost of a table built for the histogram: its description and the codes. -/
def newTotalCost (alphabet : List Nat) (total maxLog distinctSymbols : Nat)
    (useLowProbCount : Bool) : Option (Option Nat) :=
  if 1 < distinctSymbols then do
    let header ← fseHeaderBitsForCounts alphabet maxLog useLowProbCount
    let entropy ← entropyCost alphabet total 0
    some (some (header + entropy))
  else some none

/-- Build the table of a histogram into the slot and choose it. -/
def chooseNew (counts alphabet : List Nat) (maxLog : Nat) (lastCode : Option Nat)
    (useLowProbCount : Bool) (next : Option FSETable) : Option TableChoice :=
  let dest := next.getD FSETable.blank
  match lastCode with
  | some lastCode => do
    let (table, front) ← buildSeqCtable alphabet maxLog lastCode dest
    some ⟨.encoded table, front ++ counts.drop alphabet.length, some table⟩
  | none => do
    let table ← buildTableFromCountsInto alphabet maxLog useLowProbCount dest
    some ⟨.encoded table, counts, some table⟩

/-- Where no mode has a cost: a table of the plain histogram, which needs two slots. -/
def chooseFallback (counts alphabet : List Nat) (maxSymbol maxLog : Nat) (useLowProbCount : Bool)
    (next : Option FSETable) : Option TableChoice := do
  let dest := next.getD FSETable.blank
  let fallback := if maxSymbol = 0 then [counts.getD 0 0, 0] else alphabet
  let table ← buildTableFromCountsInto fallback maxLog useLowProbCount dest
  some ⟨.encoded table, counts, some table⟩

/-- Compare the costs of the modes of a stream of several codes. -/
def chooseByCost (previous : Option PreviousFseTable) (default : FSETable) (counts : List Nat)
    (total maxSymbol maxLog distinctSymbols : Nat) (lastCode : Option Nat)
    (next : Option FSETable) : Option TableChoice := do
  let alphabet := counts.take (maxSymbol + 1)
  let useLowProbCount : Bool := 2048 ≤ total
  let newCost ← newTotalCost alphabet total maxLog distinctSymbols useLowProbCount
  let predefinedCost ← crossEntropyCost alphabet default
  let previousCost ← previousCost previous default alphabet
  let best := cheaper none previousCost .previous
  let best := cheaper best predefinedCost .predefined
  let best := cheaper best newCost .new
  match best.map Prod.snd with
  | some .previous =>
    let mode : FseTableMode := match previous with
      | some previous => .repeatLast previous
      | none => .predefined default
    some ⟨mode, counts, next⟩
  | some .predefined => some ⟨.predefined default, counts, next⟩
  | some .new => chooseNew counts alphabet maxLog lastCode useLowProbCount next
  | none => chooseFallback counts alphabet maxSymbol maxLog useLowProbCount next

/-- `choose_table_from_counts`: the mode of a sequence stream from the counts of its codes. `next`
is the table parked in the slot, if nothing else holds it. -/
def chooseTableFromCounts (previous : Option PreviousFseTable) (default : FSETable)
    (counts : List Nat) (total maxSymbol maxLog : Nat) (strategy : StrategyTag)
    (lastCode : Option Nat) (next : Option FSETable) : Option TableChoice :=
  if total = 0 then some ⟨.predefined default, counts, next⟩
  else if counts.length ≤ maxSymbol then none
  else
    let alphabet := counts.take (maxSymbol + 1)
    let distinctSymbols := min 2 (alphabet.countP (0 < ·))
    if distinctSymbols = 1 then
      some ⟨singleCodeMode previous default total maxSymbol, counts, next⟩
    else if strategy.prefersRepeat ∧ total < 1000 then
      match previous, previousCost previous default alphabet with
      | _, none => none
      | some previous, some (some _) => some ⟨.repeatLast previous, counts, next⟩
      | _, _ =>
        chooseByCost previous default counts total maxSymbol maxLog distinctSymbols lastCode next
    else chooseByCost previous default counts total maxSymbol maxLog distinctSymbols lastCode next

end Encoding
