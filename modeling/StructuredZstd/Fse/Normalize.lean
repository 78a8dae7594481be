import StructuredZstd.Fse.FseEncoder

namespace Fse.Encoder

/-- `min_table_log`: enough slots for the source, or for its symbols if that takes fewer. -/
def minTableLog (total maxSymbol : Nat) : Nat :=
  let minBitsSrc := Nat.log2 total + 1
  let minBitsSymbols := if maxSymbol = 0 then 2 else Nat.log2 maxSymbol + 2
  min minBitsSrc minBitsSymbols

/-- The table log for a histogram; the logarithm of a single sample panics. -/
def optimalTableLog (maxTableLog total maxSymbol minus : Nat) : Option Nat :=
  if total ≤ 1 then none
  else
    let maxBitsSrc := Nat.log2 (total - 1) - minus
    let minBits := minTableLog total maxSymbol
    let tableLog := if maxBitsSrc < maxTableLog then maxBitsSrc else maxTableLog
    let tableLog := if tableLog < minBits then minBits else tableLog
    some (max 5 (min 12 tableLog))

def rtbTable : List Nat := [0, 473195, 504333, 520860, 550000, 700000, 750000, 830000]

/-- The share of a symbol in fixed point; a small one is rounded up past its threshold. -/
def roundedShare (tableLog total count : Nat) : Nat :=
  let scale := 62 - tableLog
  let step := 1 <<< 62 / total
  let vStep := 1 <<< (scale - 20)
  let product := count * step
  let probability := product >>> scale
  if probability < 8 then
    let restToBeat := vStep * rtbTable.getD probability 0
    probability + (if restToBeat < product - probability <<< scale then 1 else 0)
  else probability

/-- What the first pass carries from symbol to symbol. -/
structure Scan where
  stillToDistribute : Int
  largest : Nat
  largestProbability : Nat

/-- The first pass of `normalize_counts`, from `symbol` on. -/
def scanCounts (tableLog total : Nat) (lowProbCount : Int) :
    List Nat → Nat → Scan → List Int × Scan
  | [], _, scan => ([], scan)
  | count :: counts, symbol, scan =>
    if count = 0 then
      let (normalized, scan) := scanCounts tableLog total lowProbCount counts (symbol + 1) scan
      (0 :: normalized, scan)
    else if count ≤ total >>> tableLog then
      let (normalized, scan) := scanCounts tableLog total lowProbCount counts (symbol + 1)
        { scan with stillToDistribute := scan.stillToDistribute - 1 }
      (lowProbCount :: normalized, scan)
    else
      let probability := roundedShare tableLog total count
      let scan := if scan.largestProbability < probability then
        { scan with largestProbability := probability, largest := symbol } else scan
      let (normalized, scan) := scanCounts tableLog total lowProbCount counts (symbol + 1)
        { scan with stillToDistribute := scan.stillToDistribute - probability }
      ((probability : Int) :: normalized, scan)

/-- The marker of a symbol the second method has not served yet. -/
def notYetAssigned : Int := -2

/-- The first pass of `normalize_m2`: the small symbols take one slot each. -/
def assignSmall (lowThreshold lowOne : Nat) (lowProbCount : Int) :
    List Nat → Nat → Nat → List Int × Nat × Nat
  | [], distributed, total => ([], distributed, total)
  | count :: counts, distributed, total =>
    if count = 0 then
      let (normalized, rest) := assignSmall lowThreshold lowOne lowProbCount counts distributed total
      (0 :: normalized, rest)
    else if count ≤ lowThreshold then
      let (normalized, rest) := assignSmall lowThreshold lowOne lowProbCount counts
        (distributed + 1) (total - count)
      (lowProbCount :: normalized, rest)
    else if count ≤ lowOne then
      let (normalized, rest) := assignSmall lowThreshold lowOne lowProbCount counts
        (distributed + 1) (total - count)
      (1 :: normalized, rest)
    else
      let (normalized, rest) := assignSmall lowThreshold lowOne lowProbCount counts distributed total
      (notYetAssigned :: normalized, rest)

/-- The pass that serves the symbols below a raised threshold. -/
def assignBelow (lowOne : Nat) : List Int → List Nat → Nat → Nat → List Int × Nat × Nat
  | p :: normalized, count :: counts, distributed, total =>
    if p = notYetAssigned ∧ count ≤ lowOne then
      let (normalized, rest) := assignBelow lowOne normalized counts (distributed + 1)
        (total - count)
      (1 :: normalized, rest)
    else
      let (normalized, rest) := assignBelow lowOne normalized counts distributed total
      (p :: normalized, rest)
  | normalized, _, distributed, total => (normalized, distributed, total)

/-- `max_by_key` over the counts: the last of the largest. -/
def lastLargest : List Nat → Nat → Nat × Nat → Nat
  | [], _, best => best.1
  | count :: counts, symbol, best =>
    lastLargest counts (symbol + 1) (if best.2 ≤ count then (symbol, count) else best)

/-- The slots left over go around the symbols that have one; `fuel` bounds the rounds. -/
def shareAround : Nat → Nat → Nat → List Int → Option (List Int)
  | 0, _, _, _ => none
  | fuel + 1, symbol, toDistribute, normalized =>
    if toDistribute = 0 then some normalized
    else
      let next := (symbol + 1) % normalized.length
      let p := normalized.getD symbol 0
      if 0 < p then shareAround fuel next (toDistribute - 1) (normalized.set symbol (p + 1))
      else shareAround fuel next toDistribute normalized

/-- The last pass: the other symbols in proportion, a zero weight panics. -/
def assignWeights (vStepLog rStep : Nat) : List Int → List Nat → Nat → Option (List Int)
  | p :: normalized, count :: counts, tmpTotal =>
    if p = notYetAssigned then do
      let tmpEnd := tmpTotal + count * rStep
      let weight := tmpEnd >>> vStepLog - tmpTotal >>> vStepLog
      if weight = 0 then none
      let rest ← assignWeights vStepLog rStep normalized counts tmpEnd
      some ((weight : Int) :: rest)
    else do
      let rest ← assignWeights vStepLog rStep normalized counts tmpTotal
      some (p :: rest)
  | normalized, _, _ => some normalized

/-- The end of `normalize_m2`: how what is left is handed out. -/
def distributeRest (tableLog : Nat) (counts : List Nat) (normalized : List Int)
    (distributed total toDistribute : Nat) : Option (List Int) :=
  if distributed = counts.length then
    let maxSymbol := lastLargest counts 0 (0, 0)
    some (normalized.set maxSymbol (normalized.getD maxSymbol 0 + toDistribute))
  else if total = 0 then
    shareAround ((toDistribute + 1) * counts.length + 1) 0 toDistribute normalized
  else
    let vStepLog := 62 - tableLog
    let mid := 1 <<< (vStepLog - 1) - 1
    let rStep := (1 <<< vStepLog * toDistribute + mid) / total
    assignWeights vStepLog rStep normalized counts mid

/-- The second method, for histograms the rounding of the first one overspends. -/
def normalizeM2 (tableLog : Nat) (counts : List Nat) (total : Nat) (lowProbCount : Int) :
    Option (List Int) :=
  let lowThreshold := total >>> tableLog
  let lowOne := (total * 3) >>> (tableLog + 1)
  let (normalized, distributed, total) := assignSmall lowThreshold lowOne lowProbCount counts 0 total
  if 1 <<< tableLog < distributed then none
  else
    let toDistribute := 1 <<< tableLog - distributed
    if toDistribute = 0 then some normalized
    else if lowOne < total / toDistribute then
      let lowOne := total * 3 / (toDistribute * 2)
      let (normalized, distributed, total) := assignBelow lowOne normalized counts distributed total
      if 1 <<< tableLog < distributed then none
      else distributeRest tableLog counts normalized distributed total (1 <<< tableLog - distributed)
    else distributeRest tableLog counts normalized distributed total toDistribute

/-- Scale the counts of the symbols `0..=max_symbol` to the table size. -/
def normalizeCounts (tableLog : Nat) (counts : List Nat) (total : Nat) (useLowProbCount : Bool) :
    Option (List Int) :=
  let lowProbCount : Int := if useLowProbCount then -1 else 1
  let (normalized, scan) := scanCounts tableLog total lowProbCount counts 0 ⟨1 <<< tableLog, 0, 0⟩
  let largest := normalized.getD scan.largest 0
  if largest / 2 ≤ -scan.stillToDistribute then normalizeM2 tableLog counts total lowProbCount
  else some (normalized.set scan.largest (largest + scan.stillToDistribute))

/-- The last symbol with a count, zero if there is none. -/
def lastCounted (counts : List Nat) : Nat :=
  counts.length - 1 - counts.reverse.findIdx (0 < ·)

/-- A histogram normalized over its own length; a single sample panics. -/
def normalizeHistogram (counts : List Nat) (maxLog : Nat) (avoid0Numbit : Bool) :
    Option (List Int × Nat) := do
  let total := counts.sum
  let maxSymbol := lastCounted counts
  let tableLog ← optimalTableLog maxLog total maxSymbol 2
  let probs ← normalizeCounts tableLog (counts.take (maxSymbol + 1)) total avoid0Numbit
  some (probs ++ List.replicate (counts.length - (maxSymbol + 1)) 0, tableLog)

/-- Build the table of a histogram into a table that may hold an earlier one. -/
def buildTableFromCountsInto (counts : List Nat) (maxLog : Nat) (avoid0Numbit : Bool)
    (out : FSETable) : Option FSETable := do
  let (probs, tableLog) ← normalizeHistogram counts maxLog avoid0Numbit
  buildTableFromProbabilitiesInto probs tableLog out

/-- The description size of the table a histogram would get. -/
def fseHeaderBitsForCounts (counts : List Nat) (maxLog : Nat) (avoid0Numbit : Bool) :
    Option Nat := do
  let (probs, tableLog) ← normalizeHistogram counts maxLog avoid0Numbit
  ncountHeaderBits counts.length (fun i => probs.getD i 0) tableLog

/-- The distribution of a sequence stream: the last code goes out through the start state, so a
code that occurs again gives up one occurrence. The table log is taken before. -/
def normalizeSeqCounts (counts : List Nat) (maxLog lastCode : Nat) : Option (List Int × Nat) := do
  let total := counts.sum
  let maxSymbol := lastCounted counts
  let tableLog ← optimalTableLog maxLog total maxSymbol 2
  let adjust := 1 < counts.getD lastCode 0
  let adjusted := if adjust then counts.set lastCode (counts.getD lastCode 0 - 1) else counts
  let normTotal := if adjust then total - 1 else total
  let probs ← normalizeCounts tableLog (adjusted.take (maxSymbol + 1)) normTotal (2048 ≤ normTotal)
  some (probs, tableLog)

/-- `build_seq_ctable_into`. -/
def buildSeqCtableInto (counts : List Nat) (maxLog lastCode : Nat) (out : FSETable) :
    Option FSETable := do
  let (probs, tableLog) ← normalizeSeqCounts counts maxLog lastCode
  buildTableFromProbabilitiesInto probs tableLog out

end Fse.Encoder
