import StructuredZstd.Encoding.TableSelection
import StructuredZstd.Huff0.EncoderStreams

namespace Encoding

open BitIo Huff0.Encoder
open Fse.Encoder (FSETable lastCounted)

/-- The buffers a compressor keeps between table builds: a table thrown away, and storage for the
FSE table of a description. -/
structure WeightScratch where
  spareTable : Option HuffmanTable
  weightFseTable : FSETable

/-- What a literals section does to the table the next one may repeat. -/
inductive HuffOutcome where
  | keep
  | clear
  | new (table : HuffmanTable)

def minLiteralsToCompress (strategy : StrategyTag) (hasHufTable : Bool) : Nat :=
  if hasHufTable then 6
  else
    8 <<< match strategy with
      | .fast | .dfast | .greedy | .lazy | .btlazy2 => 3
      | .btOpt => 2
      | .btUltra => 1
      | .btUltra2 => 0

def minGain (srcSize : Nat) (strategy : StrategyTag) : Nat :=
  let minlog := match strategy with
    | .btUltra => 7
    | .btUltra2 => 8
    | _ => 6
  srcSize >>> minlog + 2

def useRawLiteralFallback (hufSectionSize literalsLen : Nat) (strategy : StrategyTag) : Bool :=
  literalsLen - minGain literalsLen strategy ≤ hufSectionSize

def preferRepeatEligible (strategy : StrategyTag) (literalsLen : Nat) : Bool :=
  strategy.prefersRepeat && literalsLen ≤ 1024

def uncompressedLiteralsHeaderBytes (litSize : Nat) : Nat :=
  if litSize ≤ 31 then 1 else if litSize ≤ 4095 then 2 else 3

def compressedLiteralsHeaderBytes (litSize : Nat) : Nat :=
  if litSize < 1024 then 3 else if litSize < 16384 then 4 else 5

/-- The size format, and how wide it makes both size fields. -/
def sizeFormat (literalsLen : Nat) : Nat × Nat :=
  if literalsLen < 256 then (0, 10)
  else if literalsLen < 1024 then (1, 10)
  else if literalsLen < 16384 then (2, 14)
  else (3, 18)

def allBytesIdentical : List UInt8 → Bool
  | [] => false
  | first :: rest => rest.all (· = first)

/-- How often every byte occurs. The source counts in one lane or in four that it adds up. -/
def byteCounts (data : List UInt8) : List Nat :=
  (List.range 256).map fun symbol => data.count (UInt8.ofNat symbol)

/-- The histogram, the highest byte that occurs and the highest count. -/
def countBytes (data : List UInt8) : List Nat × Nat × Nat :=
  let counts := byteCounts data
  (counts, lastCounted counts, counts.foldl max 0)

def suspectSampleSize : Nat := 4096

def suspectSampleRatio : Nat := 10

def suspectLiteralRatio : Nat := 20

def literalsSuspectedIncompressible (literalsLen sequenceCount : Nat) : Bool :=
  sequenceCount = 0 || suspectLiteralRatio ≤ literalsLen / sequenceCount

/-- Whether both ends of a long section have no byte that stands out. -/
def endSamplesLookFlat (literals : List UInt8) : Bool :=
  if literals.length < suspectSampleSize * suspectSampleRatio then false
  else
    let headLargest := (countBytes (literals.take suspectSampleSize)).2.2
    let tailLargest := (countBytes (literals.drop (literals.length - suspectSampleSize))).2.2
    headLargest + tailLargest ≤ (2 * suspectSampleSize) >>> 7 + 4

/-- Whether the new table is the one to write with. -/
def decideHuffReuseLikeEncoder (newTable : HuffmanTable) (lastTable : Option HuffmanTable)
    (newDesc : Nat) (literals : List UInt8) (counts : List Nat) (strategy : StrategyTag) : Bool :=
  match lastTable with
  | none => true
  | some prev =>
    match prev.estimateCompressedSizeFromCountsChecked counts with
    | none => true
    | some oldEstimate =>
      if preferRepeatEligible strategy literals.length then false
      else
        let newEstimate :=
          (newTable.estimateCompressedSizeFromCountsChecked counts).getD literals.length
        !(oldEstimate ≤ newDesc + newEstimate || literals.length ≤ newDesc + 12)

/-- The four streams the literals are split into. -/
def quarters (literals : List UInt8) : List (List UInt8) :=
  let splitSize := (literals.length + 3) / 4
  [literals.take splitSize, (literals.drop splitSize).take splitSize,
    (literals.drop (splitSize * 2)).take splitSize, literals.drop (splitSize * 3)]

def estimateHuffPayloadBytes (table : HuffmanTable) (literals : List UInt8) (counts : List Nat) :
    Nat :=
  if literals.length < 256 then table.estimateCompressedSizeFromCounts counts
  else
    6 + ((quarters literals).map fun stream =>
      (table.estimateCompressedSize stream).getD stream.length).sum

def estimateHuffPayloadBytesChecked (table : HuffmanTable) (literals : List UInt8) : Option Nat :=
  if literals.length < 256 then table.estimateCompressedSize literals
  else do
    let sizes ← (quarters literals).mapM table.estimateCompressedSize
    some (6 + sizes.sum)

/-- The size of a literals section and what it does to the remembered table, without encoding. -/
def estimateLiteralsSectionBytes (literals : List UInt8) (lastHuff : Option HuffmanTable)
    (strategy : StrategyTag) (hufSearch litDisabled : Bool) (scratch : WeightScratch)
    (suspectedIncompressible : Bool) : Option (Nat × HuffOutcome) :=
  let raw := (uncompressedLiteralsHeaderBytes literals.length + literals.length, HuffOutcome.clear)
  if litDisabled then some raw
  else if literals ≠ [] ∧ allBytesIdentical literals then
    some (uncompressedLiteralsHeaderBytes literals.length + 1, .clear)
  else if literals.length < minLiteralsToCompress strategy lastHuff.isSome then some raw
  else
    let compressedHeader := compressedLiteralsHeaderBytes literals.length
    let repeated := if preferRepeatEligible strategy literals.length then
        lastHuff.bind fun prev => estimateHuffPayloadBytesChecked prev literals
      else none
    match repeated with
    | some reusePayload =>
      let total := compressedHeader + reusePayload
      if useRawLiteralFallback (total - compressedHeader) literals.length strategy then some raw
      else some (total, .keep)
    | none =>
      if suspectedIncompressible ∧ endSamplesLookFlat literals then some raw
      else
        let (counts, maxSym, largestCount) := countBytes literals
        if largestCount ≤ literals.length >>> 7 + 4 then some raw
        else do
          let newTable ← HuffmanTable.buildFromCountsGatedWith (counts.take (maxSym + 1)) hufSearch
            scratch.spareTable
          match ← newTable.tryTableDescriptionSize scratch.weightFseTable with
          | none => some raw
          | some newDesc =>
            let newPayload := estimateHuffPayloadBytes newTable literals counts
            let useNew :=
              decideHuffReuseLikeEncoder newTable lastHuff newDesc literals counts strategy
            let reusePayload := if useNew then none
              else lastHuff.bind fun t => estimateHuffPayloadBytesChecked t literals
            let payload := if useNew then newPayload else reusePayload.getD literals.length
            let treeDesc := if useNew then newDesc else 0
            let total := compressedHeader + treeDesc + payload
            if useRawLiteralFallback (total - compressedHeader) literals.length strategy then
              some raw
            else some (total, if useNew then .new newTable else .keep)

def writeUncompressedLiteralsHeader (sectionType literalsLen : Nat) (w : BitWriter) :
    Option BitWriter := do
  let w ← w.writeBits sectionType 2
  if literalsLen ≤ 31 then do
    let w ← w.writeBits 0 1
    w.writeBits literalsLen 5
  else if literalsLen ≤ 4095 then do
    let w ← w.writeBits 1 2
    w.writeBits literalsLen 12
  else do
    let w ← w.writeBits 3 2
    w.writeBits literalsLen 20

def rawLiterals (literals : List UInt8) (w : BitWriter) : Option BitWriter := do
  let w ← writeUncompressedLiteralsHeader 0 literals.length w
  w.appendBytes literals

def rleLiterals (literals : List UInt8) (w : BitWriter) : Option BitWriter := do
  let w ← writeUncompressedLiteralsHeader 1 literals.length w
  w.appendBytes (literals.take 1)

/-- A section compressed with `table`: the header with room for the size, the streams, the size.
What does not gain enough is written raw over it. The flag says whether the section was kept. -/
def emitCompressedLiterals (literals : List UInt8) (table : HuffmanTable)
    (newTable : Option FSETable) (w : BitWriter) (resetIdx : Nat) (strategy : StrategyTag) :
    Option (Bool × BitWriter) := do
  let w ← w.writeBits (if newTable.isSome then 2 else 3) 2
  if 262143 < literals.length then none
  let (format, sizeBits) := sizeFormat literals.length
  let w ← w.writeBits format 2
  let w ← w.writeBits literals.length sizeBits
  let sizeIndex := w.index
  let w ← w.writeBits 0 sizeBits
  let indexBefore := w.index
  let w ← if format = 0 then table.encode literals newTable w
    else table.encode4x literals newTable w
  let encodedLen := (w.index - indexBefore) / 8
  let w ← w.changeBits sizeIndex encodedLen sizeBits
  let totalLen := (w.index - resetIdx) / 8
  let hufSectionSize := totalLen - compressedLiteralsHeaderBytes literals.length
  if useRawLiteralFallback hufSectionSize literals.length strategy then do
    let w ← w.resetTo resetIdx
    let w ← rawLiterals literals w
    some (false, w)
  else some (true, w)

/-- The treeless section of the repeat that skips the histogram. -/
def emitReuseLiterals (literals : List UInt8) (lastTable : HuffmanTable) (w : BitWriter)
    (resetIdx : Nat) (strategy : StrategyTag) : Option (HuffOutcome × BitWriter) := do
  let (kept, w) ← emitCompressedLiterals literals lastTable none w resetIdx strategy
  some (if kept then .keep else .clear, w)

def compressLiterals (literals : List UInt8) (lastTable : Option HuffmanTable) (w : BitWriter)
    (strategy : StrategyTag) (hufSearch : Bool) (scratch : WeightScratch)
    (suspectedIncompressible : Bool) : Option (HuffOutcome × BitWriter) :=
  let resetIdx := w.index
  let raw := do
    let w ← rawLiterals literals w
    some (HuffOutcome.clear, w)
  let repeated := if preferRepeatEligible strategy literals.length then
      lastTable.filter fun prev => (prev.estimateCompressedSize literals).isSome
    else none
  match repeated with
  | some prev => emitReuseLiterals literals prev w resetIdx strategy
  | none =>
    if suspectedIncompressible ∧ endSamplesLookFlat literals then raw
    else
      let (counts, maxSymbol, largestCount) := countBytes literals
      if largestCount ≤ literals.length >>> 7 + 4 then raw
      else do
        let newEncoderTable ← HuffmanTable.buildFromCountsGatedWith (counts.take (maxSymbol + 1))
          hufSearch scratch.spareTable
        match ← newEncoderTable.tryTableDescriptionSize scratch.weightFseTable with
        | none => raw
        | some newTableDescriptionSize =>
          if decideHuffReuseLikeEncoder newEncoderTable lastTable newTableDescriptionSize literals
              counts strategy then do
            let (kept, w) ← emitCompressedLiterals literals newEncoderTable
              (some scratch.weightFseTable) w resetIdx strategy
            some (if kept then .new newEncoderTable else .clear, w)
          else do
            let (kept, w) ← emitCompressedLiterals literals (← lastTable) none w resetIdx strategy
            some (if kept then .keep else .clear, w)

/-- The literals section of `encode_block_parts`. -/
def encodeLiteralsSection (literals : List UInt8) (lastHuffTable : Option HuffmanTable)
    (strategy : StrategyTag) (hufSearch litDisabled : Bool) (scratch : WeightScratch)
    (sequenceCount : Nat) (w : BitWriter) : Option (HuffOutcome × BitWriter) :=
  if litDisabled then do
    let w ← rawLiterals literals w
    some (.clear, w)
  else if literals ≠ [] ∧ allBytesIdentical literals then do
    let w ← rleLiterals literals w
    some (.clear, w)
  else if minLiteralsToCompress strategy lastHuffTable.isSome ≤ literals.length then
    compressLiterals literals lastHuffTable w strategy hufSearch scratch
      (literalsSuspectedIncompressible literals.length sequenceCount)
  else do
    let w ← rawLiterals literals w
    some (.clear, w)

end Encoding
