import StructuredZstd.Decoding.Errors

namespace Huff0.Decoder

open Bits BitIo Fse.Decoder Decoding

def maxMaxNumBits : Nat := 12

/-- A slot of the decode table: the code length in the low byte, the symbol in the high one. -/
structure PackedEntry where
  numBits : Nat := 0
  symbol : UInt8 := 0
deriving Repr, DecidableEq, Inhabited

structure HuffmanTable where
  packedDecode : List PackedEntry := []
  weights : List Nat := []
  maxNumBits : Nat := 0
  stateMask : Nat := 0
  bits : List Nat := []
  bitRanks : List Nat := List.replicate (maxMaxNumBits + 1) 0
  weightSum : Nat := 0
  weightRankCount : List Nat := List.replicate (maxMaxNumBits + 1) 0
  lastWeight : Nat := 0
  fseTable : FSETableImpl Entry 64 := .new 255
deriving Repr, DecidableEq

/-- The weights read so far, their sum and how often each occurs. -/
structure WeightAcc where
  weights : List Nat := []
  weightSum : Nat := 0
  weightRankCount : List Nat := List.replicate (maxMaxNumBits + 1) 0
deriving Repr, DecidableEq

def WeightAcc.push (acc : WeightAcc) (w : Nat) : WeightAcc where
  weights := acc.weights ++ [w]
  weightSum := if 0 < w then acc.weightSum + 1 <<< (w - 1) else acc.weightSum
  weightRankCount := acc.weightRankCount.set w (acc.weightRankCount.getD w 0 + 1)

/-- `push_weight!` of the compressed description. -/
def pushWeightLimited (acc : WeightAcc) (w : Nat) : Except HuffmanTableError WeightAcc :=
  if maxMaxNumBits < w then .error (.weightBiggerThanMaxNumBits w)
  else if 255 ≤ acc.weights.length then .error (.tooManyWeights (acc.weights.length + 1))
  else .ok (acc.push w)

/-- `push_weight` of the raw description. -/
def pushWeightRaw (acc : WeightAcc) (w : Nat) : Except HuffmanTableError WeightAcc :=
  if maxMaxNumBits < w then .error (.weightBiggerThanMaxNumBits w)
  else .ok (acc.push w)

/-- The weight loop: the two states take turns until an update reads past the front of the
stream, and the other state gives the last weight. The weight limit bounds the rounds. -/
def decodeWeights (t : FSETableImpl Entry 64) :
    Nat → Entry → Entry → BitReaderReversed → WeightAcc → Except HuffmanTableError Unit × WeightAcc
  | 0, _, _, _, acc => (.ok (), acc)
  | fuel + 1, state1, state2, br, acc =>
    let br := br.ensureBits 12
    match pushWeightLimited acc state1.symbol with
    | .error e => (.error e, acc)
    | .ok acc =>
      let (state1, br) := updateStateFast t state1 br
      if br.bitsRemaining ≤ -1 then
        match pushWeightLimited acc state2.symbol with
        | .error e => (.error e, acc)
        | .ok acc => (.ok (), acc)
      else match pushWeightLimited acc state2.symbol with
        | .error e => (.error e, acc)
        | .ok acc =>
          let (state2, br) := updateStateFast t state2 br
          if br.bitsRemaining ≤ -1 then
            match pushWeightLimited acc state1.symbol with
            | .error e => (.error e, acc)
            | .ok acc => (.ok (), acc)
          else decodeWeights t fuel state1 state2 br acc

/-- The nibbles of the raw description, high half first; an odd count leaves the last one. -/
def readNibbles (numWeights : Nat) :
    List UInt8 → Nat → WeightAcc → Except HuffmanTableError Unit × WeightAcc
  | [], _, acc => (.ok (), acc)
  | byte :: rest, idx, acc =>
    match pushWeightRaw acc (byte.toNat >>> 4) with
    | .error e => (.error e, acc)
    | .ok acc =>
      if idx + 1 < numWeights then
        match pushWeightRaw acc (byte.toNat &&& 0xF) with
        | .error e => (.error e, acc)
        | .ok acc => readNibbles numWeights rest (idx + 2) acc
      else readNibbles numWeights rest (idx + 1) acc

/-- The code length of every weight, the implied last one included. -/
def codeLengths (weights : List Nat) (maxBits lastWeight : Nat) : List Nat :=
  weights.map (fun w => if 0 < w then maxBits + 1 - w else 0) ++ [maxBits + 1 - lastWeight]

/-- How many codes there are of every length. -/
def rankCodes (maxBits lastWeight : Nat) (weightRankCount : List Nat) : List Nat :=
  let ranks := (List.range maxBits).foldl
    (fun ranks k => ranks.set (maxBits + 1 - (k + 1)) (weightRankCount.getD (k + 1) 0))
    ((List.replicate (maxMaxNumBits + 1) 0).set 0 (weightRankCount.getD 0 0))
  let last := maxBits + 1 - lastWeight
  ranks.set last (ranks.getD last 0 + 1)

/-- The first slot of every code length, the longest codes first. -/
def rankStarts (maxBits : Nat) (bitRanks : List Nat) : List Nat :=
  (List.range maxBits).foldl
    (fun starts k =>
      let bits := maxBits - k
      starts.set (bits - 1) (starts.getD bits 0 + bitRanks.getD bits 0 * 1 <<< (maxBits - bits)))
    (List.replicate 16 0)

/-- Where the symbols of every code length start in the sorted order. -/
def symOffsets : List Nat → Nat → List Nat
  | [], _ => []
  | rank :: ranks, acc => acc :: symOffsets ranks (acc + rank)

/-- The counting sort of the symbols by code length. -/
def sortSymbols : List Nat → Nat → List Nat → List UInt8 → List UInt8
  | [], _, _, sorted => sorted
  | len :: lens, symbol, cursor, sorted =>
    let g := len &&& 0xF
    sortSymbols lens (symbol + 1) (cursor.set g (cursor.getD g 0 + 1))
      (sorted.set (cursor.getD g 0) (UInt8.ofNat symbol))

/-- Overwrite `runLen` slots from `u`. -/
def fillRun (slots : List PackedEntry) (u runLen : Nat) (e : PackedEntry) : List PackedEntry :=
  slots.take u ++ List.replicate runLen e ++ slots.drop (u + runLen)

/-- The slots of one code length. -/
def fillGroup (sorted : List UInt8) (len runLen grp : Nat) :
    Nat → Nat → Nat → List PackedEntry → List PackedEntry
  | 0, _, _, slots => slots
  | count + 1, s, u, slots =>
    fillGroup sorted len runLen grp count (s + 1) (u + runLen)
      (fillRun slots u runLen ⟨len, sorted.getD (grp + s) 0⟩)

def fillSlots (maxBits : Nat) (bitRanks rankStart symOff : List Nat) (sorted : List UInt8) :
    List PackedEntry :=
  (List.range maxBits).foldl
    (fun slots k =>
      let len := k + 1
      fillGroup sorted len (1 <<< (maxBits - len)) (symOff.getD len 0) (bitRanks.getD len 0) 0
        (rankStart.getD len 0) slots)
    (List.replicate (1 <<< maxBits) {})

namespace HuffmanTable

def new : HuffmanTable := {}

def reset (t : HuffmanTable) : HuffmanTable :=
  { new with fseTable := t.fseTable.reset }

def reinitFrom (t other : HuffmanTable) : HuffmanTable :=
  { t.reset with
    packedDecode := other.packedDecode
    maxNumBits := other.maxNumBits
    stateMask := other.stateMask }

def withWeights (t : HuffmanTable) (acc : WeightAcc) : HuffmanTable :=
  { t with
    weights := acc.weights
    weightSum := acc.weightSum
    weightRankCount := acc.weightRankCount }

/-- The weights as an FSE stream of `header` bytes. -/
def readCompressedWeights (t : HuffmanTable) (header : Nat) (fseStream : List UInt8) :
    Except HuffmanTableError Nat × HuffmanTable :=
  if fseStream.length < header then
    (.error (.notEnoughBytesForWeights fseStream.length header), t)
  else match t.fseTable.buildDecoder fseStream 6 with
    | (.error e, fse) => (.error (.fseTableError e), { t with fseTable := fse })
    | (.ok used, fse) =>
      let t := { t with fseTable := fse }
      if header < used then (.error (.fseTableUsedTooManyBytes used header), t)
      else
        let compressedLength := header - used
        let compressedWeights := fseStream.drop used
        if compressedWeights.length < compressedLength then
          (.error (.notEnoughBytesToDecompressWeights compressedWeights.length compressedLength), t)
        else
          let (skippedBits, br) :=
            (BitReaderReversed.new (compressedWeights.take compressedLength)).skipPadding
          if 8 < skippedBits then (.error (.extraPadding skippedBits), t)
          else match initState fse br with
            | .error e => (.error (.fseDecoderError e), t)
            | .ok (state1, br) => match initState fse br with
              | .error e => (.error (.fseDecoderError e), t)
              | .ok (state2, br) => match decodeWeights fse 256 state1 state2 br {} with
                | (.error e, acc) => (.error e, { t with weights := acc.weights })
                | (.ok _, acc) => (.ok (1 + header), t.withWeights acc)

/-- The weights as nibbles. -/
def readRawWeights (t : HuffmanTable) (header : Nat) (weightsRaw : List UInt8) :
    Except HuffmanTableError Nat × HuffmanTable :=
  let numWeights := header - 127
  let bytesNeeded := (numWeights + 1) / 2
  if weightsRaw.length < bytesNeeded then
    (.error (.notEnoughBytesInSource weightsRaw.length bytesNeeded), { t with weights := [] })
  else match readNibbles numWeights (weightsRaw.take bytesNeeded) 0 {} with
    | (.error e, acc) => (.error e, { t with weights := acc.weights })
    | (.ok _, acc) => (.ok ((8 + numWeights * 4 + 7) / 8), t.withWeights acc)

def readWeights (t : HuffmanTable) :
    List UInt8 → Except HuffmanTableError Nat × HuffmanTable
  | [] => (.error .sourceIsEmpty, t)
  | header :: rest =>
    if header.toNat ≤ 127 then t.readCompressedWeights header.toNat rest
    else t.readRawWeights header.toNat rest

/-- Complete the weights and take the code lengths from them. The table's width is stored before
it is checked against the limit. -/
def computeHuffmanBits (t : HuffmanTable) : Except HuffmanTableError Nat × HuffmanTable :=
  let t := { t with bits := List.replicate (t.weights.length + 1) 0 }
  if t.weightSum = 0 then (.error .missingWeights, t)
  else
    let maxBits := highestBitSet t.weightSum
    let leftOver := 1 <<< maxBits - t.weightSum
    if ¬ leftOver.isPowerOfTwo then (.error (.leftoverIsNotAPowerOf2 leftOver), t)
    else
      let lastWeight := highestBitSet leftOver
      let t := { t with
        lastWeight := lastWeight
        bits := codeLengths t.weights maxBits lastWeight
        maxNumBits := maxBits
        stateMask := 1 <<< maxBits - 1 }
      if maxMaxNumBits < maxBits then (.error (.maxBitsTooHigh maxBits), t)
      else (.ok maxBits, t)

/-- Fill the decode table, longest codes first. -/
def buildTableFromWeights (t : HuffmanTable) : Except HuffmanTableError Unit × HuffmanTable :=
  match t.computeHuffmanBits with
  | (.error e, t) => (.error e, t)
  | (.ok maxBits, t) =>
    let bitRanks := rankCodes maxBits t.lastWeight t.weightRankCount
    let symOff := symOffsets bitRanks 0
    let sorted := sortSymbols t.bits 0 symOff (List.replicate 256 0)
    (.ok (), { t with
      bitRanks := bitRanks
      packedDecode := fillSlots maxBits bitRanks (rankStarts maxBits bitRanks) symOff sorted })

/-- Read a description and rebuild the table in place; the old decode table goes first. -/
def buildDecoder (t : HuffmanTable) (source : List UInt8) :
    Except HuffmanTableError Nat × HuffmanTable :=
  match { t with packedDecode := [] }.readWeights source with
  | (.error e, t) => (.error e, t)
  | (.ok bytesUsed, t) => match t.buildTableFromWeights with
    | (.error e, t) => (.error e, t)
    | (.ok _, t) => (.ok bytesUsed, t)

end HuffmanTable

/-- The decoder's state is the next slot to look up. -/
def initState (t : HuffmanTable) (br : BitReaderReversed) : Nat × BitReaderReversed :=
  br.getBits t.maxNumBits

def nextState (t : HuffmanTable) (state numBits newBits : Nat) : Nat :=
  ((state <<< numBits) &&& t.stateMask) ||| newBits

/-- Look up a symbol and read as many bits as its code is long. -/
def decodeSymbolAndAdvance (t : HuffmanTable) (state : Nat) (br : BitReaderReversed) :
    UInt8 × Nat × BitReaderReversed :=
  let packed := t.packedDecode.getD state {}
  let (newBits, br) := br.getBits packed.numBits
  (packed.symbol, nextState t state packed.numBits newBits, br)

def decodeSymbolAndAdvanceNoRefill (t : HuffmanTable) (state : Nat) (br : BitReaderReversed) :
    UInt8 × Nat × BitReaderReversed :=
  let packed := t.packedDecode.getD state {}
  let (newBits, br) := br.getBitsUnchecked packed.numBits
  (packed.symbol, nextState t state packed.numBits newBits, br)

end Huff0.Decoder
