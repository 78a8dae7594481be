import StructuredZstd.Decoding.Scratch

namespace Decoding

open BitIo Huff0.Decoder

inductive LiteralsSectionType where
  | raw
  | rle
  | compressed
  | treeless
deriving Repr, DecidableEq

structure LiteralsSection where
  regeneratedSize : Nat
  compressedSize : Option Nat
  numStreams : Option Nat
  lsType : LiteralsSectionType
deriving Repr, DecidableEq

namespace LiteralsSection

def sectionType (raw : Nat) : LiteralsSectionType :=
  match raw &&& 0x3 with
  | 0 => .raw
  | 1 => .rle
  | 2 => .compressed
  | _ => .treeless

def headerBytesNeeded (firstByte : Nat) : Nat :=
  let sizeFormat := (firstByte >>> 2) &&& 0x3
  match sectionType firstByte with
  | .rle | .raw => if sizeFormat = 1 then 2 else if sizeFormat = 3 then 3 else 1
  | .compressed | .treeless => if sizeFormat = 2 then 4 else if sizeFormat = 3 then 5 else 3

/-- The section header and how many bytes it takes. -/
def parseFromHeader (raw : List UInt8) :
    Except LiteralsSectionParseError (LiteralsSection × Nat) :=
  match raw with
  | [] => .error (.getBitsError 2 0)
  | first :: _ =>
    let byte (i : Nat) : Nat := (raw.getD i 0).toNat
    let lsType := sectionType first.toNat
    let sizeFormat := (first.toNat >>> 2) &&& 0x3
    let byteNeeded := headerBytesNeeded first.toNat
    if raw.length < byteNeeded then .error (.notEnoughBytes raw.length byteNeeded)
    else match lsType with
      | .rle | .raw =>
        let regeneratedSize :=
          if sizeFormat = 1 then byte 0 >>> 4 + byte 1 <<< 4
          else if sizeFormat = 3 then byte 0 >>> 4 + byte 1 <<< 4 + byte 2 <<< 12
          else byte 0 >>> 3
        .ok (⟨regeneratedSize, none, none, lsType⟩, byteNeeded)
      | .compressed | .treeless =>
        let numStreams := if sizeFormat = 0 then 1 else 4
        let (regeneratedSize, compressedSize) :=
          if sizeFormat = 2 then
            (byte 0 >>> 4 + byte 1 <<< 4 + (byte 2 &&& 0x3) <<< 12, byte 2 >>> 2 + byte 3 <<< 6)
          else if sizeFormat = 3 then
            (byte 0 >>> 4 + byte 1 <<< 4 + (byte 2 &&& 0x3F) <<< 12,
              byte 2 >>> 6 + byte 3 <<< 2 + byte 4 <<< 10)
          else (byte 0 >>> 4 + (byte 1 &&& 0x3F) <<< 4, byte 1 >>> 6 + byte 2 <<< 2)
        .ok (⟨regeneratedSize, some compressedSize, some numStreams, lsType⟩, byteNeeded)

end LiteralsSection

/-- One Huffman stream being decoded: its reader, its state and its output so far. -/
structure Lane where
  br : BitReaderReversed
  state : Nat
  out : List UInt8 := []
deriving Repr, DecidableEq

/-- Skip the padding of a stream and read its first state. -/
def Lane.start (t : HuffmanTable) (stream : List UInt8) : Except DecompressLiteralsError Lane :=
  let (skippedBits, br) := (BitReaderReversed.new stream).skipPadding
  if 8 < skippedBits then .error (.extraPadding skippedBits)
  else
    let (state, br) := initState t br
    .ok { br := br, state := state }

def Lane.step (t : HuffmanTable) (lane : Lane) : Lane :=
  let (symbol, state, br) := decodeSymbolAndAdvance t lane.state lane.br
  ⟨br, state, lane.out ++ [symbol]⟩

def Lane.stepNoRefill (t : HuffmanTable) (lane : Lane) : Lane :=
  let (symbol, state, br) := decodeSymbolAndAdvanceNoRefill t lane.state lane.br
  ⟨br, state, lane.out ++ [symbol]⟩

/-- The single stream: symbols until the reader is as far past the front as a state is wide.
Every symbol of a table takes a bit at least, which bounds the loop. -/
def decodeSingle (t : HuffmanTable) : Nat → Lane → Lane
  | 0, lane => lane
  | fuel + 1, lane =>
    if -(t.maxNumBits : Int) < lane.br.bitsRemaining then decodeSingle t fuel (lane.step t)
    else lane

/-- The number of low zero bits of a word that is not zero. -/
def trailingZeros : Nat → Nat → Nat
  | 0, _ => 0
  | fuel + 1, x => if x % 2 = 1 then 0 else trailingZeros fuel (x / 2) + 1

/-- A lane of the burst loop: the bits left aligned in a word, a set bit marking their end. -/
structure BurstLane where
  b : Nat
  ip : Nat
  source : List UInt8
  out : List UInt8
deriving Repr, DecidableEq

namespace BurstLane

def load (lane : Lane) (maxNumBits : Nat) : BurstLane where
  b := ((lane.br.bitContainer ||| 1) <<< (lane.br.bitsConsumed - maxNumBits)) % 2 ^ 64
  ip := lane.br.index
  source := lane.br.source
  out := lane.out

def decode1 (packed : List PackedEntry) (tableShift : Nat) (l : BurstLane) : BurstLane :=
  let entry := packed.getD (l.b >>> tableShift) {}
  { l with b := (l.b <<< entry.numBits) % 2 ^ 64, out := l.out ++ [entry.symbol] }

def reload1 (l : BurstLane) : BurstLane :=
  let ctz := trailingZeros 64 l.b
  let ip := l.ip - ctz >>> 3
  { l with
    b := ((BitReaderReversed.loadWord l.source ip ||| 1) <<< (ctz &&& 7)) % 2 ^ 64
    ip := ip }

def burst (packed : List PackedEntry) (tableShift : Nat) : Nat → BurstLane → BurstLane
  | 0, l => l
  | n + 1, l => burst packed tableShift n (l.decode1 packed tableShift)

def writeback (lane : Lane) (l : BurstLane) (maxNumBits tableShift : Nat) : Lane where
  br := { lane.br with
    index := l.ip
    bitContainer := BitReaderReversed.loadWord l.source l.ip
    bitsConsumed := trailingZeros 64 l.b + maxNumBits }
  state := l.b >>> tableShift
  out := l.out

end BurstLane

/-- What the four lanes of the burst loop share. -/
structure LoopBounds where
  symbolsPerBurst : Nat
  tableShift : Nat
  minSegLen : Nat
  bytesPerIterUpper : Nat

/-- Rounds of the burst loop: every lane decodes a burst and reloads, while every lane has the
input and the room for one. Says also whether there was a round. -/
def burstRounds (packed : List PackedEntry) (bounds : LoopBounds) :
    Nat → Bool → List BurstLane → Bool × List BurstLane
  | 0, anyIter, lanes => (anyIter, lanes)
  | fuel + 1, anyIter, lanes =>
    let room := (lanes.head?.map (·.out.length)).getD 0 + bounds.symbolsPerBurst ≤ bounds.minSegLen
    let input := lanes.all fun l => bounds.bytesPerIterUpper ≤ l.ip
    if room ∧ input then
      burstRounds packed bounds fuel true
        (lanes.map fun l =>
          (l.burst packed bounds.tableShift bounds.symbolsPerBurst).reload1)
    else (anyIter, lanes)

/-- `run_4stream_burst_loop`; lanes it never touched stay as they were. -/
def run4streamBurstLoop (t : HuffmanTable) (minSegLen : Nat) (lanes : List Lane) : List Lane :=
  let symbolsPerBurst := (63 - 8) / t.maxNumBits
  let bounds : LoopBounds := {
    symbolsPerBurst := symbolsPerBurst
    tableShift := 64 - t.maxNumBits
    minSegLen := minSegLen
    bytesPerIterUpper := (8 + symbolsPerBurst * t.maxNumBits) / 8 }
  if 1 ≤ symbolsPerBurst ∧ symbolsPerBurst ≤ minSegLen then
    let (anyIter, bursts) := burstRounds t.packedDecode bounds (minSegLen + 1) false
      (lanes.map (BurstLane.load · t.maxNumBits))
    if anyIter then
      List.zipWith (fun lane l => BurstLane.writeback lane l t.maxNumBits bounds.tableShift)
        lanes bursts
    else lanes
  else lanes

def Lane.stepsNoRefill (t : HuffmanTable) : Nat → Lane → Lane
  | 0, lane => lane
  | n + 1, lane => Lane.stepsNoRefill t n (lane.stepNoRefill t)

/-- What a lane still owes, four symbols to a refill. -/
def drainLane (t : HuffmanTable) (groupBits : Nat) : Nat → Nat → Lane → Lane
  | 0, _, lane => lane
  | fuel + 1, owed, lane =>
    if 4 ≤ owed then
      drainLane t groupBits fuel (owed - 4)
        (Lane.stepsNoRefill t 4 { lane with br := lane.br.ensureBits groupBits })
    else if 0 < owed then
      Lane.stepsNoRefill t owed { lane with br := lane.br.ensureBits groupBits }
    else lane

/-- Drain the lanes one after another, each up to its segment; a lane must end exactly. -/
def drainLanes (t : HuffmanTable) :
    List (Lane × Nat) → Except DecompressLiteralsError (List UInt8)
  | [] => .ok []
  | (lane, segLen) :: rest => do
    let lane := drainLane t (4 * t.maxNumBits) (segLen + 1) (segLen - lane.out.length) lane
    if lane.br.bitsRemaining ≠ -(t.maxNumBits : Int) then
      throw (.bitstreamReadMismatch lane.br.bitsRemaining (-(t.maxNumBits : Int)))
    let tail ← drainLanes t rest
    return lane.out ++ tail

def startLanes (t : HuffmanTable) :
    List (List UInt8) → Except DecompressLiteralsError (List Lane)
  | [] => .ok []
  | stream :: streams => do
    let lane ← Lane.start t stream
    let lanes ← startLanes t streams
    return lane :: lanes

/-- The output lengths of the four streams: three equal segments and the rest. -/
def segmentLengths (regen : Nat) : List Nat :=
  let seg := (regen + 3) / 4
  let start (i : Nat) := min (i * seg) regen
  [start 1 - start 0, start 2 - start 1, start 3 - start 2, regen - start 3]

/-- The four streams behind a jump table. -/
def decodeFourStreams (t : HuffmanTable) (regen : Nat) (source : List UInt8) :
    Except DecompressLiteralsError (List UInt8) :=
  if source.length < 6 then .error (.missingBytesForJumpHeader source.length)
  else
    let byte (i : Nat) : Nat := (source.getD i 0).toNat
    let jump1 := byte 0 + byte 1 <<< 8
    let jump2 := jump1 + byte 2 + byte 3 <<< 8
    let jump3 := jump2 + byte 4 + byte 5 <<< 8
    let body := source.drop 6
    if body.length < jump3 then .error (.missingBytesForLiterals body.length jump3)
    else do
      let lanes ← startLanes t
        [body.take jump1, (body.take jump2).drop jump1, (body.take jump3).drop jump2,
          body.drop jump3]
      let segments := segmentLengths regen
      let lanes := run4streamBurstLoop t (segments.foldl min regen) lanes
      let out ← drainLanes t (lanes.zip segments)
      if out.length ≠ regen then throw (.decodedLiteralCountMismatch out.length regen)
      return out

def decodeOneStream (t : HuffmanTable) (regen : Nat) (source : List UInt8) :
    Except DecompressLiteralsError (List UInt8) := do
  let lane ← Lane.start t source
  let lane := decodeSingle t (8 * source.length + 1) lane
  if lane.br.bitsRemaining ≠ -(t.maxNumBits : Int) then
    throw (.bitstreamReadMismatch lane.br.bitsRemaining (-(t.maxNumBits : Int)))
  if lane.out.length ≠ regen then throw (.decodedLiteralCountMismatch lane.out.length regen)
  return lane.out

/-- Whether the section's table may be used: a new description is built into the decoder's own
table, a treeless section needs a table that has been built before. -/
def prepareTable (ls : LiteralsSection) (scratch : HuffmanScratch) (dict : Option Dictionary)
    (source : List UInt8) : Except DecompressLiteralsError Nat × HuffmanScratch :=
  match ls.lsType with
  | .compressed =>
    match scratch.table.buildDecoder source with
    | (.error e, table) => (.error (.huffmanTableError e), { scratch with table := table })
    | (.ok bytes, table) => (.ok bytes, { scratch with table := table }.markTableLocal)
  | .treeless =>
    if (scratch.hufTable dict).maxNumBits = 0 then (.error .uninitializedHuffmanTable, scratch)
    else (.ok 0, scratch)
  | _ => (.ok 0, scratch)

/-- `decompress_literals_impl`. -/
def decompressLiterals (ls : LiteralsSection) (scratch : HuffmanScratch)
    (dict : Option Dictionary) (source : List UInt8) :
    Except DecompressLiteralsError (List UInt8 × Nat) × HuffmanScratch :=
  match ls.compressedSize, ls.numStreams with
  | none, _ => (.error .missingCompressedSize, scratch)
  | some _, none => (.error .missingNumStreams, scratch)
  | some compressedSize, some numStreams =>
    if source.length < compressedSize then
      (.error (.missingBytesForLiterals source.length compressedSize), scratch)
    else
      let source := source.take compressedSize
      match prepareTable ls scratch dict source with
      | (.error e, scratch) => (.error e, scratch)
      | (.ok bytesRead, scratch) =>
        let table := scratch.hufTable dict
        let decode := if numStreams = 4 then decodeFourStreams else decodeOneStream
        match decode table ls.regeneratedSize (source.drop bytesRead) with
        | .error e => (.error e, scratch)
        | .ok literals => (.ok (literals, compressedSize), scratch)

/-- The literals of a block and the bytes their section takes. The read slack behind them that
the copiers rely on is no part of the result. -/
def decodeLiteralsZerocopy (ls : LiteralsSection) (scratch : HuffmanScratch)
    (dict : Option Dictionary) (source : List UInt8) (payloadLen : Nat) :
    Except DecompressLiteralsError (List UInt8 × Nat) × HuffmanScratch :=
  match ls.lsType with
  | .raw =>
    if source.length < ls.regeneratedSize then
      (.error (.missingBytesForLiterals source.length ls.regeneratedSize), scratch)
    else (.ok (source.take ls.regeneratedSize, ls.regeneratedSize), scratch)
  | .rle =>
    match source with
    | [] => (.error (.missingBytesForLiterals 0 1), scratch)
    | byte :: _ => (.ok (List.replicate ls.regeneratedSize byte, 1), scratch)
  | .compressed | .treeless =>
    decompressLiterals ls scratch dict (source.take payloadLen)

end Decoding
