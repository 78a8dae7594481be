import StructuredZstd.Decoding.FrameHeader
import StructuredZstd.Decoding.Backends
import StructuredZstd.Runs.Loop

namespace Decoding

open Bits Runs

/-- Where a block lies in its frame and what its header says. -/
structure FrameBlock where
  offsetInFrame : Nat
  headerSize : Nat
  bodySize : Nat
  blockSizeField : Nat
  blockType : BlockType
  lastBlock : Bool
  decompressedSize : Nat
deriving Repr, DecidableEq

inductive FrameDecoderError where
  | readFrameHeaderError (e : ReadFrameHeaderError)
  | frameHeaderError (e : FrameHeaderError)
  | windowSizeTooBig (requested limit : Nat)
  | failedToReadBlockHeaderAt (source : BlockHeaderReadError) (blockIndex frameOffset : Nat)
  | failedToReadBlockBodyAt (source : DecodeBlockContentError) (blockIndex frameOffset : Nat)
      (block : FrameBlock)
  | failedToReadChecksum
  | notYetInitialized
  | targetTooSmall
  | failedToSkipFrame
  | frameContentSizeMismatch (declared produced : Nat)
  | checksumMismatch (expected calculated : Nat)
  | dictNotProvided (dictId : Nat)
  | dictIdMismatch (expected provided : Nat)
  | dictAlreadyRegistered (dictId : Nat)
  | zeroDictionaryId
  | zeroRepeatOffsetInDictionary (index : Nat)
  | unexpectedDictId (expected found : Option Nat)
  | unexpectedWindowDescriptor (expected : Nat) (found : Option Nat)
  | invalidBlockRange (startBlock endBlock : Nat)
  | resumeWindowTooShort (got need : Nat)
  | resumeFrameMismatch
  | resumeUnidentifiedDictionary
deriving Repr, DecidableEq

def blockBodyDecodeError (source : DecodeBlockContentError) (blockIndex frameOffset : Nat)
    (header : BlockHeader) (headerSize : Nat) : FrameDecoderError :=
  .failedToReadBlockBodyAt source blockIndex frameOffset {
    offsetInFrame := frameOffset
    headerSize := headerSize
    bodySize := match header.blockType with
      | .rle => 1
      | _ => header.contentSize
    blockSizeField := match header.blockType with
      | .rle => header.decompressedSize
      | _ => header.contentSize
    blockType := header.blockType
    lastBlock := header.lastBlock
    decompressedSize := header.decompressedSize }

inductive ContentChecksum where
  | none
  | emitOnly
  | verify
deriving Repr, DecidableEq

inductive BlockDecodingStrategy where
  | all
  | uptoBlocks (n : Nat)
  | uptoBytes (n : Nat)
deriving Repr, DecidableEq

/-- The workspace of a frame: a flat one for a single segment, a ring otherwise. -/
inductive DecoderScratchKind where
  | ring (s : Workspace RingBuffer)
  | flat (s : Workspace FlatBuf)

namespace DecoderScratchKind

def newRing (windowSize : Nat) : DecoderScratchKind := .ring (.new windowSize)

def newFlat (frameContentSize : Nat) : DecoderScratchKind := .flat (.new frameContentSize)

/-- Reset for a frame; a workspace of the other kind is thrown away. -/
def reset (k : DecoderScratchKind) (frame : FrameHeader) (windowSize : Nat) : DecoderScratchKind :=
  if frame.descriptor.singleSegmentFlag then
    match k with
    | .flat s => .flat (s.reset windowSize)
    | .ring _ => newFlat windowSize
  else match k with
    | .ring s => .ring (s.reset windowSize)
    | .flat _ => newRing windowSize

def initFromDict (k : DecoderScratchKind) (dict : Dictionary) : DecoderScratchKind :=
  match k with
  | .ring s => .ring (s.initFromDict dict)
  | .flat s => .flat (s.initFromDict dict)

def huf : DecoderScratchKind → HuffmanScratch
  | .ring s => s.huf
  | .flat s => s.huf

def fse : DecoderScratchKind → FSEScratch
  | .ring s => s.fse
  | .flat s => s.fse

def offsetHist : DecoderScratchKind → OffsetHist
  | .ring s => s.offsetHist
  | .flat s => s.offsetHist

/-- Ask the buffer, whichever it is. -/
def onBuffer {α : Type} (f : ∀ {B : Type} [BufferBackend B], DecodeBuffer B → α) :
    DecoderScratchKind → α
  | .ring s => f s.buffer
  | .flat s => f s.buffer

/-- Change the buffer, whichever it is. -/
def mapBuffer (f : ∀ {B : Type} [BufferBackend B], DecodeBuffer B → DecodeBuffer B) :
    DecoderScratchKind → DecoderScratchKind
  | .ring s => .ring { s with buffer := f s.buffer }
  | .flat s => .flat { s with buffer := f s.buffer }

/-- Change the buffer and hand out a result. -/
def runBuffer {α : Type} (f : ∀ {B : Type} [BufferBackend B], DecodeBuffer B → α × DecodeBuffer B) :
    DecoderScratchKind → α × DecoderScratchKind
  | .ring s => let (a, buffer) := f s.buffer; (a, .ring { s with buffer := buffer })
  | .flat s => let (a, buffer) := f s.buffer; (a, .flat { s with buffer := buffer })

def bufferLen (k : DecoderScratchKind) : Nat := k.onBuffer (·.len)

def bufferUndelivered (k : DecoderScratchKind) : Nat := k.onBuffer (·.undelivered)

def totalOutput (k : DecoderScratchKind) : Nat := k.onBuffer (·.totalOutputCounter)

def hashText (k : DecoderScratchKind) : List UInt8 := k.onBuffer (·.hash)

def setTotalOutput (k : DecoderScratchKind) (produced : Nat) : DecoderScratchKind :=
  k.mapBuffer fun b => { b with totalOutputCounter := produced }

def setComputeHash (k : DecoderScratchKind) (compute : Bool) : DecoderScratchKind :=
  k.mapBuffer fun b => { b with computeHash := compute }

def setBlockLimit (k : DecoderScratchKind) (limit : Nat) : DecoderScratchKind :=
  k.mapBuffer (·.setBlockLimit limit)

def setDeclaredContent (k : DecoderScratchKind) (contentSize : Option Nat) : DecoderScratchKind :=
  k.mapBuffer (·.setDeclaredContent contentSize)

/-- Room for the frame up front. The ring grows to the target and no further. -/
def reserveBuffer (k : DecoderScratchKind) (target growthLimit : Nat) : DecoderScratchKind :=
  match k with
  | .ring s =>
    let b := BufferBackend.setGrowthLimit s.buffer.buffer target
    let b := BufferBackend.reserveExact b (target - s.buffer.len)
    .ring { s with buffer := { s.buffer with
      buffer := BufferBackend.setGrowthLimit b growthLimit } }
  | .flat s =>
    .flat { s with buffer := { s.buffer with
      buffer := BufferBackend.reserveExact s.buffer.buffer (target - s.buffer.len) } }

def bufferRead (k : DecoderScratchKind) (targetLen : Nat) : List UInt8 × DecoderScratchKind :=
  k.runBuffer (·.read targetLen)

def bufferReadAll (k : DecoderScratchKind) (targetLen : Nat) : List UInt8 × DecoderScratchKind :=
  k.runBuffer (·.readAll targetLen)

def decodeBlockContent (k : DecoderScratchKind) (header : BlockHeader)
    (dict : Option Dictionary) (source : Reader) :
    Except DecodeBlockContentError Nat × DecoderScratchKind × Reader :=
  match k with
  | .ring s =>
    let (result, s, source) := Decoding.decodeBlockContent header s dict source
    (result, .ring s, source)
  | .flat s =>
    let (result, s, source) := Decoding.decodeBlockContent header s dict source
    (result, .flat s, source)

def decodeBlockContentFromSlice (k : DecoderScratchKind) (header : BlockHeader)
    (dict : Option Dictionary) (source : List UInt8) :
    Except DecodeBlockContentError Nat × DecoderScratchKind × List UInt8 :=
  match k with
  | .ring s =>
    let (result, s, source) := Decoding.decodeBlockContentFromSlice header s dict source
    (result, .ring s, source)
  | .flat s =>
    let (result, s, source) := Decoding.decodeBlockContentFromSlice header s dict source
    (result, .flat s, source)

end DecoderScratchKind

structure FrameDecoderState where
  frameHeader : FrameHeader
  decoderScratch : DecoderScratchKind
  frameFinished : Bool
  blockCounter : Nat
  bytesReadCounter : Nat
  checkSum : Option Nat
  usingDict : Option Nat
  activeDict : Option Dictionary
  windowRefusedAt : Option Nat
  blockLimit : Nat

def checkedWindowSize (frame : FrameHeader) (maxWindow : Nat) : Except FrameDecoderError Nat :=
  match frame.windowSize with
  | .error e => .error (.frameHeaderError e)
  | .ok windowSize =>
    if maxWindow < windowSize then .error (.windowSizeTooBig windowSize maxWindow)
    else .ok windowSize

/-- The window, or nothing of a header no state was made from. -/
def FrameHeader.windowSizeD (h : FrameHeader) : Nat :=
  match h.windowSize with
  | .ok n => n
  | .error _ => 0

namespace FrameDecoderState

def newWithParsedHeader (frame : FrameHeader) (headerSize maxWindow blockLimit : Nat) :
    Except FrameDecoderError FrameDecoderState := do
  let windowSize ← checkedWindowSize frame maxWindow
  let scratch : DecoderScratchKind :=
    if frame.descriptor.singleSegmentFlag then .newFlat windowSize else .newRing windowSize
  return {
    frameHeader := frame
    decoderScratch := scratch.setBlockLimit blockLimit
    frameFinished := false
    blockCounter := 0
    bytesReadCounter := headerSize
    checkSum := none
    usingDict := none
    activeDict := none
    windowRefusedAt := none
    blockLimit := blockLimit }

/-- Take over the header of the next frame. A window that is refused leaves the state alone; the
dictionary held last stays, unused. -/
def resetWithParsedHeader (s : FrameDecoderState) (frame : FrameHeader)
    (headerSize maxWindow blockLimit : Nat) : Except FrameDecoderError FrameDecoderState := do
  let windowSize ← checkedWindowSize frame maxWindow
  return { s with
    decoderScratch := (s.decoderScratch.reset frame windowSize).setBlockLimit blockLimit
    blockLimit := blockLimit
    frameHeader := frame
    frameFinished := false
    blockCounter := 0
    bytesReadCounter := headerSize
    checkSum := none
    usingDict := none
    windowRefusedAt := none }

/-- The dictionary the current frame decodes with. -/
def dictRef (s : FrameDecoderState) : Option Dictionary :=
  if s.usingDict.isSome then s.activeDict else none

def attachDict (s : FrameDecoderState) (dict : Dictionary) : FrameDecoderState :=
  { s with
    decoderScratch := s.decoderScratch.initFromDict dict
    activeDict := some dict
    usingDict := some dict.id }

def usefulWindowSize (s : FrameDecoderState) : Nat :=
  let windowSize := s.frameHeader.windowSizeD
  if s.frameHeader.fcsDeclared then min windowSize s.frameHeader.frameContentSize else windowSize

def decodingBufferLimit (s : FrameDecoderState) : Nat :=
  if s.frameHeader.descriptor.singleSegmentFlag then s.usefulWindowSize
  else s.usefulWindowSize + min s.frameHeader.windowSizeD maxBlockSize

def decodingBufferSize (s : FrameDecoderState) : Nat :=
  if ¬ s.frameHeader.fcsDeclared then s.decodingBufferLimit
  else if s.frameHeader.frameContentSize ≤ s.frameHeader.windowSizeD then s.usefulWindowSize
  else min s.decodingBufferLimit s.frameHeader.frameContentSize

def reserveDecodingBuffer (s : FrameDecoderState) : FrameDecoderState :=
  { s with
    decoderScratch := (s.decoderScratch.setDeclaredContent s.frameHeader.declared).reserveBuffer
      s.decodingBufferSize s.decodingBufferLimit }

def blockMaximum (s : FrameDecoderState) : Nat :=
  let window := match s.frameHeader.windowSize with
    | .ok n => n
    | .error _ => usizeMax
  min (min window maxBlockSize) s.blockLimit

def setComputeHash (s : FrameDecoderState) (mode : ContentChecksum) : FrameDecoderState :=
  { s with
    decoderScratch := s.decoderScratch.setComputeHash
      (mode ≠ .none ∧ s.frameHeader.descriptor.contentChecksumFlag) }

def isFinished (s : FrameDecoderState) : Bool :=
  if s.frameHeader.descriptor.contentChecksumFlag then s.frameFinished ∧ s.checkSum.isSome
  else s.frameFinished

/-- One block off a reader. The header is counted once it is read, the content once it is
decoded. -/
def readBlock (s : FrameDecoderState) (source : Reader) :
    Except FrameDecoderError BlockHeader × FrameDecoderState × Reader :=
  let blockIndex := s.blockCounter
  let frameOffset := s.bytesReadCounter
  match readBlockHeader source with
  | (.error e, source) => (.error (.failedToReadBlockHeaderAt e blockIndex frameOffset), s, source)
  | (.ok header, source) =>
    let s := { s with bytesReadCounter := s.bytesReadCounter + 3 }
    match s.decoderScratch.decodeBlockContent header s.dictRef source with
    | (.error e, scratch, source) =>
      (.error (blockBodyDecodeError e blockIndex frameOffset header 3),
        { s with decoderScratch := scratch }, source)
    | (.ok bodyRead, scratch, source) =>
      (.ok header, { s with
        decoderScratch := scratch
        bytesReadCounter := s.bytesReadCounter + bodyRead
        blockCounter := s.blockCounter + 1 }, source)

/-- After the last block: the frame is finished, and its checksum follows if it has one. -/
def finishFrame (s : FrameDecoderState) (source : Reader) :
    Except FrameDecoderError Unit × FrameDecoderState × Reader :=
  let s := { s with frameFinished := true }
  if s.frameHeader.descriptor.contentChecksumFlag then
    match source.readExact 4 with
    | (none, source) => (.error .failedToReadChecksum, s, source)
    | (some chksum, source) =>
      (.ok (), { s with
        bytesReadCounter := s.bytesReadCounter + 4
        checkSum := some (le chksum) }, source)
  else (.ok (), s, source)

/-- Whether the strategy has enough, given what there was when the call began. -/
def enough (s : FrameDecoderState) (strat : BlockDecodingStrategy)
    (blocksBefore bytesBefore : Nat) : Bool :=
  match strat with
  | .all => false
  | .uptoBlocks n => n ≤ s.blockCounter - blocksBefore
  | .uptoBytes n => n ≤ s.decoderScratch.bufferLen - bytesBefore

/-- A round of `decode_blocks`: a block, and what ends the call. -/
def decodeBlocksBody (strat : BlockDecodingStrategy) (blocksBefore bytesBefore : Nat) :
    FrameDecoderState × Reader →
      Next (FrameDecoderState × Reader)
        (Except FrameDecoderError Unit × FrameDecoderState × Reader)
  | (s, source) =>
    match s.readBlock source with
    | (.error e, s, source) => .done (.error e, s, source)
    | (.ok header, s, source) =>
      if header.lastBlock then .done (s.finishFrame source)
      else if s.enough strat blocksBefore bytesBefore then .done (.ok (), s, source)
      else .again (s, source)

/-- The loop of `decode_blocks`. Every round takes three bytes off the reader at least. -/
def decodeBlocksLoop (s : FrameDecoderState) (strat : BlockDecodingStrategy) (source : Reader) :
    Except FrameDecoderError Unit × FrameDecoderState × Reader :=
  (loop (decodeBlocksBody strat s.blockCounter s.decoderScratch.bufferLen)
    (source.bytes.length + 1) (s, source)).getD (.ok (), s, source)

end FrameDecoderState

structure FrameDecoder where
  state : Option FrameDecoderState := none
  ownedDicts : List Dictionary := []
  sharedDicts : List Dictionary := []
  magicless : Bool := false
  maxWindowSize : Nat := maximumAllowedWindowSize
  maxBlockSize : Nat := Decoding.maxBlockSize
  contentChecksum : ContentChecksum := .emitOnly
  expectDictId : Option Nat := none
  expectWindowDescriptor : Option Nat := none

namespace FrameDecoder

def new : FrameDecoder := {}

/-- A registered dictionary; one the decoder owns goes first. -/
def registeredDict (d : FrameDecoder) (dictId : Nat) : Option Dictionary :=
  match d.ownedDicts.find? (·.id = dictId) with
  | some dict => some dict
  | none => d.sharedDicts.find? (·.id = dictId)

def validateDictionaryContent (dict : Dictionary) : Except FrameDecoderError Unit :=
  if dict.offsetHist.first = 0 then .error (.zeroRepeatOffsetInDictionary 0)
  else if dict.offsetHist.second = 0 then .error (.zeroRepeatOffsetInDictionary 1)
  else if dict.offsetHist.third = 0 then .error (.zeroRepeatOffsetInDictionary 2)
  else .ok ()

def validateRegisteredDictionary (dict : Dictionary) : Except FrameDecoderError Unit :=
  if dict.id = 0 then .error .zeroDictionaryId else validateDictionaryContent dict

/-- Register a dictionary, under an id that is not taken. -/
def addDict (d : FrameDecoder) (dict : Dictionary) : Except FrameDecoderError Unit × FrameDecoder :=
  match validateRegisteredDictionary dict with
  | .error e => (.error e, d)
  | .ok _ =>
    if (d.registeredDict dict.id).isSome then (.error (.dictAlreadyRegistered dict.id), d)
    else (.ok (), { d with ownedDicts := d.ownedDicts ++ [dict] })

def addDictHandle (d : FrameDecoder) (dict : Dictionary) :
    Except FrameDecoderError Unit × FrameDecoder :=
  match validateRegisteredDictionary dict with
  | .error e => (.error e, d)
  | .ok _ =>
    if (d.registeredDict dict.id).isSome then (.error (.dictAlreadyRegistered dict.id), d)
    else (.ok (), { d with sharedDicts := d.sharedDicts ++ [dict] })

def validateExpectations (d : FrameDecoder) (header : FrameHeader) :
    Except FrameDecoderError Unit := do
  if let some expected := d.expectDictId then
    if header.dictId.getD 0 ≠ expected then throw (.unexpectedDictId (some expected) header.dictId)
  if let some expected := d.expectWindowDescriptor then
    if header.windowDescriptor? ≠ some expected then
      throw (.unexpectedWindowDescriptor expected header.windowDescriptor?)

/-- The state for a header just parsed: the one there is, reset, or a new one. -/
def stateForHeader (d : FrameDecoder) (frame : FrameHeader) (headerSize maxWindow : Nat) :
    Except FrameDecoderError FrameDecoderState :=
  match d.state with
  | some s => s.resetWithParsedHeader frame headerSize maxWindow d.maxBlockSize
  | none => FrameDecoderState.newWithParsedHeader frame headerSize maxWindow d.maxBlockSize

/-- What is left of a reset once its header is in the state: the pinned fields, and the
dictionary the frame names. -/
def attachNamedDict (d : FrameDecoder) (s : FrameDecoderState) :
    Except FrameDecoderError Unit × FrameDecoder :=
  match d.validateExpectations s.frameHeader with
  | .error e => (.error e, { d with state := some s })
  | .ok _ => match s.frameHeader.dictId with
    | none => (.ok (), { d with state := some s })
    | some dictId => match d.registeredDict dictId with
      | none => (.error (.dictNotProvided dictId), { d with state := some s })
      | some dict => (.ok (), { d with state := some (s.attachDict dict) })

/-- `reset`, which `init` is another name of. -/
def reset (d : FrameDecoder) (source : Reader) :
    Except FrameDecoderError Unit × FrameDecoder × Reader :=
  match readFrameHeaderWithFormat d.magicless source with
  | (.error e, source) => (.error (.readFrameHeaderError e), d, source)
  | (.ok (frame, headerSize), source) =>
    match d.stateForHeader frame headerSize d.maxWindowSize with
    | .error e => (.error e, d, source)
    | .ok s =>
      let (result, d) := d.attachNamedDict s
      (result, d, source)

/-- `reset_from_slice`: the same off a slice, under the widest window. -/
def resetFromSlice (d : FrameDecoder) (input : List UInt8) :
    Except FrameDecoderError Unit × FrameDecoder × List UInt8 :=
  match readFrameHeaderWithFormat d.magicless ⟨input, input.length⟩ with
  | (.error e, source) => (.error (.readFrameHeaderError e), d, source.bytes)
  | (.ok (frame, headerSize), source) =>
    match d.stateForHeader frame headerSize maxDecoderWindowSize with
    | .error e => (.error e, d, source.bytes)
    | .ok s =>
      let (result, d) := d.attachNamedDict s
      (result, d, source.bytes)

/-- The dictionary of a list for a frame: the last one of the id it names, else the last. -/
def dictionaryForFrame (dicts : List Dictionary) (dictId : Option Nat) : Option Dictionary :=
  match dictId.bind fun id => dicts.reverse.find? (·.id = id) with
  | some dict => some dict
  | none => dicts.getLast?

/-- What is left of a reset with dictionaries at hand. -/
def attachGivenDict (d : FrameDecoder) (s : FrameDecoderState) (dicts : List Dictionary) :
    Except FrameDecoderError Unit × FrameDecoder :=
  match d.validateExpectations s.frameHeader with
  | .error e => (.error e, { d with state := some s })
  | .ok _ => match dictionaryForFrame dicts s.frameHeader.dictId with
    | none => (.ok (), { d with state := some s })
    | some dict =>
      if s.frameHeader.dictId.any (· ≠ dict.id) then
        (.error (.dictIdMismatch (s.frameHeader.dictId.getD 0) dict.id),
          { d with state := some s })
      else (.ok (), { d with state := some (s.attachDict dict) })

def resetWithDictHandles (d : FrameDecoder) (source : Reader) (dicts : List Dictionary) :
    Except FrameDecoderError Unit × FrameDecoder × Reader :=
  if dicts = [] then d.reset source
  else match dicts.forM validateDictionaryContent with
    | .error e => (.error e, d, source)
    | .ok _ => match readFrameHeaderWithFormat d.magicless source with
      | (.error e, source) => (.error (.readFrameHeaderError e), d, source)
      | (.ok (frame, headerSize), source) =>
        match d.stateForHeader frame headerSize d.maxWindowSize with
        | .error e => (.error e, d, source)
        | .ok s =>
          let (result, d) := d.attachGivenDict s dicts
          (result, d, source)

/-- Attach a registered dictionary to the frame under way. -/
def forceDict (d : FrameDecoder) (dictId : Nat) : Except FrameDecoderError Unit × FrameDecoder :=
  match d.state with
  | none => (.error .notYetInitialized, d)
  | some s => match d.registeredDict dictId with
    | none => (.error (.dictNotProvided dictId), d)
    | some dict => (.ok (), { d with state := some (s.attachDict dict) })

def checkWindowStillAdmitted (d : FrameDecoder) : Except FrameDecoderError Unit :=
  match d.state with
  | none => .ok ()
  | some s => match s.windowRefusedAt, s.frameHeader.windowSize with
    | none, _ => .ok ()
    | some limit, .ok requested => .error (.windowSizeTooBig requested limit)
    | some _, .error e => .error (.frameHeaderError e)

/-- A frame under way that the new ceiling refuses stops; a finished one is drained. -/
def setMaxWindowSize (d : FrameDecoder) (size : Nat) : FrameDecoder :=
  if size < minWindowSize ∨ maxDecoderWindowSize < size then d
  else { d with
    maxWindowSize := size
    state := d.state.map fun s =>
      match s.frameFinished, s.frameHeader.windowSize with
      | false, .ok window =>
        { s with windowRefusedAt := if size < window then some size else none }
      | _, _ => s }

def isFinished (d : FrameDecoder) : Bool := d.state.all (·.isFinished)

def bytesReadFromSource (d : FrameDecoder) : Nat := (d.state.map (·.bytesReadCounter)).getD 0

def canCollect (d : FrameDecoder) : Nat :=
  (d.state.map (·.decoderScratch.bufferUndelivered)).getD 0

/-- `Read::read`: everything once the last block is in, else all but what the window keeps. -/
def read (d : FrameDecoder) (targetLen : Nat) : List UInt8 × FrameDecoder :=
  match d.state with
  | none => ([], d)
  | some s =>
    let (taken, scratch) :=
      if s.frameFinished then s.decoderScratch.bufferReadAll targetLen
      else s.decoderScratch.bufferRead targetLen
    (taken, { d with state := some { s with decoderScratch := scratch } })

def collect (d : FrameDecoder) : Option (List UInt8) × FrameDecoder :=
  match d.state with
  | none => (none, d)
  | some s =>
    let (taken, scratch) : Option (List UInt8) × DecoderScratchKind :=
      if d.isFinished then
        let (taken, scratch) := s.decoderScratch.runBuffer (·.drain)
        (some taken, scratch)
      else s.decoderScratch.runBuffer (·.drainToWindowSize)
    (taken, { d with state := some { s with decoderScratch := scratch } })

def verifyContentSize (d : FrameDecoder) : Except FrameDecoderError Unit :=
  match d.state with
  | none => .ok ()
  | some s =>
    if ¬ s.frameFinished ∨ ¬ s.frameHeader.fcsDeclared then .ok ()
    else if s.decoderScratch.totalOutput ≠ s.frameHeader.frameContentSize then
      .error (.frameContentSizeMismatch s.frameHeader.frameContentSize
        s.decoderScratch.totalOutput)
    else .ok ()

/-- Compare the checksum that was read with the one of the bytes handed out; `xxh64` is the hash
of the external crate, of which the low 32 bits are kept. -/
def verifyContentChecksum (xxh64 : List UInt8 → Nat) (d : FrameDecoder) :
    Except FrameDecoderError Unit :=
  if d.contentChecksum ≠ .verify then .ok ()
  else match d.state with
    | none => .ok ()
    | some s =>
      if ¬ s.frameHeader.descriptor.contentChecksumFlag then .ok ()
      else match s.checkSum with
        | none => .ok ()
        | some expected =>
          let calculated := xxh64 s.decoderScratch.hashText % 2 ^ 32
          if expected ≠ calculated then .error (.checksumMismatch expected calculated)
          else .ok ()

/-- Get ready for a run of blocks: the checksum follows the mode of the moment, and the buffer is
given its room. -/
def beginBlocks (d : FrameDecoder) (s : FrameDecoderState) : FrameDecoderState :=
  (s.setComputeHash d.contentChecksum).reserveDecodingBuffer

def decodeBlocks (d : FrameDecoder) (source : Reader) (strat : BlockDecodingStrategy) :
    Except FrameDecoderError Bool × FrameDecoder × Reader :=
  match d.checkWindowStillAdmitted with
  | .error e => (.error e, d, source)
  | .ok _ => match d.state with
    | none => (.error .notYetInitialized, d, source)
    | some s =>
      let s := d.beginBlocks s
      match s.decodeBlocksLoop strat source with
      | (.error e, s, source) => (.error e, { d with state := some s }, source)
      | (.ok _, s, source) => (.ok s.frameFinished, { d with state := some s }, source)

/-- The states a call of `decode_blocks` reads a block in. -/
def blockStates (d : FrameDecoder) (source : Reader) (strat : BlockDecodingStrategy) :
    List (FrameDecoderState × Reader) :=
  match d.checkWindowStillAdmitted, d.state with
  | .ok _, some s =>
    let s := d.beginBlocks s
    visits (FrameDecoderState.decodeBlocksBody strat s.blockCounter s.decoderScratch.bufferLen)
      (source.bytes.length + 1) (s, source)
  | _, _ => []

end FrameDecoder

namespace FrameDecoderState

/-- A checksum that came too late for the last block. -/
def lateChecksum (s : FrameDecoderState) (source : List UInt8) :
    FrameDecoderState × List UInt8 :=
  if s.frameHeader.descriptor.contentChecksumFlag ∧ s.frameFinished ∧ s.checkSum = none ∧
      4 ≤ source.length then
    ({ s with
      bytesReadCounter := s.bytesReadCounter + 4
      checkSum := some (le (source.take 4)) }, source.drop 4)
  else (s, source)

/-- After the last block off a slice: the checksum only if it is there whole. -/
def finishFrameFromSlice (s : FrameDecoderState) (source : List UInt8) : FrameDecoderState :=
  let s := { s with frameFinished := true }
  if s.frameHeader.descriptor.contentChecksumFlag ∧ 4 ≤ source.length then
    { s with
      bytesReadCounter := s.bytesReadCounter + 4
      checkSum := some (le (source.take 4)) }
  else s

/-- Before the content of a block off a slice: its header is counted, and the first block finds
the buffer with its room. -/
def enterBlock (s : FrameDecoderState) (reserveWindow : Bool) : FrameDecoderState :=
  let s := { s with bytesReadCounter := s.bytesReadCounter + 3 }
  if s.blockCounter = 0 ∧ (reserveWindow ∨ s.frameHeader.fcsDeclared) then
    s.reserveDecodingBuffer
  else s

/-- One block off a slice that holds all of it, its header read already. -/
def readAvailableBlock (s : FrameDecoderState) (reserveWindow : Bool) (header : BlockHeader)
    (source : List UInt8) : Except FrameDecoderError Unit × FrameDecoderState × List UInt8 :=
  let blockIndex := s.blockCounter
  let frameOffset := s.bytesReadCounter
  let s := s.enterBlock reserveWindow
  match s.decoderScratch.decodeBlockContentFromSlice header s.dictRef source with
  | (.error e, scratch, source) =>
    (.error (blockBodyDecodeError e blockIndex frameOffset header 3),
      { s with decoderScratch := scratch }, source)
  | (.ok bodyRead, scratch, source) =>
    (.ok (), { s with
      decoderScratch := scratch
      bytesReadCounter := s.bytesReadCounter + bodyRead
      blockCounter := s.blockCounter + 1 }, source)

/-- What the rounds of `decode_available` pass on: the frame, the source and the output. -/
structure AvailableState where
  state : FrameDecoderState
  source : List UInt8
  written : List UInt8

/-- Drain what there is room for. Says also how much still waits. -/
def drainInto (s : FrameDecoderState) (room : Nat) : List UInt8 × Nat × FrameDecoderState :=
  let ((taken, pending), scratch) := s.decoderScratch.runBuffer fun b =>
    let (taken, pending, b) := b.readReportingPending room
    ((taken, pending), b)
  (taken, pending, { s with decoderScratch := scratch })

/-- A round of `decode_available`: drain, then decode the next block if all of it is there. A
header whose block is not is read again by the next call. -/
def availableBody (reserveWindow : Bool) (targetLen : Nat) (x : AvailableState) :
    Next AvailableState (Except FrameDecoderError (List UInt8) × FrameDecoderState) :=
  if x.state.frameFinished then .done (.ok x.written, x.state)
  else
    let (taken, pending, s) := x.state.drainInto (targetLen - x.written.length)
    let written := x.written ++ taken
    if 0 < pending ∨ (targetLen ≠ 0 ∧ written.length = targetLen) then .done (.ok written, s)
    else match x.source with
      | b0 :: b1 :: b2 :: rest =>
        match BlockHeader.parse b0 b1 b2 with
        | .error e =>
          .done (.error (.failedToReadBlockHeaderAt e s.blockCounter s.bytesReadCounter), s)
        | .ok header =>
          if rest.length < header.contentSize then .done (.ok written, s)
          else match s.readAvailableBlock reserveWindow header rest with
            | (.error e, s, _) => .done (.error e, s)
            | (.ok _, s, rest) =>
              if header.lastBlock then .done (.ok written, s.finishFrameFromSlice rest)
              else .again ⟨s, rest, written⟩
      | _ => .done (.ok written, s)

def availableLoop (s : FrameDecoderState) (reserveWindow : Bool) (targetLen : Nat)
    (source : List UInt8) : Except FrameDecoderError (List UInt8) × FrameDecoderState :=
  (loop (availableBody reserveWindow targetLen) (source.length + 1) ⟨s, source, []⟩).getD
    (.ok [], s)

end FrameDecoderState

namespace FrameDecoder

/-- The blocks of a call of `decode_available`, and a checksum that was still due. -/
def availableBlocks (d : FrameDecoder) (s : FrameDecoderState) (source : List UInt8)
    (targetLen : Nat) (reserveWindow : Bool) :
    Except FrameDecoderError (List UInt8) × FrameDecoderState :=
  if s.isFinished then (.ok [], s)
  else
    let (s, source) := (s.setComputeHash d.contentChecksum).lateChecksum source
    s.availableLoop reserveWindow targetLen source

/-- The frame in `s` on `source`, counted from `start`. -/
def decodeAvailableFrom (d : FrameDecoder) (s : FrameDecoderState) (start : Nat)
    (source : List UInt8) (targetLen : Nat) (reserveWindow : Bool) :
    Except FrameDecoderError (Nat × List UInt8) × FrameDecoder :=
  match d.availableBlocks s source targetLen reserveWindow with
  | (.error e, s) => (.error e, { d with state := some s })
  | (.ok written, s) =>
    let (rest, d) := { d with state := some s }.read (targetLen - written.length)
    (.ok (s.bytesReadCounter - start, written ++ rest), d)

/-- `decode_available`: hands out the bytes and says how many of the source were read. Without a
frame under way the source starts with one. -/
def decodeAvailable (d : FrameDecoder) (source : List UInt8) (targetLen : Nat)
    (reserveWindow : Bool) : Except FrameDecoderError (Nat × List UInt8) × FrameDecoder :=
  match d.checkWindowStillAdmitted with
  | .error e => (.error e, d)
  | .ok _ => match d.state with
    | some s => d.decodeAvailableFrom s s.bytesReadCounter source targetLen reserveWindow
    | none => match d.reset ⟨source, source.length⟩ with
      | (.error e, d, _) => (.error e, d)
      | (.ok _, d, source) => match d.state with
        | some s => d.decodeAvailableFrom s 0 source.bytes targetLen reserveWindow
        | none => (.error .notYetInitialized, d)

/-- The states a call of `decode_available` looks for a block in, on a frame under way. -/
def availableStates (d : FrameDecoder) (source : List UInt8) (targetLen : Nat)
    (reserveWindow : Bool) : List FrameDecoderState.AvailableState :=
  match d.checkWindowStillAdmitted, d.state with
  | .ok _, some s =>
    if s.isFinished then []
    else
      let (s, source) := (s.setComputeHash d.contentChecksum).lateChecksum source
      visits (FrameDecoderState.availableBody reserveWindow targetLen) (source.length + 1)
        ⟨s, source, []⟩
  | _, _ => []

/-- `decode_from_to`: once the frame is finished and drained, its size and checksum must be what
it says. -/
def decodeFromTo (xxh64 : List UInt8 → Nat) (d : FrameDecoder) (source : List UInt8)
    (targetLen : Nat) : Except FrameDecoderError (Nat × List UInt8) × FrameDecoder :=
  match d.decodeAvailable source targetLen false with
  | (.error e, d) => (.error e, d)
  | (.ok progress, d) =>
    if d.isFinished ∧ d.canCollect = 0 then
      match d.verifyContentSize with
      | .error e => (.error e, d)
      | .ok _ => match d.verifyContentChecksum xxh64 with
        | .error e => (.error e, d)
        | .ok _ => (.ok progress, d)
    else (.ok progress, d)

end FrameDecoder

end Decoding
