import StructuredZstd.Decoding.FrameDecoder

namespace Decoding

open Runs

/-- What a resumed frame must have in common with the one that was interrupted. -/
structure FrameKey where
  windowSize : Nat
  frameContentSize : Nat
  dictionaryId : Option Nat
  activeDictionaryId : Option Nat
  singleSegment : Bool
  contentChecksum : Bool
  magicless : Bool
deriving Repr, DecidableEq

def FrameKey.fromState (s : FrameDecoderState) (magicless : Bool) : FrameKey where
  windowSize := s.frameHeader.windowSizeD
  frameContentSize := s.frameHeader.frameContentSize
  dictionaryId := s.frameHeader.dictId
  activeDictionaryId := s.usingDict
  singleSegment := s.frameHeader.descriptor.singleSegmentFlag
  contentChecksum := s.frameHeader.descriptor.contentChecksumFlag
  magicless := magicless

/-- The state between two blocks of a frame, less the window itself. -/
structure ResumeState where
  frameKey : FrameKey
  blockIndex : Nat
  outputOffset : Nat
  fse : FSEScratch
  huf : HuffmanScratch
  offsetHist : OffsetHist
  windowHash : Nat
deriving Repr, DecidableEq

structure ResumeInput where
  windowPrime : List UInt8
  state : ResumeState

structure PartialDecode where
  data : List UInt8
  startBlock : Nat
  blocksDecoded : Nat
  stoppedAt : Option (Nat × FrameDecoderError)
  frameFinished : Bool
  resumeState : Option ResumeState

namespace DecoderScratchKind

/-- Copies of the tables, the dictionary's resolved into local ones. -/
def exportEntropy (k : DecoderScratchKind) (dict : Option Dictionary) :
    FSEScratch × HuffmanScratch × OffsetHist :=
  (FSEScratch.new.reinitFrom k.fse dict, HuffmanScratch.new.reinitResolvedFrom k.huf dict,
    k.offsetHist)

def restoreEntropy (k : DecoderScratchKind) (state : ResumeState) : DecoderScratchKind :=
  match k with
  | .ring s => .ring { s with
      fse := s.fse.reinitFrom state.fse none
      huf := s.huf.reinitResolvedFrom state.huf none
      offsetHist := state.offsetHist }
  | .flat s => .flat { s with
      fse := s.fse.reinitFrom state.fse none
      huf := s.huf.reinitResolvedFrom state.huf none
      offsetHist := state.offsetHist }

/-- The last `windowSize` bytes, as many as there are. -/
def windowTail (k : DecoderScratchKind) (windowSize : Nat) : List UInt8 :=
  k.onBuffer (·.lastN (min windowSize k.bufferLen))

end DecoderScratchKind

/-- What `decode_blocks_partial` keeps of the range it was asked for. -/
structure PartialProgress where
  prefixWindowLen : Option Nat := none
  subsetBytes : Nat := 0
  blocksDecoded : Nat := 0
  stoppedAt : Option (Nat × FrameDecoderError) := none

/-- The first block of the range notes how much window lies before it. -/
def PartialProgress.enter (p : PartialProgress) (inRange : Bool) (bufferLen : Nat) :
    PartialProgress :=
  if inRange ∧ p.prefixWindowLen = none then { p with prefixWindowLen := some bufferLen } else p

/-- Count a block of the range. -/
def PartialProgress.count (p : PartialProgress) (inRange : Bool) (produced : Nat) :
    PartialProgress :=
  if inRange then
    { p with
      subsetBytes := p.subsetBytes + produced
      blocksDecoded := p.blocksDecoded + 1 }
  else p

/-- What its rounds pass on. -/
structure PartialState where
  state : FrameDecoderState
  source : Reader
  progress : PartialProgress := {}

namespace FrameDecoderState

/-- A round of `decode_blocks_partial`: blocks before `start` are decoded for their window only,
and a block that fails ends the range without failing the call. -/
def partialBody (start endBlock : Nat) (x : PartialState) : Next PartialState PartialState :=
  let blockIndex := x.state.blockCounter
  if endBlock ≤ blockIndex ∨ x.state.frameFinished then .done x
  else
    let inRange : Bool := start ≤ blockIndex
    let lenBefore := x.state.decoderScratch.bufferLen
    let p := x.progress.enter inRange lenBefore
    match x.state.readBlock x.source with
    | (.error e, s, source) => .done ⟨s, source, { p with stoppedAt := some (blockIndex, e) }⟩
    | (.ok header, s, source) =>
      let p := p.count inRange (s.decoderScratch.bufferLen - lenBefore)
      if header.lastBlock then
        match s.finishFrame source with
        | (.error e, s, source) => .done ⟨s, source, { p with stoppedAt := some (blockIndex, e) }⟩
        | (.ok _, s, source) => .done ⟨s, source, p⟩
      else
        let s :=
          if inRange then s
          else { s with decoderScratch := s.decoderScratch.mapBuffer (·.dropToWindowSize.2) }
        .again ⟨s, source, p⟩

def partialLoop (s : FrameDecoderState) (start endBlock : Nat) (source : Reader) : PartialState :=
  (loop (partialBody start endBlock) (source.bytes.length + 1) ⟨s, source, {}⟩).getD
    ⟨s, source, {}⟩

/-- Put an interrupted frame back in its place. -/
def resumeFrom (s : FrameDecoderState) (state : ResumeState) (prime : List UInt8) :
    FrameDecoderState :=
  { s with
    decoderScratch := (s.decoderScratch.restoreEntropy state).mapBuffer
      (·.primeWindow prime state.outputOffset)
    blockCounter := state.blockIndex
    bytesReadCounter := 0 }

/-- Check a resume against the frame at hand; gives the first block and the state there. -/
def checkResume (xxh64 : List UInt8 → Nat) (s : FrameDecoderState) (magicless : Bool)
    (endBlock : Nat) (r : ResumeInput) : Except FrameDecoderError FrameDecoderState :=
  let windowSize := s.frameHeader.windowSizeD
  if FrameKey.fromState s magicless ≠ r.state.frameKey then .error .resumeFrameMismatch
  else
    let required := min windowSize r.state.outputOffset
    if r.windowPrime.length < required then
      .error (.resumeWindowTooShort r.windowPrime.length required)
    else
      let prime := r.windowPrime.drop (r.windowPrime.length - windowSize)
      if xxh64 prime ≠ r.state.windowHash then .error .resumeFrameMismatch
      else if endBlock < r.state.blockIndex then
        .error (.invalidBlockRange r.state.blockIndex endBlock)
      else .ok (s.resumeFrom r.state prime)

/-- What `decode_blocks_partial` hands out after its loop: the state is exported before the
subset is drained. -/
def finishPartial (xxh64 : List UInt8 → Nat) (s : FrameDecoderState) (magicless emitResume : Bool)
    (start : Nat) (p : PartialProgress) : PartialDecode × FrameDecoderState :=
  let resumeState :=
    if emitResume ∧ ¬ s.frameFinished then
      let (fse, huf, hist) := s.decoderScratch.exportEntropy s.dictRef
      some {
        frameKey := FrameKey.fromState s magicless
        blockIndex := s.blockCounter
        outputOffset := s.decoderScratch.totalOutput
        fse := fse
        huf := huf
        offsetHist := hist
        windowHash := xxh64 (s.decoderScratch.windowTail s.frameHeader.windowSizeD) }
    else none
  let scratch := s.decoderScratch.mapBuffer (·.discardFront (p.prefixWindowLen.getD 0))
  let (taken, scratch) := scratch.bufferReadAll p.subsetBytes
  let scratch := scratch.mapBuffer (fun b => b.discardFront b.len)
  ({ data := taken ++ List.replicate (p.subsetBytes - taken.length) 0
     startBlock := start
     blocksDecoded := p.blocksDecoded
     stoppedAt := p.stoppedAt
     frameFinished := s.frameFinished
     resumeState := resumeState }, { s with decoderScratch := scratch })

end FrameDecoderState

namespace FrameDecoder

/-- Where `decode_blocks_partial` starts: at the block asked for, or where a resume puts it. -/
def partialStart (xxh64 : List UInt8 → Nat) (d : FrameDecoder) (s : FrameDecoderState)
    (startBlock endBlock : Nat) (resume : Option ResumeInput) :
    Except FrameDecoderError (Nat × FrameDecoderState) :=
  match resume with
  | some r => do
    let s ← s.checkResume xxh64 d.magicless endBlock r
    return (r.state.blockIndex, s)
  | none =>
    if endBlock < startBlock then .error (.invalidBlockRange startBlock endBlock)
    else .ok (startBlock, s)

def decodeBlocksPartial (xxh64 : List UInt8 → Nat) (d : FrameDecoder) (source : Reader)
    (startBlock endBlock : Nat) (resume : Option ResumeInput) (emitResume : Bool) :
    Except FrameDecoderError PartialDecode × FrameDecoder × Reader :=
  match d.checkWindowStillAdmitted with
  | .error e => (.error e, d, source)
  | .ok _ => match d.state with
    | none => (.error .notYetInitialized, d, source)
    | some s =>
      let s := s.setComputeHash d.contentChecksum
      if (resume.isSome ∨ emitResume) ∧ s.usingDict = some 0 then
        (.error .resumeUnidentifiedDictionary, { d with state := some s }, source)
      else
        let s := s.reserveDecodingBuffer
        match d.partialStart xxh64 s startBlock endBlock resume with
        | .error e => (.error e, { d with state := some s }, source)
        | .ok (start, s) =>
          let x := s.partialLoop start endBlock source
          let (result, s) := x.state.finishPartial xxh64 d.magicless emitResume start x.progress
          (.ok result, { d with state := some s }, x.source)

/-- The states a call of `decode_blocks_partial` looks for a block in. -/
def partialStates (xxh64 : List UInt8 → Nat) (d : FrameDecoder) (source : Reader)
    (startBlock endBlock : Nat) (resume : Option ResumeInput) (emitResume : Bool) :
    List PartialState :=
  match d.checkWindowStillAdmitted, d.state with
  | .ok _, some s =>
    let s := s.setComputeHash d.contentChecksum
    if (resume.isSome ∨ emitResume) ∧ s.usingDict = some 0 then []
    else match d.partialStart xxh64 s.reserveDecodingBuffer startBlock endBlock resume with
      | .error _ => []
      | .ok (start, s) =>
        visits (FrameDecoderState.partialBody start endBlock) (source.bytes.length + 1)
          ⟨s, source, {}⟩
  | _, _ => []

end FrameDecoder

end Decoding
