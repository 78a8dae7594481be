import StructuredZstd.Decoding.FrameDecoder

namespace Decoding

open Bits Runs

def ExecuteSequencesError.outputOverflowRequested : ExecuteSequencesError → Option Nat
  | .outputBufferOverflow o => some o.requested
  | .decodebufferError (.outputBufferOverflow o) => some o.requested
  | _ => none

/-- The tables go back into the frame's workspace, whatever the direct decode came to. -/
def DecoderScratchKind.takeBack (k : DecoderScratchKind) (w : Workspace UserSliceBackend) :
    DecoderScratchKind :=
  match k with
  | .ring s => .ring { s with huf := w.huf, fse := w.fse, offsetHist := w.offsetHist }
  | .flat s => .flat { s with huf := w.huf, fse := w.fse, offsetHist := w.offsetHist }

/-- What the direct decode writes through: the frame's tables, the caller's slice. -/
def FrameDecoderState.directScratch (s : FrameDecoderState) (outputLen : Nat) :
    Workspace UserSliceBackend where
  huf := s.decoderScratch.huf
  fse := s.decoderScratch.fse
  buffer := (DecodeBuffer.fromBackend (.fromSlice outputLen)
    (s.decoderScratch.onBuffer (·.windowSize))).setBlockLimit s.blockLimit
  offsetHist := s.decoderScratch.offsetHist

/-- More content than the frame declares, or than the target holds. -/
def overflow (declared : Option Nat) (produced : Nat) : FrameDecoderError :=
  match declared with
  | some declared => .frameContentSizeMismatch declared produced
  | none => .targetTooSmall

/-- How the direct decode reports a block that failed. -/
def directBodyError (declared : Option Nat) (limit produced tail blockIndex frameOffset : Nat)
    (header : BlockHeader) (e : DecodeBlockContentError) : FrameDecoderError :=
  match e with
  | .backendOverflow _ => overflow declared (produced + header.decompressedSize)
  | .decompressBlockError (.executeSequencesError ese) =>
    match ese.outputOverflowRequested with
    | some requested =>
      if limit < tail + requested then overflow declared (tail + requested)
      else blockBodyDecodeError e blockIndex frameOffset header 3
    | none => blockBodyDecodeError e blockIndex frameOffset header 3
  | .decompressBlockError (.literalsOutputOverflow o) => overflow declared (o.tail + o.requested)
  | _ => blockBodyDecodeError e blockIndex frameOffset header 3

namespace FrameDecoderState

/-- A frame of a single raw block, copied from the input to the output. -/
def directRawBlock (s : FrameDecoderState) (mode : ContentChecksum) (input : List UInt8)
    (outputLen : Nat) (declared : Option Nat) :
    Option (Except FrameDecoderError (List UInt8) × FrameDecoderState × List UInt8) :=
  match readBlockHeader ⟨input, input.length⟩ with
  | (.error _, _) => none
  | (.ok header, probe) =>
    let n := header.decompressedSize
    if header.lastBlock ∧ header.blockType = .raw ∧ declared.all (· = n) ∧ n ≤ s.blockMaximum ∧
        n ≤ probe.bytes.length ∧ n ≤ outputLen then
      let out := probe.bytes.take n
      let input := probe.bytes.drop n
      let s := { s with
        bytesReadCounter := s.bytesReadCounter + (3 + n)
        blockCounter := s.blockCounter + 1 }
      let finish (s : FrameDecoderState) : FrameDecoderState :=
        { s with
          decoderScratch := s.decoderScratch.setTotalOutput n
          frameFinished := true }
      if s.frameHeader.descriptor.contentChecksumFlag then
        match Reader.readExact ⟨input, input.length⟩ 4 with
        | (none, source) => some (.error .failedToReadChecksum, s, source.bytes)
        | (some chksum, source) =>
          let s := { s with
            bytesReadCounter := s.bytesReadCounter + 4
            checkSum := some (le chksum)
            decoderScratch :=
              if mode ≠ .none then s.decoderScratch.mapBuffer (·.setHash out)
              else s.decoderScratch }
          some (.ok out, finish s, source.bytes)
      else some (.ok out, finish s, input)
    else none

/-- What the rounds of the direct decode pass on. -/
structure DirectState where
  state : FrameDecoderState
  scratch : Workspace UserSliceBackend
  input : List UInt8

/-- After the last block of a direct decode. -/
def finishDirect (x : DirectState) : Except FrameDecoderError Unit × DirectState :=
  if x.state.frameHeader.descriptor.contentChecksumFlag then
    match Reader.readExact ⟨x.input, x.input.length⟩ 4 with
    | (none, source) => (.error .failedToReadChecksum, { x with input := source.bytes })
    | (some chksum, source) =>
      (.ok (), { x with
        state := { x.state with
          bytesReadCounter := x.state.bytesReadCounter + 4
          checkSum := some (le chksum) }
        input := source.bytes })
  else (.ok (), x)

/-- A round of the direct decode. What slides out of the window is let go of after every
block. -/
def directBody (declared : Option Nat) (limit : Nat) (x : DirectState) :
    Next DirectState (Except FrameDecoderError Unit × DirectState) :=
  let produced := x.scratch.buffer.buffer.written.length
  let blockIndex := x.state.blockCounter
  let frameOffset := x.state.bytesReadCounter
  match readBlockHeader ⟨x.input, x.input.length⟩ with
  | (.error e, source) =>
    .done (.error (.failedToReadBlockHeaderAt e blockIndex frameOffset),
      { x with input := source.bytes })
  | (.ok header, source) =>
    let s := { x.state with bytesReadCounter := x.state.bytesReadCounter + 3 }
    let blockUpper := header.decompressedSize
    if 0 < blockUpper ∧ limit < produced + blockUpper then
      .done (.error (overflow declared (produced + blockUpper)), ⟨s, x.scratch, source.bytes⟩)
    else match decodeBlockContentFromSlice header x.scratch s.dictRef source.bytes with
      | (.error e, w, input) =>
        .done (.error (directBodyError declared limit produced w.buffer.buffer.written.length
          blockIndex frameOffset header e), ⟨s, w, input⟩)
      | (.ok bodyConsumed, w, input) =>
        let produced := w.buffer.buffer.written.length
        if limit < produced then .done (.error (overflow declared produced), ⟨s, w, input⟩)
        else
          let s := { s with
            bytesReadCounter := s.bytesReadCounter + bodyConsumed
            blockCounter := s.blockCounter + 1 }
          let x : DirectState := ⟨s, { w with buffer := w.buffer.dropToWindowSize.2 }, input⟩
          if header.lastBlock then .done (finishDirect x) else .again x

/-- `run_direct_decode`. The last-block flag is set when everything has passed. -/
def runDirectDecode (s : FrameDecoderState) (mode : ContentChecksum) (input : List UInt8)
    (outputLen : Nat) (declared : Option Nat) :
    Except FrameDecoderError (List UInt8) × FrameDecoderState × List UInt8 :=
  match s.directRawBlock mode input outputLen declared with
  | some result => result
  | none =>
    let limit := declared.getD outputLen
    let start : DirectState := ⟨s, s.directScratch outputLen, input⟩
    let (result, x) := (loop (directBody declared limit) (input.length + 1) start).getD
      (.ok (), start)
    let s := { x.state with decoderScratch := x.state.decoderScratch.takeBack x.scratch }
    let out := x.scratch.buffer.buffer.written
    match result with
    | .error e => (.error e, s, x.input)
    | .ok _ =>
      if declared.any (· ≠ out.length) then (.error (overflow declared out.length), s, x.input)
      else
        let scratch := s.decoderScratch.setTotalOutput out.length
        let scratch :=
          if s.frameHeader.descriptor.contentChecksumFlag ∧ mode ≠ .none then
            scratch.mapBuffer (·.setHash out)
          else scratch
        (.ok out, { s with decoderScratch := scratch, frameFinished := true }, x.input)

end FrameDecoderState

namespace FrameDecoder

/-- What the frames and rounds of `decode_all` pass on. -/
structure AllState where
  decoder : FrameDecoder
  input : List UInt8
  written : List UInt8

/-- A round of the buffered decode, which a frame that declares no content goes through. -/
def bufferedBody (outputLen : Nat) (x : AllState) :
    Next AllState (Except FrameDecoderError Unit × AllState) :=
  match x.decoder.decodeBlocks ⟨x.input, x.input.length⟩ (.uptoBytes (1024 * 1024)) with
  | (.error e, d, source) => .done (.error e, ⟨d, source.bytes, x.written⟩)
  | (.ok _, d, source) =>
    let (taken, d) := d.read (outputLen - x.written.length)
    let x : AllState := ⟨d, source.bytes, x.written ++ taken⟩
    if d.canCollect ≠ 0 then .done (.error .targetTooSmall, x)
    else if d.isFinished then .done (.ok (), x)
    else .again x

/-- One frame of `decode_all`, its header read already. -/
def decodeFrame (xxh64 : List UInt8 → Nat) (d : FrameDecoder) (input : List UInt8)
    (outputLen : Nat) : Except FrameDecoderError (List UInt8) × FrameDecoder × List UInt8 :=
  match d.state with
  | none => (.error .notYetInitialized, d, input)
  | some s =>
    let declared := s.frameHeader.declared
    let verified (out : List UInt8) (d : FrameDecoder) (input : List UInt8) :
        Except FrameDecoderError (List UInt8) × FrameDecoder × List UInt8 :=
      match d.verifyContentChecksum xxh64 with
      | .error e => (.error e, d, input)
      | .ok _ => (.ok out, d, input)
    if declared.any (outputLen < ·) then (.error .targetTooSmall, d, input)
    else if declared ≠ some 0 then
      match s.runDirectDecode d.contentChecksum input outputLen declared with
      | (.error e, s, input) => (.error e, { d with state := some s }, input)
      | (.ok out, s, input) => verified out { d with state := some s } input
    else
      let start : AllState := ⟨{ d with state := some s.reserveDecodingBuffer }, input, []⟩
      match (loop (bufferedBody outputLen) (input.length + 1) start).getD (.ok (), start) with
      | (.error e, x) => (.error e, x.decoder, x.input)
      | (.ok _, x) =>
        if x.written.length ≠ s.frameHeader.frameContentSize then
          (.error (.frameContentSizeMismatch s.frameHeader.frameContentSize x.written.length),
            x.decoder, x.input)
        else verified x.written x.decoder x.input

/-- A frame of `decode_all`; a skippable one is passed over. -/
def decodeAllBody (xxh64 : List UInt8 → Nat) (outputLen : Nat) (x : AllState) :
    Next AllState (Except FrameDecoderError (List UInt8) × FrameDecoder) :=
  if x.input = [] then .done (.ok x.written, x.decoder)
  else match x.decoder.resetFromSlice x.input with
    | (.error (.readFrameHeaderError (.skipFrame _ length)), d, input) =>
      if input.length < length then .done (.error .failedToSkipFrame, d)
      else .again ⟨d, input.drop length, x.written⟩
    | (.error e, d, _) => .done (.error e, d)
    | (.ok _, d, input) => match d.decodeFrame xxh64 input (outputLen - x.written.length) with
      | (.error e, d, _) => .done (.error e, d)
      | (.ok out, d, input) => .again ⟨d, input, x.written ++ out⟩

def decodeAll (xxh64 : List UInt8 → Nat) (d : FrameDecoder) (input : List UInt8)
    (outputLen : Nat) : Except FrameDecoderError (List UInt8) × FrameDecoder :=
  (loop (decodeAllBody xxh64 outputLen) (input.length + 1) ⟨d, input, []⟩).getD (.ok [], d)

end FrameDecoder

end Decoding
