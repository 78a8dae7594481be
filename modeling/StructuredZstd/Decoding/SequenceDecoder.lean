import StructuredZstd.Decoding.SequenceSection

namespace Decoding

open Bits BitIo Fse.Decoder

/-- The depth of the look-ahead ring. -/
def advance : Nat := 8

def advanceMask : Nat := advance - 1

/-- The gate of the long pipeline, on a 64-bit target. -/
def computeUseLongPipeline (numSequences : Nat) (ddictIsCold : Bool)
    (totalHistory offsetsLongShare : Nat) : Bool :=
  advance * 2 ≤ numSequences ∧
    (ddictIsCold ∨ (1 <<< 24 < totalHistory ∧ 7 ≤ offsetsLongShare))

/-- `u32::wrapping_sub`. -/
def wrappingSub (a b : Nat) : Nat := (a + 2 ^ 32 - b) % 2 ^ 32

/-- Update the history for an offset value and return the offset it stands for. -/
def doOffsetHistory (offsetValue litLen : Nat) (hist : OffsetHist) : Nat × OffsetHist :=
  if 4 ≤ offsetValue then
    let actual := offsetValue - 3
    (actual, ⟨actual, hist.first, hist.second⟩)
  else if offsetValue = 0 then (0, hist)
  else
    let index := offsetValue - 1 + (if litLen = 0 then 1 else 0)
    if index = 0 then (hist.first, hist)
    else
      let actual :=
        if index = 3 then wrappingSub hist.first 1
        else if index = 1 then hist.second
        else hist.third
      let third := if index ≠ 1 then hist.second else hist.third
      (actual, ⟨actual, hist.first, third⟩)

/-- The tables of the three axes. -/
structure SeqTables where
  ll : SeqFSETable
  ml : SeqFSETable
  off : SeqFSETable
deriving Repr, DecidableEq

/-- The entries the three decoders stand on. -/
structure SeqStates where
  ll : SeqSymbol
  ml : SeqSymbol
  off : SeqSymbol
deriving Repr, DecidableEq

/-- A sequence whose offset has been resolved. -/
structure ExecSeq where
  ll : Nat := 0
  ml : Nat := 0
  actualOffset : Nat := 0
deriving Repr, DecidableEq, Inhabited

/-- The three updates, in the order of the source. -/
def updateStatesFast (t : SeqTables) (s : SeqStates) (br : BitReaderReversed) :
    SeqStates × BitReaderReversed :=
  let (ll, br) := updateStateFast t.ll s.ll br
  let (ml, br) := updateStateFast t.ml s.ml br
  let (off, br) := updateStateFast t.off s.off br
  (⟨ll, ml, off⟩, br)

/-- `decode_one_body!`: the values of a sequence, its offset still coded. -/
def decodeOneBody (s : SeqStates) (br : BitReaderReversed) : Sequence × BitReaderReversed :=
  let ((obits, mlAdd, llAdd), br) :=
    br.getBitsTriple s.off.numAdditionalBits s.ml.numAdditionalBits s.ll.numAdditionalBits
  (⟨s.ll.baseValue + llAdd, s.ml.baseValue + mlAdd, obits + s.off.baseValue⟩, br)

/-- A read of at least one bit that the caller has budgeted for. -/
def readAdditionalBits (br : BitReaderReversed) (n : Nat) : Nat × BitReaderReversed :=
  ((br.bitContainer <<< (br.bitsConsumed % 64) % 2 ^ 64) >>> (64 - n), br.consume n)

/-- The offset of `decode_resolved`, and the history after it. -/
def resolveOffset (off : SeqSymbol) (llBase : Nat) (br : BitReaderReversed) (hist : OffsetHist) :
    Nat × OffsetHist × BitReaderReversed :=
  if 1 < off.numAdditionalBits then
    let (bits, br) := readAdditionalBits br off.numAdditionalBits
    let offset := off.baseValue + bits - 3
    (offset, ⟨offset, hist.first, hist.second⟩, br)
  else if off.numAdditionalBits = 0 then
    let offset := if llBase = 0 then hist.second else hist.first
    (offset, ⟨offset, if llBase = 0 then hist.first else hist.second, hist.third⟩, br)
  else
    let (bit, br) := readAdditionalBits br 1
    let index := 1 + (if llBase = 0 then 1 else 0) + bit
    let offset :=
      if index = 3 then wrappingSub hist.first 1
      else if index = 1 then hist.second
      else hist.third
    (offset, ⟨offset, hist.first, if index ≠ 1 then hist.second else hist.third⟩, br)

/-- The optional read of `decode_resolved`. -/
def readExtra (br : BitReaderReversed) (n : Nat) : Nat × BitReaderReversed :=
  if n = 0 then (0, br) else readAdditionalBits br n

/-- A sequence of the short path, its repcode resolved while its bits are read. -/
def decodeResolved (s : SeqStates) (br : BitReaderReversed) (hist : OffsetHist) :
    ExecSeq × OffsetHist × BitReaderReversed :=
  let (offset, hist, br) := resolveOffset s.off s.ll.baseValue br hist
  let (mlAdd, br) := readExtra br s.ml.numAdditionalBits
  let llBudget := s.ll.numAdditionalBits + 9 + 9 + 8
  let br := if 64 < br.bitsConsumed + llBudget then br.refillSequence else br
  let (llAdd, br) := readExtra br s.ll.numAdditionalBits
  (⟨s.ll.baseValue + llAdd, s.ml.baseValue + mlAdd, offset⟩, hist, br)

/-- What executing sequences changes: the output and the place in the literals. -/
structure ExecState (B : Type) where
  buffer : DecodeBuffer B
  litCur : Nat

/-- What executing sequences reads: the dictionary and the literals, `litLen` of them. -/
structure ExecInput where
  dictContent : List UInt8
  literals : List UInt8
  litLen : Nat

section Execute

variable {B : Type} [BufferBackend B]

/-- The copy chain every other path falls back to: the literals, then the match. -/
def pushThenRepeat (inp : ExecInput) (lits : List UInt8) (offset ml : Nat) (s : ExecState B) :
    Except DecompressBlockError Unit × ExecState B :=
  match s.buffer.tryPush lits with
  | (.error o, buffer) =>
    (.error (.executeSequencesError (.outputBufferOverflow o)), { s with buffer := buffer })
  | (.ok _, buffer) =>
    match buffer.repeatInner inp.dictContent offset ml with
    | (.error e, buffer) =>
      (.error (.executeSequencesError (.decodebufferError e)), { s with buffer := buffer })
    | (.ok _, buffer) => (.ok (), { s with buffer := buffer })

/-- Take over what an inline executor wrote; it moves the tail past the output counter. -/
def commitInline (seq : ExecSeq) (s : ExecState B) (r : Except ExecuteSequencesError B) :
    Except DecompressBlockError Unit × ExecState B :=
  match r with
  | .error e => (.error (.executeSequencesError e), s)
  | .ok b =>
    let buffer := { s.buffer with buffer := b }
    let buffer :=
      if BufferBackend.inlineExecMaintainsOutputCounter B then
        buffer.advanceOutputCounter (seq.ll + seq.ml)
      else buffer
    (.ok (), { s with buffer := buffer })

/-- Execute one resolved sequence. -/
def executeOneSequencePipelined (inp : ExecInput) (seq : ExecSeq) (s : ExecState B) :
    Except DecompressBlockError Unit × ExecState B :=
  let high := s.litCur + seq.ll
  if inp.litLen < high then
    (.error (.executeSequencesError (.notEnoughBytesForSequence high inp.litLen)), s)
  else
    let lits := (inp.literals.drop s.litCur).take seq.ll
    let s := { s with litCur := high }
    let offset := seq.actualOffset
    if offset = 0 then (.error (.executeSequencesError .zeroOffset), s)
    else
      let inlineLiteralsOk := BufferBackend.supportsInlineSequenceExec B
      if s.buffer.len + lits.length < offset then
        match s.buffer.dictMatchSource inp.dictContent lits.length offset seq.ml with
        | some dictSrc =>
          if inlineLiteralsOk ∧ BufferBackend.inlineExecDictOk s.buffer.buffer seq.ll seq.ml then
            commitInline seq s
              (BufferBackend.execSequenceInlineDict s.buffer.buffer lits dictSrc seq.ml)
          else pushThenRepeat inp lits offset seq.ml s
        | none => pushThenRepeat inp lits offset seq.ml s
      else if inlineLiteralsOk ∧
          BufferBackend.inlineExecOk s.buffer.buffer seq.ll seq.ml offset then
        commitInline seq s (BufferBackend.execSequenceInline s.buffer.buffer lits offset seq.ml)
      else pushThenRepeat inp lits offset seq.ml s

/-- How a decode loop ends: an error, or the history and the reader it leaves. -/
structure LoopEnd (B : Type) where
  result : Except DecompressBlockError (OffsetHist × BitReaderReversed)
  exec : ExecState B

/-- The loop of the short path, over the sequences still to come. -/
def shortLoop (inp : ExecInput) (t : SeqTables) :
    Nat → SeqStates → BitReaderReversed → OffsetHist → ExecState B → LoopEnd B
  | 0, _, br, hist, exec => ⟨.ok (hist, br), exec⟩
  | k + 1, s, br, hist, exec =>
    let (seq, hist, br) := decodeResolved s br hist
    let (s, br) :=
      if 0 < k then
        let (s, br) := updateStatesFast t s br
        (s, br.refillSequence)
      else (s, br)
    match executeOneSequencePipelined inp seq exec with
    | (.error e, exec) => ⟨.error e, exec⟩
    | (.ok _, exec) => shortLoop inp t k s br hist exec

/-- One look ahead of the long path. -/
def decodeAhead (s : SeqStates) (br : BitReaderReversed) (hist : OffsetHist) :
    ExecSeq × OffsetHist × BitReaderReversed :=
  let (seq, br) := decodeOneBody s br
  let (actualOffset, hist) := doOffsetHistory seq.off seq.ll hist
  (⟨seq.ll, seq.ml, actualOffset⟩, hist, br)

/-- The prologue: fill the ring slot by slot. -/
def fillRing (t : SeqTables) (maxUpdateBits : Nat) :
    Nat → SeqStates → BitReaderReversed → OffsetHist →
      List ExecSeq × SeqStates × BitReaderReversed × OffsetHist
  | 0, s, br, hist => ([], s, br, hist)
  | k + 1, s, br, hist =>
    let (seq, hist, br) := decodeAhead s br hist
    let (s, br) := updateStatesFast t s (br.ensureBits maxUpdateBits)
    let (ring, rest) := fillRing t maxUpdateBits k s br hist
    (seq :: ring, rest)

/-- The drain: what is left in the ring, from slot `i` on. -/
def drainRing (inp : ExecInput) (ring : List ExecSeq) :
    Nat → Nat → ExecState B → Except DecompressBlockError Unit × ExecState B
  | 0, _, exec => (.ok (), exec)
  | k + 1, i, exec =>
    match executeOneSequencePipelined inp (ring.getD (i &&& advanceMask) {}) exec with
    | (.error e, exec) => (.error e, exec)
    | (.ok _, exec) => drainRing inp ring k (i + 1) exec

/-- The steady state: `k` sequences are still to be decoded, the next one is number `i`. -/
def longLoop (inp : ExecInput) (t : SeqTables) (maxUpdateBits : Nat) :
    Nat → Nat → List ExecSeq → SeqStates → BitReaderReversed → OffsetHist → ExecState B →
      LoopEnd B
  | 0, i, ring, _, br, hist, exec =>
    match drainRing inp ring advance i exec with
    | (.error e, exec) => ⟨.error e, exec⟩
    | (.ok _, exec) => ⟨.ok (hist, br), exec⟩
  | k + 1, i, ring, s, br, hist, exec =>
    let (seq, hist, br) := decodeAhead s br hist
    let slot := i &&& advanceMask
    let execSeq := ring.getD slot {}
    let ring := ring.set slot seq
    match executeOneSequencePipelined inp execSeq exec with
    | (.error e, exec) => ⟨.error e, exec⟩
    | (.ok _, exec) =>
      let (s, br) :=
        if 0 < k then updateStatesFast t s (br.ensureBits maxUpdateBits) else (s, br)
      longLoop inp t maxUpdateBits k (i + 1) ring s br hist exec

/-- `decode_long_sequences`. -/
def decodeLongSequences (inp : ExecInput) (t : SeqTables) (maxUpdateBits numSequences : Nat)
    (s : SeqStates) (br : BitReaderReversed) (hist : OffsetHist) (exec : ExecState B) :
    LoopEnd B :=
  let (ring, s, br, hist) := fillRing t maxUpdateBits advance s br hist
  longLoop inp t maxUpdateBits (numSequences - advance) advance ring s br hist exec

/-- What `init_sequence_stream` hands to the loops. -/
structure SeqStreamSetup where
  br : BitReaderReversed
  tables : SeqTables
  states : SeqStates
  maxUpdateBits : Nat
  numSequences : Nat
  useLongPipeline : Bool

def dictContent (dict : Option Dictionary) : List UInt8 :=
  match dict with
  | some d => d.dictContent
  | none => []

/-- Skip the padding and read the three first states, literal lengths, offsets, match lengths. -/
def initStates (t : SeqTables) (bitStream : List UInt8) :
    Except DecodeSequenceError (SeqStates × BitReaderReversed) :=
  let (skippedBits, br) := (BitReaderReversed.new bitStream).skipPadding
  if 8 < skippedBits then .error (.extraPadding skippedBits)
  else match initState t.ll br with
    | .error e => .error (.fseDecoderError e)
    | .ok (ll, br) => match initState t.off br with
      | .error e => .error (.fseDecoderError e)
      | .ok (off, br) => match initState t.ml br with
        | .error e => .error (.fseDecoderError e)
        | .ok (ml, br) => .ok (⟨ll, ml, off⟩, br)

/-- The per-block preamble of every tier. -/
def initSequenceStream (header : SequencesHeader) (source : List UInt8) (fse : FSEScratch)
    (buffer : DecodeBuffer B) (dict : Option Dictionary) :
    Except DecompressBlockError SeqStreamSetup × FSEScratch :=
  let ddictIsCold := fse.ddictIsCold
  match maybeUpdateFseTables header source { fse with ddictIsCold := false } with
  | (.error e, fse) => (.error (.decodeSequenceError e), fse)
  | (.ok bytesRead, fse) =>
    let tables : SeqTables := ⟨fse.llTable dict, fse.mlTable dict, fse.ofTable dict⟩
    match initStates tables (source.drop bytesRead) with
    | .error e => (.error (.decodeSequenceError e), fse)
    | .ok (states, br) =>
      (.ok {
        br := br
        tables := tables
        states := states
        maxUpdateBits :=
          tables.ll.accuracyLog + tables.ml.accuracyLog + tables.off.accuracyLog
        numSequences := header.numSequences
        useLongPipeline := computeUseLongPipeline header.numSequences ddictIsCold
          (min (buffer.windowSize + (dictContent dict).length) usizeMax) fse.offsetsLongShare },
        fse)

/-- After the loop: the stream must be used up, and the literals left over are the tail. -/
def finishSequences (inp : ExecInput) (checkpoint : DecodeBufferCheckpoint)
    (savedHist hist : OffsetHist) (br : BitReaderReversed) (exec : ExecState B) :
    Except DecompressBlockError Unit × DecodeBuffer B × OffsetHist :=
  let remaining := br.bitsRemaining
  if remaining ≠ 0 then
    let (restored, buffer) := exec.buffer.tryRestoreCheckpoint checkpoint
    let hist := if restored then savedHist else hist
    if remaining < 0 then
      (.error (.decodeSequenceError .notEnoughBytesForNumSequences), buffer, hist)
    else (.error (.decodeSequenceError (.extraBits remaining)), buffer, hist)
  else if exec.litCur < inp.litLen then
    let rest := (inp.literals.drop exec.litCur).take (inp.litLen - exec.litCur)
    match exec.buffer.tryPush rest with
    | (.error o, buffer) =>
      (.error (.executeSequencesError (.outputBufferOverflow o)), buffer, hist)
    | (.ok _, buffer) => (.ok (), buffer, hist)
  else (.ok (), exec.buffer, hist)

/-- Both paths behind the preamble. The short path never touches the history before its loop is
through; the long one rewinds it with the output. -/
def runSequences (useLongPipeline : Bool) (setup : SeqStreamSetup) (inp : ExecInput)
    (buffer : DecodeBuffer B) (offsetHist : OffsetHist) :
    Except DecompressBlockError Unit × DecodeBuffer B × OffsetHist :=
  let checkpoint := buffer.checkpoint
  let exec : ExecState B := ⟨buffer, 0⟩
  if useLongPipeline then
    let loopEnd := decodeLongSequences inp setup.tables setup.maxUpdateBits setup.numSequences
      setup.states setup.br offsetHist exec
    match loopEnd.result with
    | .error e =>
      (.error e, (loopEnd.exec.buffer.tryRestoreCheckpoint checkpoint).2, offsetHist)
    | .ok (hist, br) => finishSequences inp checkpoint offsetHist hist br loopEnd.exec
  else
    let loopEnd := shortLoop inp setup.tables setup.numSequences setup.states
      setup.br.refillSequence offsetHist exec
    match loopEnd.result with
    | .error e =>
      (.error e, (loopEnd.exec.buffer.tryRestoreCheckpoint checkpoint).2, offsetHist)
    | .ok (hist, br) => finishSequences inp checkpoint offsetHist hist br loopEnd.exec

/-- `decode_and_execute_sequences_impl`. -/
def decodeAndExecuteSequences (header : SequencesHeader) (source : List UInt8) (fse : FSEScratch)
    (buffer : DecodeBuffer B) (offsetHist : OffsetHist) (literals : List UInt8) (litLen : Nat)
    (dict : Option Dictionary) :
    Except DecompressBlockError Unit × FSEScratch × DecodeBuffer B × OffsetHist :=
  match initSequenceStream header source fse buffer dict with
  | (.error e, fse) => (.error e, fse, buffer, offsetHist)
  | (.ok setup, fse) =>
    let (result, buffer, offsetHist) := runSequences setup.useLongPipeline setup
      ⟨dictContent dict, literals, litLen⟩ buffer offsetHist
    (result, fse, buffer, offsetHist)

end Execute

end Decoding
