import StructuredZstd.Decoding.Errors

namespace Decoding

def usizeMax : Nat := 2 ^ 64 - 1

def maxBlockSize : Nat := 128 * 1024

/-- The storage behind a `DecodeBuffer`: its content is the list `bytes`, oldest byte first, and
raw pointers into the literals or the dictionary are the lists they point at. -/
class BufferBackend (B : Type) where
  supportsInlineSequenceExec : Bool
  inlineExecMaintainsOutputCounter : Bool
  fixedCapacity : Bool
  new : B
  clear : B → B
  reserve : B → Nat → B
  reserveExact : B → Nat → B
  tryReserve : B → Nat → Except BackendOverflow B
  setMaxCapacity : B → Nat → B
  setGrowthLimit : B → Nat → B
  bytes : B → List UInt8
  cap : B → Nat
  tail : B → Nat
  setTail : B → Nat → B
  extend : B → List UInt8 → B
  extendAndFill : B → UInt8 → Nat → B
  extendFromWithinUnchecked : B → Nat → Nat → B
  dropFirstN : B → Nat → B
  tryExtend : B → List UInt8 → Except BackendOverflow B
  tryExtendAndFill : B → UInt8 → Nat → Except BackendOverflow B
  inlineExecOk : B → Nat → Nat → Nat → Bool
  inlineExecDictOk : B → Nat → Nat → Bool
  execSequenceInline : B → List UInt8 → Nat → Nat → Except ExecuteSequencesError B
  execSequenceInlineDict : B → List UInt8 → List UInt8 → Nat → Except ExecuteSequencesError B

/-- The decode buffer. `hash` is the text fed to the running checksum since it was seeded. -/
structure DecodeBuffer (B : Type) where
  buffer : B
  windowSize : Nat
  totalOutputCounter : Nat
  hash : List UInt8
  computeHash : Bool
  hashDirty : Bool
  declaredContent : Option Nat
  blockLimit : Nat
  delivered : Nat

structure DecodeBufferCheckpoint where
  tail : Nat
  totalOutputCounter : Nat
  cap : Nat

def peakBufferedLen (windowSize : Nat) : Nat :=
  min (windowSize + min windowSize maxBlockSize) usizeMax

namespace DecodeBuffer

variable {B : Type} [BufferBackend B]

open BufferBackend

def fromBackend (buffer : B) (windowSize : Nat) : DecodeBuffer B where
  buffer := setGrowthLimit (clear buffer) (peakBufferedLen windowSize)
  windowSize := windowSize
  totalOutputCounter := 0
  hash := []
  computeHash := true
  hashDirty := false
  declaredContent := none
  blockLimit := maxBlockSize
  delivered := 0

def new (windowSize : Nat) : DecodeBuffer B where
  buffer := setGrowthLimit BufferBackend.new (peakBufferedLen windowSize)
  windowSize := windowSize
  totalOutputCounter := 0
  hash := []
  computeHash := true
  hashDirty := false
  declaredContent := none
  blockLimit := maxBlockSize
  delivered := 0

def content (d : DecodeBuffer B) : List UInt8 := bytes d.buffer

def len (d : DecodeBuffer B) : Nat := d.content.length

def setBlockOutputCeiling (d : DecodeBuffer B) (maxBlockOutput : Nat) : DecodeBuffer B :=
  { d with buffer := setMaxCapacity d.buffer (d.len + maxBlockOutput) }

def blockMaximum (d : DecodeBuffer B) : Nat := min d.windowSize d.blockLimit

def setBlockLimit (d : DecodeBuffer B) (limit : Nat) : DecodeBuffer B :=
  { d with blockLimit := min limit maxBlockSize }

def setDeclaredContent (d : DecodeBuffer B) (contentSize : Option Nat) : DecodeBuffer B :=
  { d with declaredContent := contentSize }

def remainingDeclared (d : DecodeBuffer B) : Option Nat :=
  d.declaredContent.map fun declared => min (declared - d.totalOutputCounter) usizeMax

def reserveForBlock (d : DecodeBuffer B) (blockMaximum : Nat) : DecodeBuffer B :=
  let room := match d.remainingDeclared with
    | some left => min blockMaximum left
    | none => blockMaximum
  { d with buffer := reserveExact d.buffer room }

/-- Start over for a new frame; the block limit stays. -/
def reset (d : DecodeBuffer B) (windowSize : Nat) : DecodeBuffer B :=
  { d with
    windowSize := windowSize
    declaredContent := none
    buffer := setMaxCapacity (setGrowthLimit (clear d.buffer) (peakBufferedLen windowSize)) usizeMax
    delivered := 0
    totalOutputCounter := 0
    hash := if d.hashDirty then [] else d.hash
    hashDirty := false }

def push (d : DecodeBuffer B) (data : List UInt8) : DecodeBuffer B :=
  { d with
    buffer := extend d.buffer data
    totalOutputCounter := d.totalOutputCounter + data.length }

def tryPush (d : DecodeBuffer B) (data : List UInt8) :
    Except BackendOverflow Unit × DecodeBuffer B :=
  match tryExtend d.buffer data with
  | .error o => (.error o, d)
  | .ok buffer =>
    (.ok (), { d with
      buffer := buffer
      totalOutputCounter := d.totalOutputCounter + data.length })

def tryExtendAndFill (d : DecodeBuffer B) (fillWith : UInt8) (fillLength : Nat) :
    Except BackendOverflow Unit × DecodeBuffer B :=
  match BufferBackend.tryExtendAndFill d.buffer fillWith fillLength with
  | .error o => (.error o, d)
  | .ok buffer =>
    (.ok (), { d with
      buffer := buffer
      totalOutputCounter := d.totalOutputCounter + fillLength })

def extendAndFill (d : DecodeBuffer B) (fillWith : UInt8) (fillLength : Nat) : DecodeBuffer B :=
  { d with
    buffer := BufferBackend.extendAndFill d.buffer fillWith fillLength
    totalOutputCounter := d.totalOutputCounter + fillLength }

/-- A raw block read straight behind the tail, in room reserved for it; `data` is what the reader
supplied, if it supplied all of it. No driver reads into a fixed slice. -/
def extendFromReader (d : DecodeBuffer B) (data : Option (List UInt8)) (fillLength : Nat) :
    DecodeBuffer B :=
  let d := { d with buffer := BufferBackend.reserve d.buffer fillLength }
  match data with
  | none => d
  | some data => d.push data

def advanceOutputCounter (d : DecodeBuffer B) (n : Nat) : DecodeBuffer B :=
  { d with totalOutputCounter := d.totalOutputCounter + n }

def checkpoint (d : DecodeBuffer B) : DecodeBufferCheckpoint :=
  ⟨tail d.buffer, d.totalOutputCounter, cap d.buffer⟩

/-- Roll the output back; a buffer that has grown since cannot. -/
def tryRestoreCheckpoint (d : DecodeBuffer B) (cp : DecodeBufferCheckpoint) :
    Bool × DecodeBuffer B :=
  if cap d.buffer ≠ cp.cap then (false, d)
  else
    (true, { d with
      buffer := setTail d.buffer cp.tail
      totalOutputCounter := cp.totalOutputCounter })

/-- The doubling copy: the source runs from `startIdx` to the end, longer every round. -/
def repeatInChunks (startIdx : Nat) : Nat → Nat → B → B
  | 0, _, b => b
  | fuel + 1, remaining, b =>
    if 0 < remaining then
      let n := min ((bytes b).length - startIdx) remaining
      repeatInChunks startIdx fuel (remaining - n) (extendFromWithinUnchecked b startIdx n)
    else b

/-- Whole 16-byte chunks of a short period, then the rest of one. -/
def extendByChunk (chunk : List UInt8) : Nat → Nat → B → B
  | 0, _, b => b
  | fuel + 1, left, b =>
    if chunk.length ≤ left then extendByChunk chunk fuel (left - chunk.length) (extend b chunk)
    else if 0 < left then extend b (chunk.take left)
    else b

/-- Eight bytes of the period from each phase in turn, then the rest of one. -/
def extendByPhase (base : List UInt8) (offset : Nat) : Nat → Nat → Nat → B → B
  | 0, _, _, b => b
  | fuel + 1, phase, left, b =>
    let pattern := (List.range 8).map fun i => base.getD ((phase + i) % offset) 0
    if 8 ≤ left then
      extendByPhase base offset fuel ((phase + 8 % offset) % offset) (left - 8) (extend b pattern)
    else if 0 < left then extend b (pattern.take left)
    else b

def repeatShortOffset (b : B) (offset matchLength startIdx : Nat) : B :=
  let base := ((bytes b).drop startIdx).take offset
  if offset = 1 ∨ offset = 2 ∨ offset = 4 then
    let chunk16 := (List.range 16).map fun i => base.getD (i % offset) 0
    extendByChunk chunk16 (matchLength + 1) matchLength b
  else extendByPhase base offset (matchLength + 1) 0 matchLength b

def repeatOverlapping (b : B) (offset matchLength startIdx : Nat) : B :=
  if 8 ≤ offset then repeatInChunks startIdx matchLength matchLength b
  else repeatShortOffset b offset matchLength startIdx

/-- A match whose source lies in the buffer. -/
def repeatResident (d : DecodeBuffer B) (offset matchLength : Nat) :
    Except DecodeBufferError Unit × DecodeBuffer B :=
  let startIdx := d.len - offset
  match tryReserve d.buffer matchLength with
  | .error o => (.error (.outputBufferOverflow o), d)
  | .ok buffer =>
    let buffer :=
      if d.len < startIdx + matchLength then repeatOverlapping buffer offset matchLength startIdx
      else extendFromWithinUnchecked buffer startIdx matchLength
    (.ok (), { d with
      buffer := buffer
      totalOutputCounter := d.totalOutputCounter + matchLength })

/-- What is left of a match after its dictionary part: it starts at the front of the buffer. -/
def repeatTailAfterDict (d : DecodeBuffer B) (matchLength : Nat) :
    Except DecodeBufferError Unit × DecodeBuffer B :=
  if d.len = 0 then (.error .zeroOffset, d)
  else if matchLength = 0 then (.ok (), d)
  else d.repeatResident d.len matchLength

/-- A match that starts in the dictionary. -/
def repeatFromDict (d : DecodeBuffer B) (dictContent : List UInt8) (offset matchLength : Nat) :
    Except DecodeBufferError Unit × DecodeBuffer B :=
  let totalOutput := max d.totalOutputCounter d.len
  if totalOutput ≤ d.windowSize then
    let bytesFromDict := offset - d.len
    if dictContent.length < bytesFromDict then
      (.error (.notEnoughBytesInDictionary dictContent.length bytesFromDict), d)
    else match tryReserve d.buffer matchLength with
      | .error o => (.error (.outputBufferOverflow o), d)
      | .ok buffer =>
        let low := dictContent.length - bytesFromDict
        if bytesFromDict < matchLength then
          { d with
            buffer := extend buffer (dictContent.drop low)
            totalOutputCounter := d.totalOutputCounter + bytesFromDict }.repeatTailAfterDict
              (matchLength - bytesFromDict)
        else
          (.ok (), { d with
            buffer := extend buffer ((dictContent.drop low).take matchLength)
            totalOutputCounter := d.totalOutputCounter + matchLength })
  else (.error (.offsetTooBig offset d.len), d)

/-- Copy a match; the same body serves both prefetch variants. -/
def repeatInner (d : DecodeBuffer B) (dictContent : List UInt8) (offset matchLength : Nat) :
    Except DecodeBufferError Unit × DecodeBuffer B :=
  if offset = 0 then (.error .zeroOffset, d)
  else if matchLength = 0 then (.ok (), d)
  else if d.len < offset then d.repeatFromDict dictContent offset matchLength
  else d.repeatResident offset matchLength

/-- The dictionary bytes of a match that lies wholly inside reachable dictionary content. -/
def dictMatchSource (d : DecodeBuffer B) (dictContent : List UInt8)
    (litLength offset matchLength : Nat) : Option (List UInt8) :=
  let afterLiterals := d.len + litLength
  if offset ≤ afterLiterals then none
  else
    let bytesFromDict := offset - afterLiterals
    let totalOutput := max d.totalOutputCounter d.len
    if d.windowSize < totalOutput + litLength then none
    else if dictContent.length < bytesFromDict ∨ bytesFromDict < matchLength then none
    else some (dictContent.drop (dictContent.length - bytesFromDict))

def undelivered (d : DecodeBuffer B) : Nat := d.len - d.delivered

def markDelivered (d : DecodeBuffer B) : DecodeBuffer B := { d with delivered := d.len }

/-- Let go of what has been handed out, less the window when it is kept. -/
def releaseDelivered (d : DecodeBuffer B) (keepWindow : Bool) : DecodeBuffer B :=
  let keep := if keepWindow then d.windowSize else 0
  if d.len < keep then d
  else
    let release := min (d.len - keep) d.delivered
    if release ≠ 0 then
      { d with buffer := dropFirstN d.buffer release, delivered := d.delivered - release }
    else d

/-- Hand the next `amount` bytes to a sink that takes all of them. -/
def deliverTo (d : DecodeBuffer B) (amount : Nat) (keepWindow : Bool) :
    List UInt8 × DecodeBuffer B :=
  let amount := min amount d.undelivered
  let taken := (d.content.drop d.delivered).take amount
  let d :=
    if amount ≠ 0 ∧ d.computeHash then { d with hash := d.hash ++ taken, hashDirty := true }
    else d
  (taken, { d with delivered := d.delivered + amount }.releaseDelivered keepWindow)

/-- `read_reporting_pending`: the bytes taken, and how many still wait. -/
def readReportingPending (d : DecodeBuffer B) (targetLen : Nat) :
    List UInt8 × Nat × DecodeBuffer B :=
  let waiting := d.undelivered
  let amount := min waiting targetLen
  let (taken, d) := d.deliverTo amount true
  (taken, waiting - amount, d)

def read (d : DecodeBuffer B) (targetLen : Nat) : List UInt8 × DecodeBuffer B :=
  let (taken, _, d) := d.readReportingPending targetLen
  (taken, d)

def readAll (d : DecodeBuffer B) (targetLen : Nat) : List UInt8 × DecodeBuffer B :=
  d.deliverTo (min d.undelivered targetLen) false

def drain (d : DecodeBuffer B) : List UInt8 × DecodeBuffer B :=
  d.deliverTo d.undelivered false

def drainToWindowSize (d : DecodeBuffer B) : Option (List UInt8) × DecodeBuffer B :=
  if d.undelivered = 0 then (none, d)
  else
    let (taken, d) := d.deliverTo d.undelivered true
    (some taken, d)

def lastN (d : DecodeBuffer B) (n : Nat) : List UInt8 := d.content.drop (d.len - n)

/-- Drop the oldest bytes past the window. -/
def dropToWindowSize (d : DecodeBuffer B) : Nat × DecodeBuffer B :=
  let past := d.len - d.windowSize
  if 0 < past then
    (past, { d with
      totalOutputCounter := max d.totalOutputCounter d.len
      buffer := dropFirstN d.buffer past
      delivered := d.delivered - min d.delivered past })
  else (0, d)

def discardFront (d : DecodeBuffer B) (n : Nat) : DecodeBuffer B :=
  if n ≠ 0 then
    { d with buffer := dropFirstN d.buffer n, delivered := d.delivered - min d.delivered n }
  else d

/-- Put the window of an interrupted decode back, as bytes delivered long ago. -/
def primeWindow (d : DecodeBuffer B) (window : List UInt8) (totalOutput : Nat) : DecodeBuffer B :=
  { { d with buffer := extend d.buffer window }.markDelivered with
    totalOutputCounter := totalOutput }

def setHash (d : DecodeBuffer B) (text : List UInt8) : DecodeBuffer B :=
  { d with hash := text, hashDirty := true }

end DecodeBuffer

end Decoding
