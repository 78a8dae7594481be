import StructuredZstd.Decoding.BlockDecoder

namespace Decoding

open Bits

def magicNum : Nat := 0xFD2FB528

def minWindowSize : Nat := 1024

def maxWindowSize : Nat := 1 <<< 41 + 7 * 1 <<< 38

def maximumAllowedWindowSize : Nat := 1 <<< 27

/-- On a 64-bit target. -/
def maxDecoderWindowSize : Nat := 1 <<< 31

inductive ReadFrameHeaderError where
  | magicNumberReadError
  | badMagicNumber (got : Nat)
  | frameDescriptorReadError
  | reservedBitSet
  | windowDescriptorReadError
  | dictionaryIdReadError
  | frameContentSizeReadError
  | skipFrame (magicNumber length : Nat)
deriving Repr, DecidableEq

inductive FrameHeaderError where
  | windowTooBig (got : Nat)
  | windowTooSmall (got : Nat)
deriving Repr, DecidableEq

structure FrameDescriptor where
  byte : Nat
deriving Repr, DecidableEq

namespace FrameDescriptor

def frameContentSizeFlag (d : FrameDescriptor) : Nat := d.byte >>> 6

def reservedFlag (d : FrameDescriptor) : Bool := (d.byte >>> 3) &&& 0x1 = 1

def singleSegmentFlag (d : FrameDescriptor) : Bool := (d.byte >>> 5) &&& 0x1 = 1

def contentChecksumFlag (d : FrameDescriptor) : Bool := (d.byte >>> 2) &&& 0x1 = 1

def dictIdFlag (d : FrameDescriptor) : Nat := d.byte &&& 0x3

/-- A flag of two bits has no fifth value, which the source rejects. -/
def frameContentSizeBytes (d : FrameDescriptor) : Nat :=
  match d.frameContentSizeFlag with
  | 0 => if d.singleSegmentFlag then 1 else 0
  | 1 => 2
  | 2 => 4
  | _ => 8

def dictionaryIdBytes (d : FrameDescriptor) : Nat :=
  match d.dictIdFlag with
  | 0 => 0
  | 1 => 1
  | 2 => 2
  | _ => 4

end FrameDescriptor

structure FrameHeader where
  descriptor : FrameDescriptor
  windowDescriptor : Nat
  dictId : Option Nat
  frameContentSize : Nat
deriving Repr, DecidableEq

namespace FrameHeader

def windowSize (h : FrameHeader) : Except FrameHeaderError Nat :=
  if h.descriptor.singleSegmentFlag then .ok h.frameContentSize
  else
    let exp := h.windowDescriptor >>> 3
    let mantissa := h.windowDescriptor &&& 0x7
    let windowBase := 1 <<< (10 + exp)
    let windowSize := windowBase + windowBase / 8 * mantissa
    if windowSize < minWindowSize then .error (.windowTooSmall windowSize)
    else if windowSize < maxWindowSize then .ok windowSize
    else .error (.windowTooBig windowSize)

def fcsDeclared (h : FrameHeader) : Bool := h.descriptor.frameContentSizeBytes ≠ 0

def windowDescriptor? (h : FrameHeader) : Option Nat :=
  if h.descriptor.singleSegmentFlag then none else some h.windowDescriptor

/-- The declared content size, when there is one. -/
def declared (h : FrameHeader) : Option Nat :=
  if h.fcsDeclared then some h.frameContentSize else none

end FrameHeader

/-- Parsing takes bytes off a reader, and keeps what it took when it fails. -/
abbrev HeaderParser := ExceptT ReadFrameHeaderError (StateM Reader)

/-- A field of `n` bytes. -/
def readField (n : Nat) (short : ReadFrameHeaderError) : HeaderParser (List UInt8) := fun r =>
  match r.readExact n with
  | (some bytes, r) => (.ok bytes, r)
  | (none, r) => (.error short, r)

/-- The magic number, or the length of a skippable frame. -/
def readMagic : HeaderParser Unit := do
  let magic := le (← readField 4 .magicNumberReadError)
  if 0x184D2A50 ≤ magic ∧ magic ≤ 0x184D2A5F then
    let length := le (← readField 4 .frameDescriptorReadError)
    throw (.skipFrame magic length)
  if magic ≠ magicNum then throw (.badMagicNumber magic)

/-- A single segment has no window of its own. -/
def readWindowDescriptor (desc : FrameDescriptor) : HeaderParser Nat :=
  if desc.singleSegmentFlag then pure 0
  else do
    return le (← readField 1 .windowDescriptorReadError)

/-- The header behind `magicLen` bytes of magic number. The result carries the size of both. -/
def readHeaderFields (magicLen : Nat) : HeaderParser (FrameHeader × Nat) := do
  let desc : FrameDescriptor := ⟨le (← readField 1 .frameDescriptorReadError)⟩
  let windowDescriptor ← readWindowDescriptor desc
  let dictId := le (← readField desc.dictionaryIdBytes .dictionaryIdReadError)
  let fcs := le (← readField desc.frameContentSizeBytes .frameContentSizeReadError)
  if desc.reservedFlag then throw .reservedBitSet
  else return ({
      descriptor := desc
      windowDescriptor := windowDescriptor
      dictId := if dictId = 0 then none else some dictId
      frameContentSize := if desc.frameContentSizeBytes = 2 then fcs + 256 else fcs },
    magicLen + 1 + (if desc.singleSegmentFlag then 0 else 1) + desc.dictionaryIdBytes +
      desc.frameContentSizeBytes)

/-- Read a frame header. -/
def readFrameHeaderWithFormat (magicless : Bool) : HeaderParser (FrameHeader × Nat) :=
  if magicless then readHeaderFields 0
  else do
    readMagic
    readHeaderFields 4

end Decoding
