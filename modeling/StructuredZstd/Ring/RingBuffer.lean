import StructuredZstd.Bits.Circular
import StructuredZstd.Decoding.Backends
import StructuredZstd.Decoding.BlockDecoder

namespace Ring

open Bits.Circular
open Decoding (Reader BackendOverflow usizeMax wildcopyOverlength)

def isizeMax : Nat := 2 ^ 63 - 1

/-- `usize::next_power_of_two` of a release build, where an overflow gives 0. -/
def nextPowerOfTwo (n : Nat) : Nat := Decoding.nextPowerOfTwo n % 2 ^ 64

def nextMultipleOf (n chunk : Nat) : Nat := (n + (chunk - 1)) / chunk * chunk

def scalarCopyChunk : Nat := 8

def bulkMemcpyThreshold : Nat := 2048

/-- The copy widths of a CPU tier. -/
structure CpuKernel where
  copyChunk : Nat
  stepChunk : Nat
  copyChunk_pos : 0 < copyChunk
  stepChunk_pos : 0 < stepChunk

def scalarKernel : CpuKernel := ⟨8, 8, by decide, by decide⟩

/-- The number of bytes a copy of at least `n` really moves. -/
def CpuKernel.copied (k : CpuKernel) (srcCap dstCap n : Nat) : Nat :=
  let minBufferSize := min srcCap dstCap
  if n = 0 then 0
  else if n ≤ 16 ∧ 16 ≤ minBufferSize then 16
  else if n ≤ 32 then n
  else if bulkMemcpyThreshold ≤ n then n
  else if nextMultipleOf n k.copyChunk ≤ minBufferSize then nextMultipleOf n k.copyChunk
  else if k.stepChunk < k.copyChunk ∧ nextMultipleOf n k.stepChunk ≤ minBufferSize then
    nextMultipleOf n k.stepChunk
  else if nextMultipleOf n scalarCopyChunk ≤ minBufferSize then nextMultipleOf n scalarCopyChunk
  else n

/-- Copies at least `n` bytes of `src` to slot `dst`. Whatever lies past them in the source goes
along as far as the chunk reaches. -/
def copyBytesOvershooting (k : CpuKernel) (src : List UInt8) (srcCap : Nat) (mem : List UInt8)
    (dst dstCap n : Nat) : List UInt8 :=
  overwrite mem dst (src.take (k.copied srcCap dstCap n))

/-- The ring in memory: `buf` has `cap` slots the indices run over and the overshoot slack, or is
not allocated when `cap` is 0. -/
structure RingBuffer where
  buf : List UInt8
  cap : Nat
  head : Nat
  tail : Nat
  maxCapacity : Nat
  growthLimit : Nat
  borrowed : Bool
deriving Repr, DecidableEq

namespace RingBuffer

def new : RingBuffer := ⟨[], 0, 0, 0, usizeMax, usizeMax, false⟩

/-- A ring over memory of the caller, all but the slack of it. -/
def fromBorrowed (buf : List UInt8) (cap : Nat) : RingBuffer :=
  ⟨buf, cap, 0, 0, usizeMax, usizeMax, true⟩

def wrap (r : RingBuffer) (x : Nat) : Nat := if r.cap ≤ x then x - r.cap else x

def dataSliceLengths (r : RingBuffer) : Nat × Nat :=
  if r.head ≤ r.tail then (r.tail - r.head, 0) else (r.cap - r.head, r.tail)

def len (r : RingBuffer) : Nat := r.dataSliceLengths.1 + r.dataSliceLengths.2

def asSlices (r : RingBuffer) : List UInt8 × List UInt8 :=
  ((r.buf.drop r.head).take r.dataSliceLengths.1, r.buf.take r.dataSliceLengths.2)

/-- The free slots before the head, then those after the tail. -/
def freeSliceLengths (r : RingBuffer) : Nat × Nat :=
  if r.tail < r.head then (0, r.head - r.tail) else (r.head, r.cap - r.tail)

def free (r : RingBuffer) : Nat := r.freeSliceLengths.1 + r.freeSliceLengths.2 - 1

def clear (r : RingBuffer) : RingBuffer := { r with head := 0, tail := 0 }

def setMaxCapacity (r : RingBuffer) (maxCapacity : Nat) : RingBuffer :=
  { r with maxCapacity := maxCapacity }

def setGrowthLimit (r : RingBuffer) (growthLimit : Nat) : RingBuffer :=
  { r with growthLimit := growthLimit }

/-- The capacity a growing ring gets, without the sentinel slot. -/
def growthTarget (r : RingBuffer) (needed : Nat) : Nat :=
  let doubled := max (nextPowerOfTwo r.cap) (nextPowerOfTwo needed)
  if needed - 1 ≤ r.growthLimit then min doubled r.growthLimit else doubled

/-- The content moved to the start of zeroed memory. -/
def relocate (r : RingBuffer) (newCap : Nat) : RingBuffer :=
  let newBuf := List.replicate (newCap + wildcopyOverlength) 0
  if 0 < r.cap then
    let s1 := r.asSlices.1
    let s2 := r.asSlices.2
    { r with
      buf := overwrite (overwrite newBuf 0 s1) s1.length s2
      cap := newCap
      head := 0
      tail := s1.length + s2.length }
  else { r with buf := newBuf, cap := newCap }

/-- `none` where the source panics: a ring of the caller's memory, a sum past `usize`, a layout
past `isize`. -/
def reserveAmortized (r : RingBuffer) (amount : Nat) : Option RingBuffer :=
  if r.borrowed then none
  else
    let needed := r.cap + amount
    if usizeMax < needed then none
    else
      let newCap := r.growthTarget needed + 1
      if isizeMax < newCap + wildcopyOverlength then none else some (r.relocate newCap)

def reserve (r : RingBuffer) (amount : Nat) : Option RingBuffer :=
  if r.head ≤ r.tail ∧ amount < r.cap - r.tail then some r
  else if amount ≤ r.free then some r
  else r.reserveAmortized (amount - r.free)

def tryReserve (r : RingBuffer) (amount : Nat) : Option (Except BackendOverflow RingBuffer) :=
  if usizeMax < r.len + amount ∨ r.maxCapacity < r.len + amount then
    some (.error ⟨r.tail, amount, r.maxCapacity⟩)
  else (r.reserve amount).map .ok

def extend (k : CpuKernel) (r : RingBuffer) (data : List UInt8) : Option RingBuffer :=
  let len := data.length
  if len = 0 then some r
  else if r.head ≤ r.tail ∧ len < r.cap - r.tail then
    some { r with
      buf := copyBytesOvershooting k data len r.buf r.tail (r.cap - r.tail + wildcopyOverlength) len
      tail := r.tail + len }
  else
    match r.reserve len with
    | none => none
    | some r =>
      if r.head ≤ r.tail ∧ r.tail + len ≤ r.cap then
        some { r with
          buf := copyBytesOvershooting k data len r.buf r.tail
            (r.cap - r.tail + wildcopyOverlength) len
          tail := if r.tail + len = r.cap then 0 else r.tail + len }
      else
        let f1Len := r.freeSliceLengths.2
        let f2Len := r.freeSliceLengths.1
        let inF1 := min len f1Len
        let inF2 := len - inF1
        -- only a free part that ends at `cap` has the slack behind it
        let f1DstCap := if r.head ≤ r.tail then f1Len + wildcopyOverlength else f1Len
        let buf := copyBytesOvershooting k data inF1 r.buf r.tail f1DstCap inF1
        let buf := copyBytesOvershooting k (data.drop inF1) inF2 buf 0 f2Len inF2
        some { r with buf := buf, tail := r.wrap (r.tail + len) }

def dropFirstN (r : RingBuffer) (amount : Nat) : RingBuffer :=
  { r with head := r.wrap (r.head + min amount r.len) }

/-- The memory after `extend_from_within_unchecked` copied `len` bytes from `start` of the
content. -/
def copyWithin (k : CpuKernel) (r : RingBuffer) (start len : Nat) : List UInt8 :=
  if r.head < r.tail then
    -- one source, the free slots may go round
    let afterTail := min len (r.cap - r.tail)
    let srcCap := r.tail - r.head - start + wildcopyOverlength
    let buf := copyBytesOvershooting k (r.buf.drop (r.head + start)) srcCap r.buf r.tail
      (r.cap - r.tail + wildcopyOverlength) afterTail
    if afterTail < len then
      copyBytesOvershooting k (buf.drop (r.head + start + afterTail)) (srcCap - afterTail) buf 0
        r.head (len - afterTail)
    else buf
  else if r.cap ≤ r.head + start then
    let start := r.wrap (r.head + start)
    copyBytesOvershooting k (r.buf.drop start) (r.tail - start + wildcopyOverlength) r.buf r.tail
      (r.head - r.tail) len
  else
    -- the source may go round, the free slots do not
    let afterStart := min len (r.cap - r.head - start)
    let buf := copyBytesOvershooting k (r.buf.drop (r.head + start))
      (r.cap - r.head - start + wildcopyOverlength) r.buf r.tail (r.head - r.tail) afterStart
    if afterStart < len then
      copyBytesOvershooting k buf (r.tail + wildcopyOverlength) buf (r.tail + afterStart)
        (r.head - r.tail - afterStart) (len - afterStart)
    else buf

def extendFromWithinUnchecked (k : CpuKernel) (r : RingBuffer) (start len : Nat) : RingBuffer :=
  { r with buf := r.copyWithin k start len, tail := r.wrap (r.tail + len) }

/-- `none`, too, where the range is not within the content. -/
def extendFromWithin (k : CpuKernel) (r : RingBuffer) (start len : Nat) : Option RingBuffer :=
  if r.len < start + len then none
  else (r.reserve len).map fun r => r.extendFromWithinUnchecked k start len

def extendAndFill (r : RingBuffer) (fillWith : UInt8) (fillLength : Nat) : Option RingBuffer :=
  if fillLength = 0 then some r
  else
    (r.reserve fillLength).map fun r =>
      let fill1 := min r.freeSliceLengths.2 fillLength
      let buf := overwrite r.buf r.tail (List.replicate fill1 fillWith)
      let buf :=
        if fill1 < fillLength then
          overwrite buf 0 (List.replicate (fillLength - fill1) fillWith)
        else buf
      { r with buf := buf, tail := r.wrap (r.tail + fillLength) }

/-- `read_exact` into `n` zeroed slots. A source that fails leaves there what it took. -/
def readInto (read : Reader) (mem : List UInt8) (dst n : Nat) : Bool × List UInt8 × Reader :=
  let mem := overwrite mem dst (List.replicate n 0)
  match read.readExact n with
  | (some data, rest) => (true, overwrite mem dst data, rest)
  | (none, rest) =>
    (false, overwrite mem dst (read.bytes.take (read.bytes.length - read.kept)), rest)

/-- The flag is false when the source ended early; the tail then stays. -/
def extendFromReader (r : RingBuffer) (read : Reader) (fillLength : Nat) :
    Option (Bool × RingBuffer) :=
  if fillLength = 0 then some (true, r)
  else
    (r.reserve fillLength).map fun r =>
      let fill1 := min r.freeSliceLengths.2 fillLength
      match readInto read r.buf r.tail fill1 with
      | (false, buf, _) => (false, { r with buf := buf })
      | (true, buf, rest) =>
        if fill1 < fillLength then
          match readInto rest buf 0 (fillLength - fill1) with
          | (false, buf, _) => (false, { r with buf := buf })
          | (true, buf, _) => (true, { r with buf := buf, tail := r.wrap (r.tail + fillLength) })
        else (true, { r with buf := buf, tail := r.wrap (r.tail + fillLength) })

end RingBuffer

end Ring
