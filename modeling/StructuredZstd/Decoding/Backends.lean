import StructuredZstd.Decoding.DecodeBuffer
import StructuredZstd.Lz.CopyMatch

namespace Decoding

def wildcopyOverlength : Nat := 32

/-- Whether a sequence and the overshoot of its copies fit behind `tail`. -/
def sequenceOutputFits (litLength matchLength tail cap overshoot : Nat) :
    Except ExecuteSequencesError Unit :=
  if cap - tail < litLength + matchLength + overshoot then
    .error (.outputBufferOverflow ⟨tail, litLength + matchLength, cap⟩)
  else .ok ()

/-- Growth of a `Vec<u8>` that needs `additional` more bytes. -/
def vecReserve (capacity len additional : Nat) : Nat :=
  if capacity - len < additional then max 8 (max (2 * capacity) (len + additional)) else capacity

def vecReserveExact (capacity len additional : Nat) : Nat :=
  if capacity - len < additional then len + additional else capacity

/-- The contiguous growing backend: `buf` holds everything since it was cleared, the content
starts at `head`. -/
structure FlatBuf where
  buf : List UInt8
  head : Nat
  capacity : Nat
  maxCapacity : Nat
deriving Repr, DecidableEq

namespace FlatBuf

def new : FlatBuf := ⟨[], 0, 0, usizeMax⟩

def len (b : FlatBuf) : Nat := b.buf.length - b.head

def append (b : FlatBuf) (data : List UInt8) : FlatBuf :=
  { b with
    buf := b.buf ++ data
    capacity := vecReserve b.capacity b.buf.length data.length }

def reserve (b : FlatBuf) (n : Nat) : FlatBuf :=
  { b with capacity := vecReserve b.capacity b.buf.length (n + wildcopyOverlength) }

def tryReserve (b : FlatBuf) (n : Nat) : Except BackendOverflow FlatBuf :=
  if b.maxCapacity < b.len + n then .error ⟨b.buf.length, n, b.maxCapacity⟩
  else if n + wildcopyOverlength ≤ b.capacity - b.buf.length then .ok b
  else .ok (b.reserve n)

def inlineExecOk (b : FlatBuf) (litLength matchLength : Nat) : Bool :=
  b.len + litLength + matchLength ≤ b.maxCapacity

def execSequenceInline (b : FlatBuf) (lits : List UInt8) (offset matchLength : Nat) :
    Except ExecuteSequencesError FlatBuf :=
  match sequenceOutputFits lits.length matchLength b.buf.length b.capacity 15 with
  | .error e => .error e
  | .ok _ => .ok { b with buf := Lz.copyMatch offset matchLength (b.buf ++ lits) }

def execSequenceInlineDict (b : FlatBuf) (lits dictSrc : List UInt8) (matchLength : Nat) :
    Except ExecuteSequencesError FlatBuf :=
  match sequenceOutputFits lits.length matchLength b.buf.length b.capacity 0 with
  | .error e => .error e
  | .ok _ => .ok { b with buf := b.buf ++ lits ++ dictSrc.take matchLength }

instance : BufferBackend FlatBuf where
  supportsInlineSequenceExec := true
  inlineExecMaintainsOutputCounter := true
  fixedCapacity := false
  new := new
  clear b := { b with buf := [], head := 0 }
  reserve := reserve
  reserveExact b n :=
    { b with capacity := vecReserveExact b.capacity b.buf.length (n + wildcopyOverlength) }
  tryReserve := tryReserve
  setMaxCapacity b maxCapacity := { b with maxCapacity := maxCapacity }
  setGrowthLimit b _ := b
  bytes b := b.buf.drop b.head
  cap b := b.capacity
  tail b := b.buf.length
  setTail b newTail := { b with buf := b.buf.take newTail }
  extend := append
  extendAndFill b fillWith fillLength := b.append (List.replicate fillLength fillWith)
  extendFromWithinUnchecked b start len :=
    { b with buf := b.buf ++ (b.buf.drop (b.head + start)).take len }
  dropFirstN b n := { b with head := b.head + n }
  tryExtend b data := .ok (b.append data)
  tryExtendAndFill b fillWith fillLength := .ok (b.append (List.replicate fillLength fillWith))
  inlineExecOk b litLength matchLength _ := b.inlineExecOk litLength matchLength
  inlineExecDictOk := inlineExecOk
  execSequenceInline := execSequenceInline
  execSequenceInlineDict := execSequenceInlineDict

end FlatBuf

/-- The caller's slice: `written` is the part before the tail. -/
structure UserSliceBackend where
  sliceLen : Nat
  written : List UInt8
  head : Nat
  sequenceCap : Nat
deriving Repr, DecidableEq

namespace UserSliceBackend

def fromSlice (sliceLen : Nat) : UserSliceBackend := ⟨sliceLen, [], 0, sliceLen⟩

def append (b : UserSliceBackend) (data : List UInt8) : UserSliceBackend :=
  { b with written := b.written ++ data }

def tryReserve (b : UserSliceBackend) (n : Nat) : Except BackendOverflow UserSliceBackend :=
  if b.written.length + n ≤ b.sequenceCap then .ok b
  else .error ⟨b.written.length, n, b.sequenceCap⟩

def tryExtend (b : UserSliceBackend) (data : List UInt8) :
    Except BackendOverflow UserSliceBackend :=
  if b.sliceLen < b.written.length + data.length then
    .error ⟨b.written.length, data.length, b.sliceLen⟩
  else .ok (b.append data)

/-- Past the overshoot margin the copies are bounded ones; only what does not fit fails. -/
def execSequenceInline (b : UserSliceBackend) (lits : List UInt8) (offset matchLength : Nat) :
    Except ExecuteSequencesError UserSliceBackend :=
  let next := { b with written := Lz.copyMatch offset matchLength (b.written ++ lits) }
  if b.sequenceCap < b.written.length + (lits.length + matchLength) + 15 then
    match sequenceOutputFits lits.length matchLength b.written.length b.sequenceCap 0 with
    | .error e => .error e
    | .ok _ => .ok next
  else .ok next

def execSequenceInlineDict (b : UserSliceBackend) (lits dictSrc : List UInt8)
    (matchLength : Nat) : Except ExecuteSequencesError UserSliceBackend :=
  match sequenceOutputFits lits.length matchLength b.written.length b.sequenceCap 0 with
  | .error e => .error e
  | .ok _ => .ok (b.append (lits ++ dictSrc.take matchLength))

instance : BufferBackend UserSliceBackend where
  supportsInlineSequenceExec := true
  inlineExecMaintainsOutputCounter := false
  fixedCapacity := true
  new := fromSlice 0
  clear b := { b with written := [], head := 0 }
  reserve b _ := b
  reserveExact b _ := b
  tryReserve := tryReserve
  setMaxCapacity b maxCapacity :=
    { b with sequenceCap := min b.sliceLen (min (b.head + maxCapacity) usizeMax) }
  setGrowthLimit b _ := b
  bytes b := b.written.drop b.head
  cap b := b.sequenceCap
  tail b := b.written.length
  setTail b newTail := { b with written := b.written.take newTail }
  extend := append
  extendAndFill b fillWith fillLength := b.append (List.replicate fillLength fillWith)
  extendFromWithinUnchecked b start len :=
    b.append ((b.written.drop (b.head + start)).take len)
  dropFirstN b n := { b with head := b.head + n }
  tryExtend := tryExtend
  tryExtendAndFill b fillWith fillLength := b.tryExtend (List.replicate fillLength fillWith)
  inlineExecOk _ _ _ _ := true
  inlineExecDictOk _ _ _ := true
  execSequenceInline := execSequenceInline
  execSequenceInlineDict := execSequenceInlineDict

end UserSliceBackend

/-- `usize::next_power_of_two`, before it overflows. -/
def nextPowerOfTwo (n : Nat) : Nat := if n ≤ 1 then 1 else 2 ^ (Nat.log2 (n - 1) + 1)

theorem le_nextPowerOfTwo (n : Nat) : n ≤ nextPowerOfTwo n := by
  rw [nextPowerOfTwo]
  split
  · assumption
  · have hlt : n - 1 < 2 ^ (Nat.log2 (n - 1) + 1) := Nat.lt_log2_self
    omega

/-- The ring: `live` is the content in order, `head` the slot of its first byte. -/
structure RingBuffer where
  live : List UInt8
  head : Nat
  cap : Nat
  maxCapacity : Nat
  growthLimit : Nat
deriving Repr, DecidableEq

namespace RingBuffer

def new : RingBuffer := ⟨[], 0, 0, usizeMax, usizeMax⟩

def wrap (b : RingBuffer) (x : Nat) : Nat := if b.cap ≤ x then x - b.cap else x

def tail (b : RingBuffer) : Nat := b.wrap (b.head + b.live.length)

def free (b : RingBuffer) : Nat := b.cap - b.live.length - 1

/-- Double up to the growth limit, or past it when the limit cannot hold the request. -/
def reserveAmortized (b : RingBuffer) (amount : Nat) : RingBuffer :=
  let needed := b.cap + amount
  let doubled := max (nextPowerOfTwo b.cap) (nextPowerOfTwo needed)
  let target := if needed - 1 ≤ b.growthLimit then min doubled b.growthLimit else doubled
  { b with cap := target + 1, head := 0 }

def reserve (b : RingBuffer) (amount : Nat) : RingBuffer :=
  if b.head ≤ b.tail ∧ amount < b.cap - b.tail then b
  else if amount ≤ b.free then b
  else b.reserveAmortized (amount - b.free)

def tryReserve (b : RingBuffer) (amount : Nat) : Except BackendOverflow RingBuffer :=
  if b.maxCapacity < b.live.length + amount then .error ⟨b.tail, amount, b.maxCapacity⟩
  else .ok (b.reserve amount)

/-- A write that fills every slot leaves the tail on the head: the ring reads as empty. -/
def append (b : RingBuffer) (data : List UInt8) : RingBuffer :=
  if data.length = 0 then b
  else
    let b := b.reserve data.length
    { b with live := if b.live.length + data.length < b.cap then b.live ++ data else [] }

/-- The bytes between the head and a tail moved back. -/
def setTail (b : RingBuffer) (newTail : Nat) : RingBuffer :=
  let len := if b.head ≤ newTail then newTail - b.head else b.cap - b.head + newTail
  { b with live := b.live.take len }

def inlineExecDictOk (b : RingBuffer) (litLength matchLength : Nat) : Bool :=
  let reach := b.tail + litLength + matchLength + 31
  (if b.head ≤ b.tail then reach < b.cap else reach < b.head) ∧
    b.live.length + litLength + matchLength ≤ b.maxCapacity

def inlineExecOk (b : RingBuffer) (litLength matchLength offset : Nat) : Bool :=
  b.inlineExecDictOk litLength matchLength ∧ (b.head ≤ b.tail ∨ offset ≤ b.tail + litLength)

def execSequenceInline (b : RingBuffer) (lits : List UInt8) (offset matchLength : Nat) :
    Except ExecuteSequencesError RingBuffer :=
  match sequenceOutputFits lits.length matchLength b.tail b.cap 15 with
  | .error e => .error e
  | .ok _ => .ok { b with live := Lz.copyMatch offset matchLength (b.live ++ lits) }

def execSequenceInlineDict (b : RingBuffer) (lits dictSrc : List UInt8) (matchLength : Nat) :
    Except ExecuteSequencesError RingBuffer :=
  match sequenceOutputFits lits.length matchLength b.tail b.cap 0 with
  | .error e => .error e
  | .ok _ => .ok { b with live := b.live ++ lits ++ dictSrc.take matchLength }

instance : BufferBackend RingBuffer where
  supportsInlineSequenceExec := true
  inlineExecMaintainsOutputCounter := true
  fixedCapacity := false
  new := new
  clear b := { b with live := [], head := 0 }
  reserve := reserve
  reserveExact := reserve
  tryReserve := tryReserve
  setMaxCapacity b maxCapacity := { b with maxCapacity := maxCapacity }
  setGrowthLimit b growthLimit := { b with growthLimit := growthLimit }
  bytes b := b.live
  cap b := b.cap
  tail := tail
  setTail := setTail
  extend := append
  extendAndFill b fillWith fillLength := b.append (List.replicate fillLength fillWith)
  extendFromWithinUnchecked b start len := { b with live := b.live ++ (b.live.drop start).take len }
  dropFirstN b n := { b with head := b.wrap (b.head + n), live := b.live.drop n }
  tryExtend b data := .ok (b.append data)
  tryExtendAndFill b fillWith fillLength := .ok (b.append (List.replicate fillLength fillWith))
  inlineExecOk := inlineExecOk
  inlineExecDictOk := inlineExecDictOk
  execSequenceInline := execSequenceInline
  execSequenceInlineDict := execSequenceInlineDict

end RingBuffer

end Decoding
