import StructuredZstd.Bits.Bytes
import Mathlib.Algebra.Order.Floor.Div
import Mathlib.Data.Nat.Bitwise

namespace Encoding

/-- One slot of the grid, unpacked from the word it is stored in. -/
structure SeenSample where
  fingerprint : Nat
  epoch : Nat
  atStep : Nat
deriving Repr, DecidableEq

namespace SeenSample

def pack (s : SeenSample) : Nat := s.fingerprint ||| (s.epoch <<< 16) ||| (s.atStep <<< 32)

def unpack (word : Nat) : SeenSample where
  fingerprint := word % 2 ^ 16
  epoch := (word >>> 16) % 2 ^ 16
  atStep := (word >>> 32) % 2 ^ 32

theorem unpack_atStep_lt (word : Nat) : (unpack word).atStep < 2 ^ 32 :=
  Nat.mod_lt _ (by simp)

theorem unpack_fingerprint_lt (word : Nat) : (unpack word).fingerprint < 2 ^ 16 :=
  Nat.mod_lt _ (by simp)

theorem pack_eq {s : SeenSample} (hf : s.fingerprint < 2 ^ 16) (he : s.epoch < 2 ^ 16) :
    s.pack = s.fingerprint + s.epoch * 2 ^ 16 + s.atStep * 2 ^ 32 := by
  have hlow : s.fingerprint ||| s.epoch <<< 16 = s.fingerprint + s.epoch * 2 ^ 16 := by
    rw [Nat.or_comm, ← Nat.shiftLeft_add_eq_or_of_lt hf, Nat.shiftLeft_eq]
    exact Nat.add_comm _ _
  have hlt : s.fingerprint + s.epoch * 2 ^ 16 < 2 ^ 32 := by omega
  unfold pack
  rw [hlow, Nat.or_comm, ← Nat.shiftLeft_add_eq_or_of_lt hlt, Nat.shiftLeft_eq]
  exact Nat.add_comm _ _

/-- Fields of their widths come back from the word. -/
theorem unpack_pack {s : SeenSample} (hf : s.fingerprint < 2 ^ 16) (he : s.epoch < 2 ^ 16)
    (ha : s.atStep < 2 ^ 32) : unpack s.pack = s := by
  rw [pack_eq hf he]
  cases s with
  | mk fingerprint epoch atStep =>
    simp only [unpack, SeenSample.mk.injEq, Nat.shiftRight_eq_div_pow] at *
    refine ⟨?_, ?_, ?_⟩ <;> omega

end SeenSample

/-- Whether content was seen earlier in the frame: a table of samples and a byte of each one's key,
both empty until the frame records. -/
structure SeenContentGrid where
  slots : List Nat := []
  tags : List Nat := []
  epoch : Nat := 0
  frameOffset : Nat := 0
  repeatUntil : Nat := 0
  asked : Bool := false
  sameLength : tags.length = slots.length := by rfl
deriving Repr

namespace SeenContentGrid

def maxSlots : Nat := 64 * 1024

def minSlots : Nat := 64

def keyLen : Nat := 8

def recordStep : Nat := 512

def probeRun : Nat := recordStep

def probeFraction : Nat := 4

def rebaseRetainBytes : Nat := 1 <<< 31

def maxBlockSize : Nat := 128 * 1024

def stickyReach : Nat := 2 * maxBlockSize

def u32Max : Nat := 2 ^ 32 - 1

def u64Max : Nat := 2 ^ 64 - 1

def placement (key : Nat) : Nat :=
  let product := (key ^^^ (key >>> 29)) * 0x9E3779B97F4A7C15 % 2 ^ 64
  ((product >>> 8) &&& 0xFFFFFFFF00000000) ||| ((product >>> 40) &&& 0x00FF0000)

def slotAndTag (key mask : Nat) : Nat × Nat :=
  let placed := placement key
  ((placed >>> 32) &&& mask, (placed >>> 16) % 256 ||| 1)

def avalancheWide (key : Nat) : Nat :=
  let z := key * 0x9E3779B97F4A7C15 % 2 ^ 64
  let z := (z ^^^ (z >>> 30)) * 0xBF58476D1CE4E5B9 % 2 ^ 64
  let z := (z ^^^ (z >>> 27)) * 0x94D049BB133111EB % 2 ^ 64
  z ^^^ (z >>> 31)

def fmix32 (h : Nat) : Nat :=
  let h := h ^^^ (h >>> 16)
  let h := h * 0x85EBCA6B % 2 ^ 32
  let h := h ^^^ (h >>> 13)
  let h := h * 0xC2B2AE35 % 2 ^ 32
  h ^^^ (h >>> 16)

def avalancheNarrow (key : Nat) : Nat :=
  let lo := key % 2 ^ 32
  let hi := (key >>> 32) % 2 ^ 32
  let low := fmix32 (lo ^^^ (hi * 0x9E3779B1 % 2 ^ 32))
  let high := fmix32 (low ^^^ hi ^^^ 0x27D4EB2F)
  (high <<< 32) ||| low

/-- The mix a machine takes: the narrow one where it has no 64-bit multiply. -/
def avalanche (wide : Bool) (key : Nat) : Nat :=
  if wide then avalancheWide key else avalancheNarrow key

def fingerprint (wide : Bool) (key : Nat) : Nat := avalanche wide key % 2 ^ 16 ||| 1

def keyAt (block : List UInt8) (at_ : Nat) : Nat := Bits.le ((block.drop at_).take keyLen)

def slotsFor (windowSize : Nat) : Nat :=
  if windowSize = 0 then maxSlots
  else
    let records := max (windowSize / recordStep) 1
    max minSlots (min (Nat.nextPowerOfTwo (records * 4)) maxSlots)

def reachOf (windowSize : Nat) : Nat := if windowSize = 0 then u64Max else windowSize

/-- Start a frame: the next epoch, over a cleared table where the count of epochs wraps. -/
def resetForFrame (g : SeenContentGrid) : SeenContentGrid :=
  let epoch := (g.epoch + 1) % 2 ^ 16
  if epoch = 0 then
    { slots := List.replicate g.slots.length 0
      tags := List.replicate g.tags.length 0
      epoch := 1
      sameLength := by simp [g.sameLength] }
  else
    { slots := g.slots, tags := g.tags, epoch := epoch, sameLength := g.sameLength }

/-- A slot after the origin has moved by some steps; a record left behind is dropped. -/
def rebaseSlot (epoch baseSteps word tag : Nat) : Nat × Nat :=
  let held := SeenSample.unpack word
  if held.epoch ≠ epoch then (word, tag)
  else if baseSteps ≤ held.atStep then
    (SeenSample.pack { held with atStep := held.atStep - baseSteps }, tag)
  else (0, 0)

def rebaseOffsets (g : SeenContentGrid) : SeenContentGrid :=
  let retainSteps := rebaseRetainBytes / recordStep
  if retainSteps ≤ g.frameOffset / recordStep then
    let baseSteps := g.frameOffset / recordStep - retainSteps
    let moved := rebaseSlot g.epoch (min baseSteps u32Max)
    { g with
      slots := List.zipWith (fun word tag => (moved word tag).1) g.slots g.tags
      tags := List.zipWith (fun word tag => (moved word tag).2) g.slots g.tags
      frameOffset := g.frameOffset - baseSteps * recordStep
      repeatUntil := g.repeatUntil - baseSteps * recordStep
      sameLength := by simp }
  else g

def skipBlock (g : SeenContentGrid) (len : Nat) : SeenContentGrid :=
  let g := if u32Max < (g.frameOffset + len) / recordStep then g.rebaseOffsets else g
  { g with frameOffset := g.frameOffset + len }

def probeKey (wide : Bool) (block : List UInt8) (reach mask at_ : Nat) (g : SeenContentGrid) :
    Bool :=
  let key := keyAt block at_
  let place := slotAndTag key mask
  if g.tags.getD place.1 0 ≠ place.2 then false
  else
    let held := SeenSample.unpack (g.slots.getD place.1 0)
    let here := g.frameOffset + at_
    if held.epoch ≠ g.epoch ∨ held.fingerprint ≠ fingerprint wide key then false
    else
      let recorded := held.atStep * recordStep
      recorded ≤ here ∧ here - recorded ≤ reach

def recordKey (wide : Bool) (block : List UInt8) (mask at_ : Nat) (g : SeenContentGrid) :
    SeenContentGrid :=
  let key := keyAt block at_
  let place := slotAndTag key mask
  let here := g.frameOffset + at_
  let packed := SeenSample.pack ⟨fingerprint wide key, g.epoch, here / recordStep % 2 ^ 32⟩
  { g with
    slots := g.slots.set place.1 packed
    tags := g.tags.set place.1 place.2
    sameLength := by simp [g.sameLength] }

/-- Take the table a window asks for, where the one in hand is smaller. -/
def grow (wanted : Nat) (g : SeenContentGrid) : SeenContentGrid :=
  if g.slots.length < wanted then
    { g with
      slots := List.replicate wanted 0
      tags := List.replicate wanted 0
      epoch := max g.epoch 1
      sameLength := by simp }
  else g

section Walk

variable {σ : Type} (record : Nat → σ → σ) (probe : Nat → σ → Bool)

/-- Record the grid points from `abs` on that lie before `stop`. -/
def recordBelow (frameOffset stop abs : Nat) (g : σ) : Nat × σ :=
  if abs < stop then
    recordBelow frameOffset stop (abs + recordStep) (record (abs - frameOffset) g)
  else (abs, g)
termination_by stop - abs
decreasing_by simp only [recordStep]; omega

/-- Where the walk is, whether a probe has hit, and what has been recorded. -/
structure Walked (σ : Type) where
  abs : Nat
  repeats : Bool
  grid : σ

/-- The records before one run of probes, the run, and after the last run the rest. -/
def walkRun (frameOffset last run spacing runs : Nat) (asks : Bool) (w : Walked σ) (idx : Nat) :
    Walked σ :=
  let blockEnd := frameOffset + last
  let start := idx * spacing
  let before :=
    recordBelow record frameOffset (min (frameOffset + start) (blockEnd + 1)) w.abs w.grid
  let stop := min (start + run) (last + 1)
  let repeats :=
    if asks ∧ ¬ w.repeats ∧ (frameOffset ≠ 0 ∨ start ≠ 0) then
      (List.range' start (stop - start)).any (probe · before.2)
    else w.repeats
  let after :=
    if idx + 1 = runs then recordBelow record frameOffset (blockEnd + 1) before.1 before.2
    else before
  ⟨after.1, repeats, after.2⟩

def walkBlock (frameOffset len : Nat) (asks : Bool) (g : σ) : Walked σ :=
  let last := len - keyLen
  let run := min probeRun (max (len / 16) 8)
  let spacing := max (len / probeFraction) (16 * run)
  let runs := (len + spacing - 1) / spacing
  let abs := (frameOffset + recordStep - 1) / recordStep * recordStep
  (List.range runs).foldl (walkRun record probe frameOffset last run spacing runs asks)
    ⟨abs, false, g⟩

end Walk

/-- The grid made ready for a block: wide enough for the window, and its origin moved where the
block would run past the step index. -/
def makeReady (g : SeenContentGrid) (len windowSize : Nat) : SeenContentGrid :=
  let g := g.grow (slotsFor windowSize)
  if u32Max < (g.frameOffset + (len - keyLen)) / recordStep then g.rebaseOffsets else g

/-- The walk of a block of at least a key. -/
def walked (wide : Bool) (g : SeenContentGrid) (block : List UInt8) (windowSize : Nat)
    (asks : Bool) : Walked SeenContentGrid :=
  let g := g.makeReady block.length windowSize
  let mask := g.slots.length - 1
  walkBlock (recordKey wide block mask) (probeKey wide block (reachOf windowSize) mask)
    g.frameOffset block.length asks g

/-- The block taken: a hit keeps the search on for a stretch after it. -/
def settle (len : Nat) (w : Walked SeenContentGrid) : Bool × SeenContentGrid :=
  let g : SeenContentGrid := { w.grid with frameOffset := w.grid.frameOffset + len }
  let g : SeenContentGrid :=
    if w.repeats then { g with repeatUntil := g.frameOffset + stickyReach } else g
  (w.repeats || decide (g.frameOffset ≤ g.repeatUntil), g)

theorem settle_hit {w : Walked SeenContentGrid} (hw : w.repeats = true) (len : Nat) :
    settle len w = (true, { w.grid with
      frameOffset := w.grid.frameOffset + len
      repeatUntil := w.grid.frameOffset + len + stickyReach }) := by
  simp only [settle, hw, if_true, Bool.true_or]

theorem settle_miss {w : Walked SeenContentGrid} (hw : w.repeats = false) (len : Nat) :
    settle len w = (decide (w.grid.frameOffset + len ≤ w.grid.repeatUntil),
      { w.grid with frameOffset := w.grid.frameOffset + len }) := by
  simp only [settle, hw, Bool.false_eq_true, if_false, Bool.false_or]

def takeBlock (wide : Bool) (g : SeenContentGrid) (block : List UInt8) (windowSize : Nat)
    (asks : Bool) : Bool × SeenContentGrid :=
  if block.length < keyLen then (false, g.skipBlock block.length)
  else settle block.length (g.walked wide block windowSize asks)

/-- What a frame compressor does with the grid. -/
inductive Op where
  | resetForFrame
  | recordAndReportRepeat (block : List UInt8) (windowSize : Nat)
  | recordSearched (block : List UInt8) (windowSize : Nat)
  | recordUnclassified (block : List UInt8) (windowSize : Nat)
  | skipRecording (len : Nat)
deriving Repr, DecidableEq

/-- One operation and the answer to it, where it is a question. -/
def step (wide : Bool) (g : SeenContentGrid) : Op → Option Bool × SeenContentGrid
  | .resetForFrame => (none, g.resetForFrame)
  | .recordAndReportRepeat block windowSize =>
    let taken := { g with asked := true }.takeBlock wide block windowSize true
    (some taken.1, taken.2)
  | .recordSearched block windowSize =>
    if g.asked then (none, (g.takeBlock wide block windowSize false).2)
    else (none, g.skipBlock block.length)
  | .recordUnclassified block windowSize =>
    (none, ({ g with asked := true }.takeBlock wide block windowSize false).2)
  | .skipRecording len => (none, g.skipBlock len)

/-- The grid after a run of operations. -/
def run (wide : Bool) (g : SeenContentGrid) (ops : List Op) : SeenContentGrid :=
  ops.foldl (fun g op => (g.step wide op).2) g

/-- The answers along a run. -/
def answers (wide : Bool) (g : SeenContentGrid) : List Op → List (Option Bool)
  | [] => []
  | op :: ops => (g.step wide op).1 :: answers wide (g.step wide op).2 ops

end SeenContentGrid

/-- A record with the frame and the offset it was made at. -/
structure SeenRecord where
  tag : Nat
  fingerprint : Nat
  frame : Nat
  offset : Nat
deriving Repr, DecidableEq

/-- The grid as it would be with no end to the offsets and the frames it can count: no origin ever
moves and no epoch comes back. -/
structure EndlessGrid where
  cells : List (Option SeenRecord) := []
  frame : Nat := 0
  frameOffset : Nat := 0
  repeatUntil : Nat := 0
  asked : Bool := false
deriving Repr

namespace EndlessGrid

open SeenContentGrid (keyLen keyAt slotAndTag slotsFor reachOf walkBlock Walked stickyReach Op)

def resetForFrame (e : EndlessGrid) : EndlessGrid := { cells := e.cells, frame := e.frame + 1 }

def skipBlock (e : EndlessGrid) (len : Nat) : EndlessGrid :=
  { e with frameOffset := e.frameOffset + len }

def probeKey (wide : Bool) (block : List UInt8) (reach mask at_ : Nat) (e : EndlessGrid) : Bool :=
  let key := keyAt block at_
  let place := slotAndTag key mask
  let here := e.frameOffset + at_
  (e.cells.getD place.1 none).any fun r =>
    r.tag = place.2 ∧ r.frame = e.frame ∧ r.fingerprint = SeenContentGrid.fingerprint wide key ∧
      r.offset ≤ here ∧ here - r.offset ≤ reach

def recordKey (wide : Bool) (block : List UInt8) (mask at_ : Nat) (e : EndlessGrid) :
    EndlessGrid :=
  let key := keyAt block at_
  let place := slotAndTag key mask
  let made : SeenRecord := ⟨place.2, SeenContentGrid.fingerprint wide key, e.frame, e.frameOffset + at_⟩
  { e with cells := e.cells.set place.1 (some made) }

def grow (wanted : Nat) (e : EndlessGrid) : EndlessGrid :=
  if e.cells.length < wanted then { e with cells := List.replicate wanted none } else e

def walked (wide : Bool) (e : EndlessGrid) (block : List UInt8) (windowSize : Nat)
    (asks : Bool) : Walked EndlessGrid :=
  let e := e.grow (slotsFor windowSize)
  let mask := e.cells.length - 1
  walkBlock (recordKey wide block mask) (probeKey wide block (reachOf windowSize) mask)
    e.frameOffset block.length asks e

/-- The block taken: a hit keeps the search on for a stretch after it. -/
def settle (len : Nat) (w : Walked EndlessGrid) : Bool × EndlessGrid :=
  let e : EndlessGrid := { w.grid with frameOffset := w.grid.frameOffset + len }
  let e : EndlessGrid :=
    if w.repeats then { e with repeatUntil := e.frameOffset + stickyReach } else e
  (w.repeats || decide (e.frameOffset ≤ e.repeatUntil), e)

theorem settle_hit {w : Walked EndlessGrid} (hw : w.repeats = true) (len : Nat) :
    settle len w = (true, { w.grid with
      frameOffset := w.grid.frameOffset + len
      repeatUntil := w.grid.frameOffset + len + stickyReach }) := by
  simp only [settle, hw, if_true, Bool.true_or]

theorem settle_miss {w : Walked EndlessGrid} (hw : w.repeats = false) (len : Nat) :
    settle len w = (decide (w.grid.frameOffset + len ≤ w.grid.repeatUntil),
      { w.grid with frameOffset := w.grid.frameOffset + len }) := by
  simp only [settle, hw, Bool.false_eq_true, if_false, Bool.false_or]

def takeBlock (wide : Bool) (e : EndlessGrid) (block : List UInt8) (windowSize : Nat)
    (asks : Bool) : Bool × EndlessGrid :=
  if block.length < keyLen then (false, e.skipBlock block.length)
  else settle block.length (e.walked wide block windowSize asks)

def step (wide : Bool) (e : EndlessGrid) : Op → Option Bool × EndlessGrid
  | .resetForFrame => (none, e.resetForFrame)
  | .recordAndReportRepeat block windowSize =>
    let taken := { e with asked := true }.takeBlock wide block windowSize true
    (some taken.1, taken.2)
  | .recordSearched block windowSize =>
    if e.asked then (none, (e.takeBlock wide block windowSize false).2)
    else (none, e.skipBlock block.length)
  | .recordUnclassified block windowSize =>
    (none, ({ e with asked := true }.takeBlock wide block windowSize false).2)
  | .skipRecording len => (none, e.skipBlock len)

def run (wide : Bool) (e : EndlessGrid) (ops : List Op) : EndlessGrid :=
  ops.foldl (fun e op => (e.step wide op).2) e

def answers (wide : Bool) (e : EndlessGrid) : List Op → List (Option Bool)
  | [] => []
  | op :: ops => (e.step wide op).1 :: answers wide (e.step wide op).2 ops

/-- The endless grid with the stretch `g` has: to a question that reaches no further back than a
rebase keeps, what `g` is from here on if no origin moves any more. -/
def stickyAs (e : EndlessGrid) (g : SeenContentGrid) : EndlessGrid :=
  { e with repeatUntil := g.repeatUntil + (e.frameOffset - g.frameOffset) }

end EndlessGrid

end Encoding
