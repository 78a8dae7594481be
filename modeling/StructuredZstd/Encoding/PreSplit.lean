import Mathlib.Data.List.Basic
import Mathlib.Data.List.Range
import Mathlib.Tactic.Ring

namespace Encoding

/-- The most bytes a block holds. -/
def maxBlockSize : Nat := 128 * 1024

namespace PreSplit

def blockMin : Nat := 3500
def thresholdPenaltyRate : Nat := 16
def thresholdBase : Nat := thresholdPenaltyRate - 2
def thresholdPenalty : Nat := 3
def chunkSize : Nat := 8 * 1024
def hashLogMax : Nat := 10
def knuth : UInt32 := 0x9E3779B9
def bordersSegment : Nat := 512

/-- What a stretch of input looks like: how often each slot was hit, and by how many samples. -/
structure Fingerprint where
  events : List Nat
  nbEvents : Nat
deriving Repr, DecidableEq

def Fingerprint.empty : Fingerprint := ⟨List.replicate (2 ^ hashLogMax) 0, 0⟩

def hit (events : List Nat) (slot : Nat) : List Nat := events.modify slot (· + 1)

/-- The slot of the two bytes at `n`, or of the one there when the table has a slot for each. -/
def hash2 (src : List UInt8) (n hashLog : Nat) : Nat :=
  if hashLog = 8 then (src.getD n 0).toNat
  else
    let value := (src.getD n 0).toNat + 256 * (src.getD (n + 1) 0).toNat
    ((UInt32.ofNat value * knuth) >>> UInt32.ofNat (32 - hashLog)).toNat

/-- Only the slots the hash reaches are cleared, and the samples are counted by a division. -/
def recordFingerprint (fp : Fingerprint) (src : List UInt8) (samplingRate hashLog : Nat) :
    Fingerprint :=
  let cleared := List.replicate (2 ^ hashLog) 0 ++ fp.events.drop (2 ^ hashLog)
  if src.length < 2 then ⟨cleared, 0⟩
  else
    let limit := src.length - 1
    let samples := (List.range limit).filter (· % samplingRate = 0)
    ⟨samples.foldl (fun events n => hit events (hash2 src n hashLog)) cleared,
      limit / samplingRate⟩

def recordByteHistogram (fp : Fingerprint) (src : List UInt8) : Fingerprint :=
  let cleared := List.replicate 256 0 ++ fp.events.drop 256
  ⟨src.foldl (fun events b => hit events b.toNat) cleared, src.length⟩

def absDiff (a b : Nat) : Nat := (a - b) + (b - a)

def distance (lhs rhs : Fingerprint) (hashLog : Nat) : Nat :=
  ((List.range (2 ^ hashLog)).map fun idx =>
    absDiff (lhs.events.getD idx 0 * rhs.nbEvents) (rhs.events.getD idx 0 * lhs.nbEvents)).sum

def fingerprintsDiffer (reference newFp : Fingerprint) (penalty hashLog : Nat) : Bool :=
  reference.nbEvents * newFp.nbEvents * (thresholdBase + penalty) / thresholdPenaltyRate
    ≤ distance reference newFp hashLog

def mergeEvents (acc newFp : Fingerprint) (hashLog : Nat) : Fingerprint :=
  let slots := 2 ^ hashLog
  ⟨List.zipWith (· + ·) (acc.events.take slots) (newFp.events.take slots) ++ acc.events.drop slots,
    acc.nbEvents + newFp.nbEvents⟩

/-- The chunks after the first, until one differs from all before it. -/
def walkChunks (block : List UInt8) (samplingRate hashLog : Nat) :
    Nat → Nat → Nat → Fingerprint → Fingerprint → Nat
  | 0, _, _, _, _ => block.length
  | chunks + 1, pos, penalty, past, newEvents =>
    if block.length - chunkSize < pos then block.length
    else
      let newEvents :=
        recordFingerprint newEvents ((block.drop pos).take chunkSize) samplingRate hashLog
      if fingerprintsDiffer past newEvents penalty hashLog then pos
      else walkChunks block samplingRate hashLog chunks (pos + chunkSize) (penalty - 1)
        (mergeEvents past newEvents hashLog) newEvents

def splitBlockByChunks (block : List UInt8) (level : Nat) : Nat :=
  let (samplingRate, hashLog) := match level - 1 with
    | 0 => (43, 8)
    | 1 => (11, 9)
    | 2 => (5, 10)
    | _ => (1, 10)
  let past := recordFingerprint .empty (block.take chunkSize) samplingRate hashLog
  walkChunks block samplingRate hashLog (block.length / chunkSize) chunkSize thresholdPenalty past
    .empty

/-- A histogram of each end, and one of the middle to say where between them the change is. -/
def splitBlockFromBorders (block : List UInt8) : Nat :=
  let blockSize := block.length
  let past := recordByteHistogram .empty (block.take bordersSegment)
  let newFp := recordByteHistogram .empty (block.drop (blockSize - bordersSegment))
  if ¬ fingerprintsDiffer past newFp 0 8 then blockSize
  else
    let midStart := blockSize / 2 - bordersSegment / 2
    let middle := recordByteHistogram .empty ((block.drop midStart).take bordersSegment)
    let distFromBegin := distance past middle 8
    let distFromEnd := distance newFp middle 8
    if absDiff distFromBegin distFromEnd < bordersSegment * bordersSegment / 3 then 64 * 1024
    else if distFromEnd < distFromBegin then 32 * 1024
    else 96 * 1024

end PreSplit

open PreSplit in
/-- The next block's size. Only a full block of the largest size is split, once what was saved
pays for it. -/
def optimalBlockSizeWith (preSplit : Option Nat) (block : List UInt8)
    (remainingSrcSize blockSizeMax : Nat) (savings : Int) : Nat :=
  match preSplit with
  | none => min remainingSrcSize blockSizeMax
  | some splitLevel =>
    if remainingSrcSize < maxBlockSize ∨ blockSizeMax < maxBlockSize then
      min remainingSrcSize blockSizeMax
    else if savings < 3 then maxBlockSize
    else if block.length < maxBlockSize then min remainingSrcSize blockSizeMax
    else
      let rawSplit := if splitLevel = 0 then splitBlockFromBorders (block.take maxBlockSize)
        else splitBlockByChunks (block.take maxBlockSize) splitLevel
      min (max rawSplit blockMin) maxBlockSize

/-- The splitter never proposes an empty block while there is input. -/
theorem optimalBlockSizeWith_pos {preSplit : Option Nat} {block : List UInt8}
    {remainingSrcSize blockSizeMax : Nat} {savings : Int} (hr : 0 < remainingSrcSize)
    (hm : 0 < blockSizeMax) :
    0 < optimalBlockSizeWith preSplit block remainingSrcSize blockSizeMax savings := by
  have hmin : 0 < min remainingSrcSize blockSizeMax := Nat.lt_min.mpr ⟨hr, hm⟩
  have hblock : 0 < maxBlockSize := by decide
  cases preSplit with
  | none => exact hmin
  | some splitLevel =>
    rw [optimalBlockSizeWith]
    split
    · exact hmin
    split
    · exact hblock
    split
    · exact hmin
    · apply Nat.lt_min.mpr
      exact ⟨Nat.lt_of_lt_of_le (by decide) (Nat.le_max_right _ PreSplit.blockMin), hblock⟩

end Encoding
