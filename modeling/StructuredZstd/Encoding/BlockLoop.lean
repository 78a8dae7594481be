import StructuredZstd.Bits.Bytes
import StructuredZstd.Decoding.BlockDecoder
import StructuredZstd.Encoding.BlockSources
import StructuredZstd.Encoding.PreSplit
import StructuredZstd.Runs.Loop

namespace Encoding

open Runs Bits
open Decoding (BlockType)

/-- The header before a block. Its size is that of the content of a raw block, the count of a
repeated byte, or the length of the compressed payload. -/
structure BlockHeader where
  lastBlock : Bool
  blockType : BlockType
  blockSize : Nat
deriving Repr, DecidableEq

namespace BlockHeader

def encodedBlockType : BlockType → Nat
  | .raw => 0
  | .rle => 1
  | .compressed => 2

def toLeBytes (h : BlockHeader) : List UInt8 :=
  Bits.toLeBytes 3 (h.blockSize <<< 3 ||| encodedBlockType h.blockType <<< 1 ||| h.lastBlock.toNat)

end BlockHeader

inductive CompressionLevel where
  | uncompressed
  | fastest
  | default
  | better
  | best
  | level (n : Int)
deriving Repr, DecidableEq

def minTargetBlockSize : Nat := 1340
def minMaxBlockSize : Nat := 1024

/-- The sizes a caller holds the blocks of a frame to. -/
structure BlockLimits where
  target : Option Nat
  max : Option Nat
  target_mem : ∀ t ∈ target, minTargetBlockSize ≤ t ∧ t ≤ maxBlockSize
  max_mem : ∀ s ∈ max, minMaxBlockSize ≤ s ∧ s ≤ maxBlockSize

namespace BlockLimits

def none : BlockLimits := ⟨Option.none, Option.none, by simp, by simp⟩

def blockCeiling (l : BlockLimits) : Nat :=
  match l.target, l.max with
  | some target, some max => min target max
  | some size, .none | .none, some size => size
  | .none, .none => maxBlockSize

end BlockLimits

/-- The window a matcher searches, with the input behind it that no block has claimed yet, and
whatever else the matcher and the entropy coders hold. -/
structure Ingest (τ : Type) where
  committed : List UInt8
  uncommitted : List UInt8
  rest : τ

def Ingest.history {τ : Type} (m : Ingest τ) : List UInt8 := m.committed ++ m.uncommitted

/-- What the loop asks of the matcher and of `compress_block_encoded`, at one level and with one
dictionary. A cut is moved, never to the front of the block; and a block is committed whole,
whatever is evicted for it. -/
structure BlockEncoder (τ : Type) where
  windowSize : τ → Nat
  fixedBlockLen : Ingest τ → Option Nat
  settleBlockCut : Ingest τ → Nat → Nat → Nat × τ
  compressBlockEncoded : Ingest τ → Bool → Nat → Bool → Ingest τ × List UInt8
  settleBlockCut_pos : ∀ m window cut, 0 < cut → cut < window → 0 < (settleBlockCut m window cut).1
  uncommitted_compressBlockEncoded : ∀ m last blockLen split,
    (compressBlockEncoded m last blockLen split).1.uncommitted = m.uncommitted.drop blockLen

/-- A match the long-distance search knows of, by its place in the frame. -/
structure LongMatch where
  start : Nat
  stop : Nat
deriving Repr, DecidableEq

/-- A cut inside a long match goes to its end, or to the end of the block. -/
def cutOutsideMatches (takenEnd : Nat) (ahead : List LongMatch) (window cut : Nat) : Nat :=
  match ahead with
  | [] => cut
  | found :: ahead =>
    if takenEnd + cut ≤ found.start then cut
    else if takenEnd + cut < found.stop then min (found.stop - takenEnd) window
    else cutOutsideMatches takenEnd ahead window cut

theorem le_cutOutsideMatches {window cut : Nat} (takenEnd : Nat) (ahead : List LongMatch)
    (h : cut < window) : cut ≤ cutOutsideMatches takenEnd ahead window cut := by
  induction ahead with
  | nil => exact Nat.le_refl cut
  | cons found ahead ih =>
    rw [cutOutsideMatches]
    split
    · exact Nat.le_refl cut
    split
    · apply Nat.le_min.mpr
      exact ⟨by omega, Nat.le_of_lt h⟩
    · exact ih

structure FrameCompressor where
  compressionLevel : CompressionLevel
  limits : BlockLimits
  preSplit : Option Nat
  preSplitDisabled : Bool
  postSplitAllowed : Bool
  contentChecksum : Bool

def FrameCompressor.preSplitLevel (f : FrameCompressor) : Option Nat :=
  if f.preSplitDisabled then none else f.preSplit

def blockCapacity (f : FrameCompressor) (windowSize : Nat) : Nat :=
  if windowSize = 0 then f.limits.blockCeiling else min f.limits.blockCeiling windowSize

/-- A block as it is handed on. -/
structure Block where
  last : Bool
  bytes : List UInt8
deriving Repr, DecidableEq

/-- What a frame's loop leaves: the blocks are those it handed to the block encoder, or wrote
itself, in order. -/
structure BlockRun (τ : Type) where
  ingest : Ingest τ
  out : List UInt8
  totalUncompressed : Nat
  hashed : List UInt8
  blocks : List Block

structure BlockLoop (S τ : Type) extends BlockRun τ where
  source : S
  reachedEof : Bool
  savings : Int

variable {S τ : Type} [OwnedBlockSource S]

def sizeHintRemaining (hint : Option Nat) (total : Nat) : Option Nat :=
  match hint with
  | some hint => if total < hint then some (hint - total) else none
  | none => none

/-- The bytes a fill asks for: what the block lacks, held to what the source has. -/
def wantedBytes (source : S) (missing : Nat) : Nat :=
  match OwnedBlockSource.exactRemaining source with
  | some remaining => min missing remaining
  | none => missing

/-- Fill the uncommitted input back up to one block, straight behind the history. -/
def topUp (blockCapacity : Nat) (hint : Option Nat) (x : BlockLoop S τ) : BlockLoop S τ :=
  if x.reachedEof then x
  else
    let history := x.ingest.history
    let want := wantedBytes x.source (blockCapacity - x.ingest.uncommitted.length)
    let filled := OwnedBlockSource.fillBlock x.source history (history.length + want)
      (sizeHintRemaining hint x.totalUncompressed)
    { x with
      source := filled.source
      ingest := { x.ingest with uncommitted := filled.buf.drop x.ingest.committed.length }
      totalUncompressed := x.totalUncompressed + filled.appended
      reachedEof := filled.reachedEof }

/-- The length of the next block, whether it is the last, and the state its cut leaves. -/
def nextCut (f : FrameCompressor) (e : BlockEncoder τ) (blockCapacity : Nat) (m : Ingest τ)
    (reachedEof : Bool) (savings : Int) : Nat × Bool × Ingest τ :=
  let available := m.uncommitted.length
  match e.fixedBlockLen m with
  | some len =>
    -- an empty block would end the frame
    if 0 < len ∧ len < available then (len, false, m) else (available, reachedEof, m)
  | none =>
    if available = blockCapacity then
      let splitAt := optimalBlockSizeWith f.preSplitLevel m.uncommitted
        (if reachedEof then available else blockCapacity) blockCapacity savings
      if splitAt < available then
        let (splitAt, rest) := e.settleBlockCut m available splitAt
        let m := { m with rest := rest }
        if splitAt < available then (splitAt, false, m) else (available, reachedEof, m)
      else (available, reachedEof, m)
    else (available, reachedEof, m)

/-- The empty input takes one block all the same. -/
def emptyBlock : List UInt8 := (BlockHeader.mk true .raw 0).toLeBytes

/-- Cut the next block and hand it on. -/
def emitBlock (f : FrameCompressor) (e : BlockEncoder τ) (blockCapacity : Nat)
    (x : BlockLoop S τ) : Next (BlockLoop S τ) (BlockRun τ) :=
  let (blockLen, last, m) := nextCut f e blockCapacity x.ingest x.reachedEof x.savings
  let block := m.uncommitted.take blockLen
  let hashed := if f.contentChecksum then x.hashed ++ block else x.hashed
  if blockLen = 0 then
    .done { x.toBlockRun with
      ingest := m, out := x.out ++ emptyBlock, hashed := hashed, blocks := x.blocks ++ [⟨true, []⟩] }
  else
    -- a block the matcher laid out stays one physical block
    let (m', emitted) := e.compressBlockEncoded m last blockLen
      (f.postSplitAllowed && (e.fixedBlockLen x.ingest).isNone)
    let run : BlockRun τ := { x.toBlockRun with
      ingest := m', out := x.out ++ emitted, hashed := hashed, blocks := x.blocks ++ [⟨last, block⟩] }
    if last then .done run
    else .again { run with
      source := x.source
      reachedEof := x.reachedEof
      savings := x.savings + (blockLen - emitted.length : Int) }

def blockBody (f : FrameCompressor) (e : BlockEncoder τ) (blockCapacity : Nat) (hint : Option Nat)
    (x : BlockLoop S τ) : Next (BlockLoop S τ) (BlockRun τ) :=
  emitBlock f e blockCapacity (topUp blockCapacity hint x)

/-- The block loop of an uncompressed frame reads each block straight behind its header. -/
def rawBody (f : FrameCompressor) (blockCapacity : Nat) (hint : Option Nat)
    (x : BlockLoop S τ) : Next (BlockLoop S τ) (BlockRun τ) :=
  let payloadAt := x.out.length + 3
  let filled := OwnedBlockSource.fillBlock x.source (x.out ++ [0, 0, 0]) (payloadAt + blockCapacity)
    (sizeHintRemaining hint x.totalUncompressed)
  let payload := filled.buf.drop payloadAt
  let header : BlockHeader := ⟨filled.reachedEof, .raw, filled.appended⟩
  let run : BlockRun τ := { x.toBlockRun with
    out := x.out ++ header.toLeBytes ++ payload
    totalUncompressed := x.totalUncompressed + filled.appended
    hashed := if f.contentChecksum then x.hashed ++ payload else x.hashed
    blocks := x.blocks ++ [⟨filled.reachedEof, payload⟩] }
  if filled.reachedEof then .done run
  else .again { run with source := filled.source, reachedEof := false, savings := x.savings }

def BlockLoop.start (source : S) (m : Ingest τ) (out : List UInt8) : BlockLoop S τ :=
  { ingest := m, out := out, totalUncompressed := 0, hashed := [], blocks := []
    source := source, reachedEof := false, savings := 0 }

/-- The block loop of one frame, for at most `fuel` rounds. -/
def runOwnedBlockLoop (fuel : Nat) (f : FrameCompressor) (e : BlockEncoder τ) (source : S)
    (hint : Option Nat) (m : Ingest τ) (out : List UInt8) : Option (BlockRun τ) :=
  let capacity := blockCapacity f (e.windowSize m.rest)
  let start := BlockLoop.start source m out
  if f.compressionLevel = .uncompressed then loop (rawBody f capacity hint) fuel start
  else loop (blockBody f e capacity hint) fuel start

end Encoding
