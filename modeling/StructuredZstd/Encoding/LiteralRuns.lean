import StructuredZstd.Lz.ChunkedCopy

namespace Encoding

open Lz
open Bits.Circular (overwrite)

def literalInlineCopyMax : Nat := 2048

/-- What must remain of the block past a run that is copied in whole chunks. -/
def wildcopySlack : Nat := 32

def nextMultipleOf (n k : Nat) : Nat := (n + (k - 1)) / k * k

def chunk (w o : Nat) : List (Nat × Nat) := [(o, w)]

def chunkPair (w o : Nat) : List (Nat × Nat) := [(o, w), (o + w, w)]

/-- `copy_scalar`, `copy_sse2`, `copy_neon` and `copy_simd128`, by the width of their stride. -/
def copyStrides (w len : Nat) : List (Nat × Nat) := (belowLoop (chunk w) w len len 0).1

def copyScalar : Nat → List (Nat × Nat) := copyStrides 8
def copySse2 : Nat → List (Nat × Nat) := copyStrides 16
def copyNeon : Nat → List (Nat × Nat) := copyStrides 16
def copySimd128 : Nat → List (Nat × Nat) := copyStrides 16

def copyAvx2 (len : Nat) : List (Nat × Nat) :=
  let (pairs, copied) := belowLoop (chunkPair 32) 64 (len / 64 * 64) len 0
  pairs ++ if copied < len then [(copied, 32)] else []

def copyExactSmall (len : Nat) : List (Nat × Nat) :=
  if len ≤ 8 then (belowLoop (chunk 1) 1 len len 0).1
  else if len ≤ 16 then [(0, 8), (len - 8, 8)]
  else [(0, 8), (8, 8), (len - 16, 8), (len - 8, 8)]

/-- Pairs of chunks, then single ones, then one that ends where the copy does. -/
def exactPairs (w len : Nat) : List (Nat × Nat) :=
  let (pairs, o) := roomLoop (chunkPair w) (2 * w) len len 0
  let (singles, o') := roomLoop (chunk w) w len len o
  pairs ++ singles ++ if o' < len then [(len - w, w)] else []

def copyExactAvx2 (len : Nat) : List (Nat × Nat) :=
  if len ≤ 64 then [(0, 32), (len - 32, 32)]
  else if len ≤ 128 then [(0, 32), (32, 32), (len - 64, 32), (len - 32, 32)]
  else exactPairs 32 len

def copyExactSse2 (len : Nat) : List (Nat × Nat) :=
  if len ≤ 64 then [(0, 16), (16, 16), (len - 32, 16), (len - 16, 16)]
  else exactPairs 16 len

def copyExactNeon : Nat → List (Nat × Nat) := exactPairs 16
def copyExactSimd128 : Nat → List (Nat × Nat) := exactPairs 16

def copyExactU64 (len : Nat) : List (Nat × Nat) :=
  let (words, o) := roomLoop (chunk 8) 8 len len 0
  words ++ if o < len then [(len - 8, 8)] else []

/-- What `gather_body` is given: the exact kernel of a medium run, the overshooting one, and its
chunk. -/
structure GatherKernels where
  medium : Nat → List (Nat × Nat)
  wild : Nat → List (Nat × Nat)
  chunk : Nat

def gatherAvx2 : GatherKernels := ⟨copyExactAvx2, copyAvx2, 32⟩
def gatherSse2 : GatherKernels := ⟨copyExactSse2, copySse2, 16⟩
def gatherNeon : GatherKernels := ⟨copyExactNeon, copyNeon, 16⟩
def gatherSimd128 : GatherKernels := ⟨copyExactSimd128, copySimd128, 16⟩

/-- The scalar chunk is a `usize`, four bytes on a 32-bit target. -/
def gatherScalar (bits64 : Bool) : GatherKernels :=
  ⟨copyExactU64, copyScalar, if bits64 then 8 else 4⟩

inductive GatherTier where
  | avx2
  | sse2
  | neon
  | simd128
  | scalar (bits64 : Bool)
deriving Repr, DecidableEq

def GatherTier.kernels : GatherTier → GatherKernels
  | avx2 => gatherAvx2
  | sse2 => gatherSse2
  | neon => gatherNeon
  | simd128 => gatherSimd128
  | scalar bits64 => gatherScalar bits64

structure RawSequence where
  ll : Nat
  ml : Nat
  offBase : Nat
deriving Repr, DecidableEq

/-- A `RegionVec`: as many cells as its capacity, the first `len` of them its content. -/
structure RegionVec where
  cells : List UInt8
  len : Nat
deriving Repr, DecidableEq

def RegionVec.bytes (v : RegionVec) : List UInt8 := v.cells.take v.len

section Gather

variable (k : GatherKernels) (block : List UInt8) (out : Nat)

/-- `copy_run!`: `none` is a failed assertion or an access out of bounds. -/
def copyRun (pos written len : Nat) (cells : List UInt8) : Option (List UInt8) :=
  let s := block.drop pos
  let d := out + written
  if pos + len + wildcopySlack ≤ block.length then
    if len < literalInlineCopyMax then do
      let cells ← copyChunks s d (k.wild k.chunk) cells
      if len > k.chunk then
        copyChunks (s.drop k.chunk) (d + k.chunk) (k.wild (nextMultipleOf (len - k.chunk) k.chunk))
          cells
      else some cells
    else move len cells d (.apart s)
  else if len ≤ block.length - pos then
    if len ≤ 32 then if len ≠ 0 then copyChunks s d (copyExactSmall len) cells else some cells
    else if len < literalInlineCopyMax then copyChunks s d (k.medium len) cells
    else move len cells d (.apart s)
  else none

/-- The loop over the sequences and the tail: the cells, `pos` before the tail, and `written` after
it. -/
def gatherRuns (tail : Nat) : List RawSequence → Nat → Nat → List UInt8 →
    Option (List UInt8 × Nat × Nat)
  | [], pos, written, cells => do
    let cells ← copyRun k block out pos written tail cells
    some (cells, pos, written + tail)
  | seq :: sequences, pos, written, cells => do
    let cells ← copyRun k block out pos written seq.ll cells
    if seq.ml ≤ block.length - (pos + seq.ll) then
      gatherRuns tail sequences (pos + seq.ll + seq.ml) (written + seq.ll) cells
    else none

end Gather

def gatherBody (k : GatherKernels) (block : List UInt8) (sequences : List RawSequence) (tail : Nat)
    (dst : RegionVec) : Option RegionVec :=
  if tail ≤ block.length then do
    let (cells, pos, written) ← gatherRuns k block dst.len tail sequences 0 0 dst.cells
    if pos + tail = block.length then some ⟨cells, dst.len + written⟩ else none
  else none

def gatherLiterals (tier : GatherTier) (block : List UInt8) (sequences : List RawSequence)
    (tail : Nat) (dst : RegionVec) : Option RegionVec :=
  if dst.cells.length - dst.len < block.length then none
  else gatherBody tier.kernels block sequences tail dst

theorem chunk_covers (w o : Nat) : Lz.Covers o (chunk w o) (o + w) :=
  .single (Nat.le_refl o) (Nat.le_add_right o w)

theorem chunkPair_covers (w o : Nat) : Lz.Covers o (chunkPair w o) (o + 2 * w) := by
  rw [Nat.two_mul, ← Nat.add_assoc]
  exact .step (Nat.le_refl o) (Nat.le_add_right o w) (chunk_covers w (o + w))

theorem copyStrides_covers {w : Nat} (hw : 0 < w) (len : Nat) :
    ∃ stop, Lz.Covers 0 (copyStrides w len) stop ∧ len ≤ stop ∧ stop < max 1 (len + w) ∧
      (w ∣ len → stop = len) := by
  obtain ⟨hcov, hle, hlt, hdvd⟩ :=
    @belowLoop_covers (chunk w) w len (chunk_covers w) hw len 0 (by simp)
  exact ⟨_, hcov, hle, by simpa using hlt, fun hd => hdvd (by simpa using hd) (Nat.zero_le len)⟩

theorem copyAvx2_covers {len : Nat} (h : 32 ∣ len) : Lz.Covers 0 (copyAvx2 len) len := by
  obtain ⟨hcov, hle, -, hdvd⟩ := @belowLoop_covers (chunkPair 32) (2 * 32) (len / 64 * 64)
    (chunkPair_covers 32) (by simp) len 0 (by omega)
  have hend := hdvd (by simp) (Nat.zero_le _)
  rw [hend] at hcov
  simp only [copyAvx2, hend]
  split
  · have hres : len / 64 * 64 + 32 = len := by omega
    have hlast := chunk_covers 32 (len / 64 * 64)
    rw [hres] at hlast
    exact hcov.append hlast
  · have hfull : len / 64 * 64 = len := by omega
    rw [hfull] at hcov
    rw [hfull, List.append_nil]
    exact hcov

/-- The two chunks that end a copy, behind two that begin it. -/
theorem twoTails_covers {w len : Nat} (hle : 2 * w ≤ len) (hlt : len ≤ 4 * w) :
    Lz.Covers (w + w) [(len - 2 * w, w), (len - w, w)] len := by
  have hlast : Lz.Covers (max (w + w) (len - 2 * w + w)) [(len - w, w)] (len - w + w) :=
    .single (by omega) (by omega)
  rw [Nat.sub_add_cancel (by omega)] at hlast
  exact .cons (by omega) hlast

theorem copyExactSmall_covers {len : Nat} (h : len ≤ 32) : Lz.Covers 0 (copyExactSmall len) len := by
  simp only [copyExactSmall]
  split
  · obtain ⟨stop, hcov, -, -, hdvd⟩ := @copyStrides_covers 1 (by simp) len
    rw [hdvd (Nat.one_dvd len)] at hcov
    exact hcov
  · split
    · have hlast : Lz.Covers (0 + 8) [(len - 8, 8)] (len - 8 + 8) := .single (by omega) (by omega)
      rw [Nat.sub_add_cancel (by omega)] at hlast
      exact .step (by simp) (by simp) hlast
    · have hlast := @twoTails_covers 8 len (by omega) (by omega)
      exact .step (by simp) (by simp) (.step (by simp) (by simp) hlast)

/-- The chunk that ends the copy, where the loops before it left a rest. -/
theorem overlappingTail_covers {o w len : Nat} (hle : o ≤ len) (hlt : len < o + w) (hw : w ≤ len) :
    Lz.Covers o (if o < len then [(len - w, w)] else []) len := by
  split
  · have hlast : Lz.Covers o [(len - w, w)] (len - w + w) := .single (by omega) (by omega)
    rwa [Nat.sub_add_cancel hw] at hlast
  · have hend : o = len := by omega
    rw [hend]
    exact .nil len

theorem exactPairs_covers {w len : Nat} (hw : 0 < w) (hlen : w ≤ len) :
    Lz.Covers 0 (exactPairs w len) len := by
  obtain ⟨hpairs, hle, -⟩ := roomLoop_covers (chunkPair_covers w) (by omega) len 0
    (Nat.le_add_left len 0) (Nat.zero_le len)
  obtain ⟨hsingles, hle', hlt'⟩ := roomLoop_covers (chunk_covers w) hw len
    (roomLoop (chunkPair w) (2 * w) len len 0).2 (by omega) hle
  exact (hpairs.append hsingles).append (overlappingTail_covers hle' hlt' hlen)

theorem copyExactAvx2_covers {len : Nat} (h : 33 ≤ len) : Lz.Covers 0 (copyExactAvx2 len) len := by
  simp only [copyExactAvx2]
  split
  · have hlast : Lz.Covers (0 + 32) [(len - 32, 32)] (len - 32 + 32) := .single (by omega) (by omega)
    rw [Nat.sub_add_cancel (by omega)] at hlast
    exact .step (by simp) (by simp) hlast
  · split
    · have hlast := @twoTails_covers 32 len (by omega) (by omega)
      exact .step (by simp) (by simp) (.step (by simp) (by simp) hlast)
    · exact exactPairs_covers (by simp) (by omega)

theorem copyExactSse2_covers {len : Nat} (h : 33 ≤ len) : Lz.Covers 0 (copyExactSse2 len) len := by
  simp only [copyExactSse2]
  split
  · have hlast := @twoTails_covers 16 len (by omega) (by omega)
    exact .step (by simp) (by simp) (.step (by simp) (by simp) hlast)
  · exact exactPairs_covers (by simp) (by omega)

theorem copyExactU64_covers {len : Nat} (h : 33 ≤ len) : Lz.Covers 0 (copyExactU64 len) len := by
  obtain ⟨hwords, hle, hlt⟩ := roomLoop_covers (chunk_covers 8) (by simp) len 0
    (Nat.le_add_left len 0) (Nat.zero_le len)
  exact hwords.append (overlappingTail_covers hle hlt (by omega))

/-- Kernels that copy what they are asked for, the overshooting one by whole chunks and by no more
than the slack with the chunk before it. -/
structure GatherKernels.Sound (k : GatherKernels) : Prop where
  chunk_pos : 0 < k.chunk
  chunk_le : k.chunk ≤ wildcopySlack
  medium : ∀ len, 33 ≤ len → Lz.Covers 0 (k.medium len) len
  wild : ∀ n, 0 < n → k.chunk ∣ n → ∃ stop, Lz.Covers 0 (k.wild n) stop ∧ n ≤ stop ∧
    stop + k.chunk ≤ n + wildcopySlack

theorem strides_sound {w : Nat} (hw : 0 < w) (hle : w ≤ 16) {medium : Nat → List (Nat × Nat)}
    (hmedium : ∀ len, 33 ≤ len → Lz.Covers 0 (medium len) len) :
    (GatherKernels.mk medium (copyStrides w) w).Sound where
  chunk_pos := hw
  chunk_le := by simp only [wildcopySlack]; omega
  medium := hmedium
  wild n hn hd := by
    obtain ⟨stop, hcov, hstop, -, hdvd⟩ := copyStrides_covers hw n
    have heq := hdvd hd
    refine ⟨stop, hcov, hstop, ?_⟩
    simp only [wildcopySlack]
    omega

theorem GatherTier.sound (tier : GatherTier) : tier.kernels.Sound := by
  cases tier with
  | avx2 =>
    refine ⟨by simp [kernels, gatherAvx2], by simp [kernels, gatherAvx2, wildcopySlack],
      fun len h => copyExactAvx2_covers h, fun n _ hd => ⟨n, copyAvx2_covers hd, Nat.le_refl n, ?_⟩⟩
    simp [kernels, gatherAvx2, wildcopySlack]
  | sse2 => exact strides_sound (by simp) (by simp) fun len h => copyExactSse2_covers h
  | neon => exact strides_sound (by simp) (by simp) fun len h => exactPairs_covers (by simp) (by omega)
  | simd128 =>
    exact strides_sound (by simp) (by simp) fun len h => exactPairs_covers (by simp) (by omega)
  | scalar bits64 =>
    cases bits64 with
    | true => exact strides_sound (by simp) (by simp) fun len h => copyExactU64_covers h
    | false =>
      -- the chunk of four is half a stride of the copy
      refine ⟨by simp [kernels, gatherScalar], by simp [kernels, gatherScalar, wildcopySlack],
        fun len h => copyExactU64_covers h, fun n hn _ => ?_⟩
      obtain ⟨stop, hcov, hle, hlt, -⟩ := @copyStrides_covers 8 (by simp) n
      refine ⟨stop, hcov, hle, ?_⟩
      simp only [kernels, gatherScalar, wildcopySlack, Bool.false_eq_true, if_false]
      omega

section Runs

variable {k : GatherKernels} {block cells : List UInt8} {out pos written len : Nat}

theorem nextMultipleOf_spec (n : Nat) {k : Nat} (hk : 0 < k) :
    n ≤ nextMultipleOf n k ∧ k ∣ nextMultipleOf n k ∧ nextMultipleOf n k < n + k := by
  have hdiv := Nat.div_add_mod (n + (k - 1)) k
  have hmod := Nat.mod_lt (n + (k - 1)) hk
  rw [Nat.mul_comm] at hdiv
  refine ⟨?_, Nat.dvd_mul_left k _, ?_⟩ <;> simp only [nextMultipleOf] <;> omega

/-- A copy of at least `len` bytes that stayed inside. -/
theorem ran_of_overwrite {stop : Nat} (hread : stop ≤ (block.drop pos).length)
    (hfit : out + written + stop ≤ cells.length) (hlen : len ≤ stop) :
    (overwrite cells (out + written) ((block.drop pos).take stop)).length = cells.length ∧
      (overwrite cells (out + written) ((block.drop pos).take stop)).take (out + written + len) =
        cells.take (out + written) ++ (block.drop pos).take len := by
  refine ⟨Bits.Circular.length_overwrite ?_, take_overwrite hread hfit hlen⟩
  rw [List.length_take]
  omega

theorem copyRun_spec (hk : k.Sound) (hfits : pos + len ≤ block.length) (hwritten : written ≤ pos)
    (hroom : out + block.length ≤ cells.length) :
    ∃ cells', copyRun k block out pos written len cells = some cells' ∧
      cells'.length = cells.length ∧
      cells'.take (out + written + len) =
        cells.take (out + written) ++ (block.drop pos).take len := by
  have hdrop : (block.drop pos).length = block.length - pos := List.length_drop ..
  have hexact : move len cells (out + written) (.apart (block.drop pos)) =
      some (overwrite cells (out + written) ((block.drop pos).take len)) :=
    if_pos ⟨by simp only [Source.read]; omega, by omega⟩
  have hchunks : ∀ chunks, Lz.Covers 0 chunks len →
      copyChunks (block.drop pos) (out + written) chunks cells =
        some (overwrite cells (out + written) ((block.drop pos).take len)) :=
    fun chunks hcov => copyChunks_all hcov (by omega) (by omega)
  have hran := @ran_of_overwrite block cells out pos written len len (by omega) (by omega)
    (Nat.le_refl len)
  simp only [copyRun]
  split
  · rename_i hslack
    split
    · -- whole chunks, into what the next run writes over
      obtain ⟨first, hcov, hle, hbound⟩ := hk.wild k.chunk hk.chunk_pos (Nat.dvd_refl _)
      have hchunk := hk.chunk_le
      have hcopy := @copyChunks_all _ (block.drop pos) cells (out + written) first _ hcov
        (by omega) (by omega)
      rw [hcopy, Option.bind_eq_bind, Option.bind_some]
      split
      · rename_i hlong
        obtain ⟨hnext, hdvd, hlt⟩ := nextMultipleOf_spec (len - k.chunk) hk.chunk_pos
        obtain ⟨second, hcov', hle', hbound'⟩ := hk.wild _ (by omega) hdvd
        have hwide := @Bits.Circular.length_overwrite _ cells (out + written)
          ((block.drop pos).take first) (by rw [List.length_take]; omega)
        have hcopy' := @copyChunks_all _ ((block.drop pos).drop k.chunk)
          (overwrite cells (out + written) ((block.drop pos).take first))
          (out + written + k.chunk) second _ hcov' (by rw [List.length_drop]; omega) (by omega)
        rw [overwrite_chunk (by omega) (by omega) (by omega) hle] at hcopy'
        exact ⟨_, hcopy', ran_of_overwrite (by omega) (by omega) (by omega)⟩
      · exact ⟨_, rfl, ran_of_overwrite (by omega) (by omega) (by omega)⟩
    · exact ⟨_, hexact, hran⟩
  · rw [if_pos (by omega)]
    split
    · split
      · exact ⟨_, hchunks _ (copyExactSmall_covers ‹_›), hran⟩
      · rename_i hempty
        have hnone : len = 0 := Decidable.not_not.mp hempty
        refine ⟨cells, rfl, rfl, ?_⟩
        rw [hnone, List.take_zero, List.append_nil, Nat.add_zero]
    · split
      · exact ⟨_, hchunks _ (hk.medium len (by omega)), hran⟩
      · exact ⟨_, hexact, hran⟩

/-- Start and length of every run, the tail's too. -/
def literalRuns (tail : Nat) : List RawSequence → Nat → List (Nat × Nat)
  | [], pos => [(pos, tail)]
  | seq :: sequences, pos => (pos, seq.ll) :: literalRuns tail sequences (pos + seq.ll + seq.ml)

/-- How much of the block the sequences describe. -/
def described (sequences : List RawSequence) : Nat :=
  (sequences.map fun seq => seq.ll + seq.ml).sum

def runBytes (block : List UInt8) (runs : List (Nat × Nat)) : List UInt8 :=
  runs.flatMap fun (start, len) => (block.drop start).take len

theorem gatherRuns_spec (hk : k.Sound) {tail : Nat} (sequences : List RawSequence)
    (hfits : pos + described sequences + tail = block.length) (hwritten : written ≤ pos)
    (hroom : out + block.length ≤ cells.length) :
    ∃ cells' written', gatherRuns k block out tail sequences pos written cells =
        some (cells', block.length - tail, written') ∧
      cells'.length = cells.length ∧
      cells'.take (out + written') =
        cells.take (out + written) ++ runBytes block (literalRuns tail sequences pos) := by
  induction sequences generalizing pos written cells with
  | nil =>
    simp only [described, List.map_nil, List.sum_nil, Nat.add_zero] at hfits
    obtain ⟨cells', hcopy, hlen, htake⟩ := @copyRun_spec k block cells out pos written tail hk
      (by omega) hwritten hroom
    refine ⟨cells', written + tail, ?_, hlen, ?_⟩
    · simp only [gatherRuns, hcopy, Option.bind_eq_bind, Option.bind_some]
      rw [show pos = block.length - tail by omega]
    · rw [← Nat.add_assoc, htake]
      simp [literalRuns, runBytes]
  | cons seq sequences ih =>
    simp only [described, List.map_cons, List.sum_cons] at hfits
    obtain ⟨cells', hcopy, hlen, htake⟩ := @copyRun_spec k block cells out pos written seq.ll hk
      (by omega) hwritten hroom
    obtain ⟨cells₂, written', hrest, hlen₂, htake₂⟩ :=
      @ih cells' (pos + seq.ll + seq.ml) (written + seq.ll)
        (by simp only [described]; omega) (by omega) (by omega)
    refine ⟨cells₂, written', ?_, hlen₂.trans hlen, ?_⟩
    · simp only [gatherRuns, hcopy, Option.bind_eq_bind, Option.bind_some]
      rw [if_pos (by omega)]
      exact hrest
    · rw [htake₂, ← Nat.add_assoc, htake, List.append_assoc]
      rfl

/-- The gathered output is the runs, one behind the other: no access leaves the block or the
buffer. -/
theorem gather_literals_concat (tier : GatherTier) (block : List UInt8)
    (sequences : List RawSequence) (tail : Nat) (dst : RegionVec)
    (hcover : described sequences + tail = block.length) (hlen : dst.len ≤ dst.cells.length)
    (hroom : block.length ≤ dst.cells.length - dst.len) :
    ∃ dst', gatherLiterals tier block sequences tail dst = some dst' ∧
      dst'.bytes = dst.bytes ++ runBytes block (literalRuns tail sequences 0) ∧
      dst'.cells.length = dst.cells.length := by
  obtain ⟨cells', written, hrun, hlen', htake⟩ := @gatherRuns_spec tier.kernels block
    dst.cells dst.len 0 0 tier.sound tail sequences (by omega) (Nat.le_refl 0) (by omega)
  refine ⟨⟨cells', dst.len + written⟩, ?_, ?_, hlen'⟩
  · rw [gatherLiterals, if_neg (Nat.not_lt.mpr hroom), gatherBody, if_pos (by omega), hrun]
    simp only [Option.bind_eq_bind, Option.bind_some]
    rw [if_pos (by omega)]
  · rw [RegionVec.bytes, RegionVec.bytes]
    exact htake

/-- Sixty bytes: a run of more than a chunk and one of less, with room to spare behind both, and a
tail copied to its end. -/
def gatherBlock : List UInt8 := (List.range 60).map UInt8.ofNat

theorem gather_literals_concat_chunked :
    ∃ dst', gatherLiterals .sse2 gatherBlock [⟨20, 4, 1⟩, ⟨3, 10, 1⟩] 23
        ⟨9 :: List.replicate 60 0, 1⟩ = some dst' ∧
      dst'.bytes = [9] ++ (gatherBlock.take 20 ++ ((gatherBlock.drop 24).take 3 ++
        (gatherBlock.drop 37).take 23)) ∧
      dst'.cells.length = 61 := by
  have hruns : runBytes gatherBlock (literalRuns 23 [⟨20, 4, 1⟩, ⟨3, 10, 1⟩] 0) =
      gatherBlock.take 20 ++ ((gatherBlock.drop 24).take 3 ++ (gatherBlock.drop 37).take 23) := by
    decide
  rw [← hruns]
  exact gather_literals_concat .sse2 gatherBlock [⟨20, 4, 1⟩, ⟨3, 10, 1⟩] 23
    ⟨9 :: List.replicate 60 0, 1⟩ (by decide) (by simp) (by decide)

end Runs

end Encoding
