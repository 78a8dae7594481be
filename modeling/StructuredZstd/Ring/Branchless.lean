import StructuredZstd.Ring.QueueRuns

namespace Ring

open Bits.Circular
open Decoding (wildcopyOverlength)

/-- A copy from one slot of the memory to another. -/
def copySlots (k : CpuKernel) (mem : List UInt8) (src srcCap dst dstCap n : Nat) : List UInt8 :=
  copyBytesOvershooting k (mem.drop src) srcCap mem dst dstCap n

/-- The set bits of the four lengths. -/
def copyCase (m1InF1 m2InF1 m1InF2 m2InF2 : Nat) : Nat :=
  (decide (0 < m1InF1)).toNat ||| (decide (0 < m2InF1)).toNat <<< 1 |||
    (decide (0 < m1InF2)).toNat <<< 2 ||| (decide (0 < m2InF2)).toNat <<< 3

/-- Copies from two source slots to two free parts; `none` is an arm the source takes for
unreachable. -/
def copyWithNobranchCheck (k : CpuKernel) (mem : List UInt8)
    (m1 m2 f1 f2 m1InF1 m2InF1 m1InF2 m2InF2 : Nat) : Option (List UInt8) :=
  let m1SrcCap := m1InF1 + m1InF2
  let m2SrcCap := m2InF1 + m2InF2
  let f1DstCap := m1InF1 + m2InF1
  let f2DstCap := m1InF2 + m2InF2
  match copyCase m1InF1 m2InF1 m1InF2 m2InF2 with
  | 0 => some mem
  | 1 => some (copySlots k mem m1 m1SrcCap f1 f1DstCap m1InF1)
  | 2 => some (copySlots k mem m2 m2SrcCap f1 f1DstCap m2InF1)
  | 4 => some (copySlots k mem m1 m1SrcCap f2 f2DstCap m1InF2)
  | 8 => some (copySlots k mem m2 m2SrcCap f2 f2DstCap m2InF2)
  | 3 =>
    let mem := copySlots k mem m1 m1SrcCap f1 f1DstCap m1InF1
    some (copySlots k mem m2 m2SrcCap (f1 + m1InF1) m2InF1 m2InF1)
  | 5 =>
    let mem := copySlots k mem m1 m1SrcCap f1 f1DstCap m1InF1
    some (copySlots k mem (m1 + m1InF1) m1InF2 f2 f2DstCap m1InF2)
  | 6 => none
  | 7 => none
  | 9 =>
    let mem := copySlots k mem m1 m1SrcCap f1 f1DstCap m1InF1
    some (copySlots k mem m2 m2SrcCap f2 f2DstCap m2InF2)
  | 10 =>
    let mem := copySlots k mem m2 m2SrcCap f1 f1DstCap m2InF1
    some (copySlots k mem (m2 + m2InF1) m2InF2 f2 f2DstCap m2InF2)
  | 12 =>
    let mem := copySlots k mem m1 m1SrcCap f2 f2DstCap m1InF2
    some (copySlots k mem m2 m2SrcCap (f2 + m1InF2) m2InF2 m2InF2)
  | 11 =>
    let mem := copySlots k mem m1 m1SrcCap f1 f1DstCap m1InF1
    let mem := copySlots k mem m2 m2SrcCap (f1 + m1InF1) m2InF1 m2InF1
    some (copySlots k mem (m2 + m2InF1) m2InF2 f2 f2DstCap m2InF2)
  | 13 =>
    let mem := copySlots k mem m1 m1SrcCap f1 f1DstCap m1InF1
    let mem := copySlots k mem (m1 + m1InF1) m1InF2 f2 f2DstCap m1InF2
    some (copySlots k mem m2 m2SrcCap (f2 + m1InF2) m2InF2 m2InF2)
  | _ => none

namespace RingBuffer

/-- The parts of the source range in the two content slices, and how much of each goes to each of
the two free parts. -/
structure Segments where
  m1 : Nat
  m2 : Nat
  m1InF1 : Nat
  m2InF1 : Nat
  m1InF2 : Nat
  m2InF2 : Nat
deriving Repr, DecidableEq

def segments (r : RingBuffer) (start len : Nat) : Segments :=
  let s1Len := r.dataSliceLengths.1
  let startInS1 := min s1Len start
  let endInS1 := min s1Len (start + len)
  let m1Len := endInS1 - startInS1
  let startInS2 := start - s1Len
  let endInS2 := startInS2 + (len - m1Len)
  let m2Len := endInS2 - startInS2
  let f1Len := r.freeSliceLengths.2
  let m1InF1 := min m1Len f1Len
  let m2InF1 := min (f1Len - m1InF1) m2Len
  { m1 := r.head + startInS1
    m2 := startInS2
    m1InF1 := m1InF1
    m2InF1 := m2InF1
    m1InF2 := m1Len - m1InF1
    m2InF2 := m2Len - m2InF1 }

/-- `none` where the copy reaches an arm taken for unreachable. -/
def extendFromWithinUncheckedBranchless (k : CpuKernel) (r : RingBuffer) (start len : Nat) :
    Option RingBuffer :=
  let s := r.segments start len
  (copyWithNobranchCheck k r.buf s.m1 s.m2 r.tail 0 s.m1InF1 s.m2InF1 s.m1InF2 s.m2InF2).map
    fun buf => { r with buf := buf, tail := r.wrap (r.tail + len) }

end RingBuffer

/-- A copy of just `n` slots. -/
def moveSlots (mem : List UInt8) (src dst n : Nat) : List UInt8 :=
  overwrite mem dst ((mem.drop src).take n)

@[simp] theorem moveSlots_zero (mem : List UInt8) (src dst : Nat) :
    moveSlots mem src dst 0 = mem := by
  simp [moveSlots]

/-- Where either span ends with the copy, nothing overshoots. -/
theorem copySlots_exact (k : CpuKernel) (mem : List UInt8) (src dst : Nat) {srcCap dstCap n : Nat}
    (hsrc : n ≤ srcCap) (hdst : n ≤ dstCap) (hexact : srcCap = n ∨ dstCap = n) :
    copySlots k mem src srcCap dst dstCap n = moveSlots mem src dst n := by
  obtain ⟨h1, h2, h3⟩ := k.copied_bounds hsrc hdst
  have hn : k.copied srcCap dstCap n = n := by omega
  rw [copySlots, copyBytesOvershooting, hn, moveSlots]

/-- Unless the second source part goes to the first free part while the first one still goes to the
second, an arm is taken, and all of them come to the same four copies. -/
theorem copyWithNobranchCheck_eq (k : CpuKernel) (mem : List UInt8) (m1 m2 f1 f2 : Nat)
    {m1InF1 m2InF1 m1InF2 m2InF2 : Nat} (h : m2InF1 = 0 ∨ m1InF2 = 0) :
    copyWithNobranchCheck k mem m1 m2 f1 f2 m1InF1 m2InF1 m1InF2 m2InF2 =
      some (moveSlots (moveSlots (moveSlots (moveSlots mem m1 f1 m1InF1)
        m2 (f1 + m1InF1) m2InF1) (m1 + m1InF1) f2 m1InF2) (m2 + m2InF1) (f2 + m1InF2) m2InF2) := by
  have hcopy : ∀ {mem : List UInt8} {src dst srcCap dstCap n : Nat}, n ≤ srcCap → n ≤ dstCap →
      srcCap = n ∨ dstCap = n →
      copySlots k mem src srcCap dst dstCap n = moveSlots mem src dst n :=
    fun hsrc hdst hexact => copySlots_exact k _ _ _ hsrc hdst hexact
  rcases Nat.eq_zero_or_pos m1InF1 with ha | ha <;> rcases Nat.eq_zero_or_pos m2InF1 with hb | hb <;>
    rcases Nat.eq_zero_or_pos m1InF2 with hc | hc <;> rcases Nat.eq_zero_or_pos m2InF2 with hd | hd <;>
    first
    | omega
    | simp only [ha, hb, hc, hd, copyWithNobranchCheck, copyCase, Nat.lt_irrefl, decide_true,
        decide_false, Bool.toNat_true, Bool.toNat_false, Nat.reduceShiftLeft, Nat.reduceOr,
        moveSlots_zero, Nat.add_zero, Nat.zero_add]
  all_goals simp (disch := omega) only [hcopy]

namespace RingBuffer

variable {r : RingBuffer} {start len : Nat}

/-- A slice of just `n` slots. -/
theorem slice_spec (mem : List UInt8) {src n : Nat} (h : src + n ≤ mem.length) :
    ((mem.drop src).take n).length = n ∧
      ∀ j < n, ((mem.drop src).take n).getD j default = mem.getD (src + j) default := by
  refine ⟨?_, fun j hj => getD_span mem src hj⟩
  rw [List.length_take, List.length_drop]
  omega

/-- The content of a flat ring is one slice: only the free part may be split. -/
theorem segments_flat (hflat : r.head ≤ r.tail) (hin : start + len ≤ r.len) :
    r.segments start len = ⟨r.head + start, 0, min len (r.cap - r.tail), 0,
      len - min len (r.cap - r.tail), 0⟩ := by
  rw [len_eq, if_pos hflat] at hin
  simp only [segments, dataSliceLengths, freeSliceLengths, if_pos hflat,
    if_neg (Nat.not_lt.mpr hflat), Segments.mk.injEq]
  refine ⟨?_, ?_, ?_, ?_, ?_, ?_⟩ <;> omega

/-- The free part of a wrapped ring is one: only the content may be split. -/
theorem segments_wrapped (h : r.Wf) (hwrapped : r.tail < r.head) (hroom : len ≤ r.free) :
    r.segments start len = ⟨r.head + min (r.cap - r.head) start, start - (r.cap - r.head),
      min (r.cap - r.head) (start + len) - min (r.cap - r.head) start,
      len - (min (r.cap - r.head) (start + len) - min (r.cap - r.head) start), 0, 0⟩ := by
  have hhead := h.head_le
  rw [h.free_eq, len_eq, if_neg (Nat.not_le.mpr hwrapped)] at hroom
  simp only [segments, dataSliceLengths, freeSliceLengths, if_neg (Nat.not_le.mpr hwrapped),
    if_pos hwrapped, Segments.mk.injEq, true_and]
  refine ⟨?_, ?_, ?_, ?_⟩ <;> omega

/-- The copy of a flat ring: one source slice, split over the free parts. -/
theorem moveSlots_flat (h : r.Wf) (hcap : 0 < r.cap) (hroom : len ≤ r.free)
    (hin : start + len ≤ r.len) (hflat : r.head ≤ r.tail) :
    r.Appends (moveSlots (moveSlots r.buf (r.head + start) r.tail (min len (r.cap - r.tail)))
      (r.head + start + min len (r.cap - r.tail)) 0 (len - min len (r.cap - r.tail)))
      (r.span start len) := by
  have hhead := h.head_le
  have htail := h.tail_le
  have hmem := h.memory hcap
  have hlen : r.len = r.tail - r.head := by rw [len_eq, if_pos hflat]
  have hfree := h.free_eq
  have hslot : ∀ j < len, (r.span start len).getD j default =
      r.buf.getD (r.head + start + j) default := by
    intro j hj
    rw [getD_spanOf hin hj, Nat.mod_eq_of_lt (by omega), Nat.add_assoc]
  obtain ⟨hx, hxd⟩ := slice_spec r.buf
    (show r.head + start + min len (r.cap - r.tail) ≤ r.buf.length by omega)
  have hlen1 : (moveSlots r.buf (r.head + start) r.tail (min len (r.cap - r.tail))).length =
      r.buf.length := length_overwrite (by rw [hx]; omega)
  -- the rest of the source lies below the tail, where nothing was written
  obtain ⟨hy, hyd⟩ := slice_spec (moveSlots r.buf (r.head + start) r.tail (min len (r.cap - r.tail)))
    (show r.head + start + min len (r.cap - r.tail) + (len - min len (r.cap - r.tail)) ≤ _ by
      rw [hlen1]
      omega)
  apply appends_parts h hcap (by rwa [length_span hin])
  · rw [length_span hin, if_pos hflat]
  · exact hx.ge
  · intro j hj
    rw [hxd j hj, hslot j (by omega)]
  · rw [hx, if_pos hflat]
    omega
  · rw [length_span hin, hy]
  · intro j hj
    rw [length_span hin] at hj
    rw [hyd j hj, moveSlots, getD_below _ _ (by omega) (by omega), hslot _ (by omega), Nat.add_assoc]
  · rw [hy, if_pos hflat]
    omega

/-- The copy of a wrapped ring: the source range may go on at slot 0. -/
theorem moveSlots_wrapped (h : r.Wf) (hcap : 0 < r.cap) (hroom : len ≤ r.free)
    (hin : start + len ≤ r.len) (hwrapped : r.tail < r.head) {m : Nat}
    (hm : m = min (r.cap - r.head) (start + len) - min (r.cap - r.head) start) :
    r.Appends (moveSlots (moveSlots r.buf (r.head + min (r.cap - r.head) start) r.tail m)
      (start - (r.cap - r.head)) (r.tail + m) (len - m)) (r.span start len) := by
  have hhead := h.head_le
  have hmem := h.memory hcap
  have hlen : r.len = r.cap - r.head + r.tail := by rw [len_eq, if_neg (Nat.not_le.mpr hwrapped)]
  have hfree := h.free_eq
  obtain ⟨hx, hxd⟩ := slice_spec r.buf
    (show r.head + min (r.cap - r.head) start + m ≤ r.buf.length by omega)
  have hlen1 : (moveSlots r.buf (r.head + min (r.cap - r.head) start) r.tail m).length =
      r.buf.length := length_overwrite (by rw [hx]; omega)
  obtain ⟨hy, hyd⟩ := slice_spec (moveSlots r.buf (r.head + min (r.cap - r.head) start) r.tail m)
    (show start - (r.cap - r.head) + (len - m) ≤ _ by rw [hlen1]; omega)
  apply appends_pieces h hcap hwrapped hx.ge
  · intro j hj
    rw [hxd j hj, getD_spanOf hin (by omega), Nat.mod_eq_of_lt (by omega)]
    congr 1
    omega
  · rw [hx]
    omega
  · rw [length_span hin, hy]
  · intro j hj
    rw [length_span hin] at hj
    rw [hyd j hj, moveSlots, getD_below _ _ (by omega) (by omega), getD_spanOf hin (by omega),
      mod_two_rounds (by omega), if_pos (by omega)]
    congr 1
    omega
  · rw [hy]
    omega

/-- The copies of the arm taken: none is reached that the source takes for unreachable. -/
theorem branchless_copies (k : CpuKernel) (h : r.Wf) (hroom : len ≤ r.free)
    (hin : start + len ≤ r.len) :
    let s := r.segments start len
    ∃ buf, copyWithNobranchCheck k r.buf s.m1 s.m2 r.tail 0 s.m1InF1 s.m2InF1 s.m1InF2 s.m2InF2 =
        some buf ∧
      (0 < len → 0 < r.cap → r.Appends buf (r.span start len)) ∧ (len = 0 → buf = r.buf) := by
  rcases Nat.lt_or_ge r.tail r.head with hwrapped | hflat
  · rw [segments_wrapped h hwrapped hroom]
    refine ⟨_, copyWithNobranchCheck_eq k _ _ _ _ _ (.inr rfl), ?_, ?_⟩
    · intro _ hcap
      simp only [moveSlots_zero]
      exact moveSlots_wrapped h hcap hroom hin hwrapped rfl
    · intro h0
      simp [h0]
  · rw [segments_flat hflat hin]
    refine ⟨_, copyWithNobranchCheck_eq k _ _ _ _ _ (.inl rfl), ?_, ?_⟩
    · intro _ hcap
      simp only [moveSlots_zero]
      exact moveSlots_flat h hcap hroom hin hflat
    · intro h0
      simp [h0]

theorem Wf.extendFromWithinUncheckedBranchless (k : CpuKernel) (h : r.Wf) (hroom : len ≤ r.free)
    (hin : start + len ≤ r.len) :
    ∃ r', r.extendFromWithinUncheckedBranchless k start len = some r' ∧ r'.Wf ∧
      r'.content = r.content ++ r.span start len ∧ r'.head = r.head ∧
      r'.tail = r.wrap (r.tail + len) := by
  obtain ⟨buf, hbuf, happends, hzero⟩ := branchless_copies k h hroom hin
  obtain ⟨hwf, hcontent⟩ := h.appendSpan hroom hin happends hzero
  refine ⟨_, ?_, hwf, hcontent, rfl, rfl⟩
  simp only [RingBuffer.extendFromWithinUncheckedBranchless, hbuf, Option.map_some]

end RingBuffer

/-- The branchless copy within the ring leaves what the branching one leaves, from every state with
the room for it, and none of its unreachable arms is reached. -/
theorem branchless_eq_branching (k : CpuKernel) {r : RingBuffer} (h : r.Wf) {start len : Nat}
    (hroom : len ≤ r.free) (hin : start + len ≤ r.len) :
    ∃ r', r.extendFromWithinUncheckedBranchless k start len = some r' ∧ r'.Wf ∧
      r'.content = (r.extendFromWithinUnchecked k start len).content ∧
      r'.head = (r.extendFromWithinUnchecked k start len).head ∧
      r'.tail = (r.extendFromWithinUnchecked k start len).tail := by
  obtain ⟨r', hr, hwf, hcontent, hhead, htail⟩ := h.extendFromWithinUncheckedBranchless k hroom hin
  obtain ⟨-, hbranching⟩ := h.extendFromWithinUnchecked k hroom hin
  exact ⟨r', hr, hwf, hcontent.trans hbranching.symm, hhead, htail⟩

theorem branchless_eq_branching_round :
    ∃ r', (RingBuffer.mk ([9, 8, 0, 0, 0, 5, 6, 7] ++ List.replicate 32 0) 8 5 2 0 0
        false).extendFromWithinUncheckedBranchless scalarKernel 2 2 = some r' ∧
      r'.content = [5, 6, 7, 9, 8, 7, 9] := by
  have hwf : (RingBuffer.mk ([9, 8, 0, 0, 0, 5, 6, 7] ++ List.replicate 32 0) 8 5 2 0 0 false).Wf :=
    ⟨fun _ => by decide, by decide, by decide, fun _ => by decide⟩
  obtain ⟨r', hr, -, hcontent, -, -⟩ :=
    branchless_eq_branching scalarKernel hwf (show 2 ≤ _ by decide) (show 2 + 2 ≤ _ by decide)
  exact ⟨r', hr, hcontent.trans (by decide)⟩

end Ring
