import StructuredZstd.Ring.RingBuffer

namespace Ring

open Bits.Circular
open Decoding (Reader usizeMax wildcopyOverlength)

theorem le_nextMultipleOf (n : Nat) {chunk : Nat} (h : 0 < chunk) :
    n ≤ nextMultipleOf n chunk := by
  have hdiv := Nat.div_add_mod (n + (chunk - 1)) chunk
  have hmod := Nat.mod_lt (n + (chunk - 1)) h
  rw [nextMultipleOf, Nat.mul_comm]
  omega

/-- A copy moves what it was asked for, and stays within both spans. -/
theorem CpuKernel.copied_bounds (k : CpuKernel) {srcCap dstCap n : Nat} (hsrc : n ≤ srcCap)
    (hdst : n ≤ dstCap) :
    n ≤ k.copied srcCap dstCap n ∧ k.copied srcCap dstCap n ≤ srcCap ∧
      k.copied srcCap dstCap n ≤ dstCap := by
  have hcopy := le_nextMultipleOf n k.copyChunk_pos
  have hstep := le_nextMultipleOf n k.stepChunk_pos
  have hscalar := le_nextMultipleOf n (show 0 < scalarCopyChunk by decide)
  simp only [CpuKernel.copied]
  split_ifs <;> omega

/-- A source that ends where the copy ends leaves no room to overshoot. -/
theorem CpuKernel.copied_exact (k : CpuKernel) {dstCap n : Nat} (hdst : n ≤ dstCap) :
    k.copied n dstCap n = n := by
  have := k.copied_bounds (Nat.le_refl n) hdst
  omega

theorem le_nextPowerOfTwo {n : Nat} (h : n ≤ 2 ^ 63) : n ≤ nextPowerOfTwo n := by
  have hle := Decoding.le_nextPowerOfTwo n
  have hlt : Decoding.nextPowerOfTwo n < 2 ^ 64 := by
    rw [Decoding.nextPowerOfTwo]
    split
    · decide
    · have hlog : Nat.log2 (n - 1) < 63 := (Nat.log2_lt (by omega)).mpr (by omega)
      exact Nat.pow_lt_pow_right (by decide) (by omega)
  rw [nextPowerOfTwo, Nat.mod_eq_of_lt hlt]
  exact hle

namespace RingBuffer

/-- The bytes from head to tail, modulo the capacity. -/
def content (r : RingBuffer) : List UInt8 := arc r.buf r.cap r.head r.len

structure Wf (r : RingBuffer) : Prop where
  memory : 0 < r.cap → r.buf.length = r.cap + wildcopyOverlength
  head_le : r.head ≤ r.cap - 1
  tail_le : r.tail ≤ r.cap - 1
  bounded : r.borrowed = false → r.cap < 2 ^ 63

section Lengths

variable {r : RingBuffer}

theorem len_eq (r : RingBuffer) :
    r.len = if r.head ≤ r.tail then r.tail - r.head else r.cap - r.head + r.tail := by
  simp only [len, dataSliceLengths]
  split <;> rfl

theorem Wf.free_eq (h : r.Wf) : r.free = r.cap - r.len - 1 := by
  have := h.head_le
  have := h.tail_le
  rw [len_eq]
  simp only [free, freeSliceLengths]
  split_ifs <;> omega

theorem Wf.len_le (h : r.Wf) : r.len ≤ r.cap - 1 := by
  have := h.head_le
  have := h.tail_le
  rw [len_eq]
  split_ifs <;> omega

theorem Wf.wrap_eq (h : r.Wf) {n : Nat} (hn : n ≤ r.cap) (hcap : 0 < r.cap) :
    r.wrap (r.head + n) = (r.head + n) % r.cap := by
  have := h.head_le
  rw [wrap, mod_two_rounds (by omega)]

theorem Wf.tail_eq (h : r.Wf) (hcap : 0 < r.cap) : r.tail = (r.head + r.len) % r.cap := by
  have := h.head_le
  have := h.tail_le
  rw [len_eq]
  split_ifs
  · rw [Nat.mod_eq_of_lt (by omega)]
    omega
  · rw [mod_two_rounds (by omega)]
    split_ifs <;> omega

end Lengths

/-- The slots that hold content. -/
def Live (r : RingBuffer) (s : Nat) : Prop :=
  if r.head ≤ r.tail then r.head ≤ s ∧ s < r.tail else r.head ≤ s ∧ s < r.cap ∨ s < r.tail

theorem Wf.live {r : RingBuffer} (h : r.Wf) {j : Nat} (hj : j < r.len) :
    r.Live ((r.head + j) % r.cap) := by
  have := h.head_le
  have := h.tail_le
  rw [len_eq] at hj
  simp only [Live]
  split_ifs at hj ⊢
  · rw [Nat.mod_eq_of_lt (by omega)]
    omega
  · rw [mod_two_rounds (by omega)]
    split_ifs <;> omega

/-- The memory `mem` has the content of `r` where it was. -/
structure Keeps (r : RingBuffer) (mem : List UInt8) : Prop where
  length : mem.length = r.buf.length
  keep : ∀ s, r.Live s → mem.getD s default = r.buf.getD s default

/-- And has `data` behind it. -/
structure Appends (r : RingBuffer) (mem data : List UInt8) : Prop extends r.Keeps mem where
  new : ∀ j < data.length, mem.getD (r.wrap (r.tail + j)) default = data.getD j default

section Appending

variable {r : RingBuffer} {mem data : List UInt8}

theorem Keeps.content (hk : r.Keeps mem) (h : r.Wf) :
    { r with buf := mem }.Wf ∧ { r with buf := mem }.content = r.content :=
  ⟨⟨fun hc => hk.length.trans (h.memory hc), h.head_le, h.tail_le, h.bounded⟩,
    arc_congr fun _ hj => hk.keep _ (h.live hj)⟩

/-- Moving the tail over appended data appends it to the content. -/
theorem Appends.content (ha : r.Appends mem data) (h : r.Wf) (hcap : 0 < r.cap)
    (hroom : data.length ≤ r.free) :
    let r' := { r with buf := mem, tail := r.wrap (r.tail + data.length) }
    r'.Wf ∧ r'.content = r.content ++ data := by
  have hhead := h.head_le
  have htail := h.tail_le
  rw [h.free_eq] at hroom
  have hlen : (RingBuffer.mk mem r.cap r.head (r.wrap (r.tail + data.length)) r.maxCapacity
      r.growthLimit r.borrowed).len = r.len + data.length := by
    have := h.len_le
    simp only [len_eq, wrap] at *
    split_ifs at * <;> omega
  have htail' : r.wrap (r.tail + data.length) ≤ r.cap - 1 := by
    rw [wrap]
    split_ifs <;> omega
  refine ⟨⟨fun hc => ha.length.trans (h.memory hc), hhead, htail', h.bounded⟩, ?_⟩
  simp only [RingBuffer.content, hlen]
  rw [arc_add, ← h.tail_eq hcap]
  congr 1
  · exact (ha.toKeeps.content h).2
  · apply arc_eq
    intro j hj
    rw [mod_two_rounds (by omega)]
    exact ha.new j hj

theorem Keeps.tail (hk : r.Keeps mem) (h : r.Wf) (hcap : 0 < r.cap) {x : List UInt8}
    (hx : x.length ≤ r.freeSliceLengths.2) : r.Keeps (overwrite mem r.tail x) := by
  have hhead := h.head_le
  have htail := h.tail_le
  have hmem := h.memory hcap
  have hlen := hk.length
  have hfit : r.tail + x.length ≤ r.cap := by
    simp only [freeSliceLengths] at hx
    split_ifs at hx <;> omega
  refine ⟨(length_overwrite (by omega)).trans hlen, fun s hs => ?_⟩
  rw [getD_overwrite (by omega), if_neg, hk.keep s hs]
  simp only [Live, freeSliceLengths] at hs hx
  split_ifs at hs hx <;> omega

theorem Keeps.start (hk : r.Keeps mem) (h : r.Wf) (hcap : 0 < r.cap) {y : List UInt8}
    (hy : y.length ≤ r.freeSliceLengths.1) : r.Keeps (overwrite mem 0 y) := by
  have hhead := h.head_le
  have hmem := h.memory hcap
  have hlen := hk.length
  have hfit : y.length ≤ r.head := by
    simp only [freeSliceLengths] at hy
    split_ifs at hy <;> omega
  refine ⟨(length_overwrite (by omega)).trans hlen, fun s hs => ?_⟩
  rw [getD_overwrite (Nat.zero_le _), if_neg, hk.keep s hs]
  simp only [Live, freeSliceLengths] at hs hy
  split_ifs at hs hy <;> omega

/-- Data laid behind the tail up to the end of the ring, and the rest of it from slot 0 on. What
either part writes too much lies in free slots or in the slack. -/
theorem appends_parts (h : r.Wf) (hcap : 0 < r.cap) (hroom : data.length ≤ r.free) {m : Nat}
    {x y : List UInt8} (hm : m = min data.length (if r.head ≤ r.tail then r.cap - r.tail
      else r.head - r.tail))
    (hx : m ≤ x.length) (hxd : ∀ j < m, x.getD j default = data.getD j default)
    (hxfit : r.tail + x.length ≤ if r.head ≤ r.tail then r.cap + wildcopyOverlength else r.head)
    (hy : data.length - m ≤ y.length)
    (hyd : ∀ j < data.length - m, y.getD j default = data.getD (m + j) default)
    (hyfit : y.length ≤ if r.head ≤ r.tail then r.head else 0) :
    r.Appends (overwrite (overwrite r.buf r.tail x) 0 y) data := by
  have hhead := h.head_le
  have htail := h.tail_le
  have hmem := h.memory hcap
  rw [h.free_eq, len_eq] at hroom
  have hxlen : (overwrite r.buf r.tail x).length = r.buf.length := by
    apply length_overwrite
    split_ifs at hxfit <;> omega
  have hget : ∀ s, (overwrite (overwrite r.buf r.tail x) 0 y).getD s default =
      if s < y.length then y.getD s default
      else if r.tail ≤ s ∧ s < r.tail + x.length then x.getD (s - r.tail) default
      else r.buf.getD s default := by
    intro s
    rw [getD_overwrite (Nat.zero_le _), getD_overwrite (by omega)]
    simp only [Nat.zero_le, true_and, Nat.zero_add, Nat.sub_zero]
  refine ⟨⟨?_, ?_⟩, ?_⟩
  · rw [length_overwrite (by split_ifs at hyfit <;> omega), hxlen]
  · intro s hs
    rw [hget]
    simp only [Live] at hs
    rw [if_neg, if_neg]
    all_goals split_ifs at * <;> omega
  · intro j hj
    rw [hget]
    rcases Nat.lt_or_ge j m with hlt | hge
    · -- the first part does not go round
      have hw : r.wrap (r.tail + j) = r.tail + j := by
        rw [wrap, if_neg]
        split_ifs at hm <;> omega
      rw [hw, if_neg, if_pos (by omega), Nat.add_sub_cancel_left, hxd j hlt]
      split_ifs at hyfit <;> omega
    · have hw : r.wrap (r.tail + j) = j - m := by
        rw [wrap]
        split_ifs at * <;> omega
      rw [hw, if_pos (by omega), hyd _ (by omega)]
      congr 1
      omega

/-- Data laid behind the tail of a wrapped ring in two pieces. -/
theorem appends_pieces (h : r.Wf) (hcap : 0 < r.cap) (hwrapped : r.tail < r.head) {m : Nat}
    {x y : List UInt8} (hmx : m ≤ x.length)
    (hxd : ∀ j < m, x.getD j default = data.getD j default)
    (hxfit : r.tail + x.length ≤ r.head) (hy : data.length - m ≤ y.length)
    (hyd : ∀ j < data.length - m, y.getD j default = data.getD (m + j) default)
    (hyfit : r.tail + m + y.length ≤ r.head) :
    r.Appends (overwrite (overwrite r.buf r.tail x) (r.tail + m) y) data := by
  have hhead := h.head_le
  have hmem := h.memory hcap
  have hxlen : (overwrite r.buf r.tail x).length = r.buf.length := length_overwrite (by omega)
  have hget : ∀ s, (overwrite (overwrite r.buf r.tail x) (r.tail + m) y).getD s default =
      if r.tail + m ≤ s ∧ s < r.tail + m + y.length then y.getD (s - (r.tail + m)) default
      else if r.tail ≤ s ∧ s < r.tail + x.length then x.getD (s - r.tail) default
      else r.buf.getD s default := by
    intro s
    rw [getD_overwrite (by omega), getD_overwrite (by omega)]
  refine ⟨⟨?_, ?_⟩, ?_⟩
  · rw [length_overwrite (by omega), hxlen]
  · intro s hs
    rw [hget]
    simp only [Live, if_neg (Nat.not_le.mpr hwrapped)] at hs
    rw [if_neg (by omega), if_neg (by omega)]
  · intro j hj
    have hw : r.wrap (r.tail + j) = r.tail + j := by
      rw [wrap, if_neg (by omega)]
    rw [hget, hw]
    rcases Nat.lt_or_ge j m with hlt | hge
    · rw [if_neg (by omega), if_pos (by omega), Nat.add_sub_cancel_left, hxd j hlt]
    · rw [if_pos (by omega), show r.tail + j - (r.tail + m) = j - m by omega, hyd _ (by omega),
        Nat.add_sub_cancel' hge]

end Appending

section Growing

variable {r r' : RingBuffer}

@[simp] theorem length_content (r : RingBuffer) : r.content.length = r.len :=
  length_arc ..

theorem Wf.dataSlice_le (h : r.Wf) (hcap : 0 < r.cap) :
    r.head + r.dataSliceLengths.1 ≤ r.cap ∧ r.dataSliceLengths.2 ≤ r.head := by
  have := h.head_le
  have := h.tail_le
  simp only [dataSliceLengths]
  split_ifs <;> omega

/-- The two slices, one after the other, are the content. -/
theorem Wf.asSlices (h : r.Wf) (hcap : 0 < r.cap) :
    r.asSlices.1 ++ r.asSlices.2 = r.content := by
  obtain ⟨hfirst, hsecond⟩ := h.dataSlice_le hcap
  have hmem := h.memory hcap
  have hhead := h.head_le
  have hs1 : r.asSlices.1 = arc r.buf r.cap r.head r.dataSliceLengths.1 := by
    rw [arc_of_le hfirst (by omega)]
    rfl
  have hs2 : r.asSlices.2 =
      arc r.buf r.cap ((r.head + r.dataSliceLengths.1) % r.cap) r.dataSliceLengths.2 := by
    simp only [RingBuffer.asSlices, dataSliceLengths]
    split_ifs with hle
    · rfl
    · have hstart : (r.head + (r.cap - r.head)) % r.cap = 0 := by
        rw [Nat.add_sub_cancel' (by omega), Nat.mod_self]
      have := h.tail_le
      rw [hstart, arc_of_le (by omega) (by omega), List.drop_zero]
  rw [hs1, hs2, ← arc_add]
  rfl

/-- Moving the content to a larger memory does not change it. -/
theorem Wf.relocate (h : r.Wf) {newCap : Nat} (hnew : r.len < newCap) (hmax : newCap < 2 ^ 63) :
    (r.relocate newCap).Wf ∧ (r.relocate newCap).content = r.content := by
  rcases Nat.eq_zero_or_pos r.cap with hzero | hcap
  · have hhead := h.head_le
    have htail := h.tail_le
    simp only [RingBuffer.relocate, if_neg (show ¬0 < r.cap by omega)]
    refine ⟨⟨fun _ => List.length_replicate, by dsimp only; omega, by dsimp only; omega,
      fun _ => hmax⟩, ?_⟩
    have hempty : r.content = [] := List.eq_nil_of_length_eq_zero (by
      rw [length_content, len_eq]
      split_ifs <;> omega)
    rw [hempty]
    apply List.eq_nil_of_length_eq_zero
    rw [length_content, len_eq, if_pos] <;> dsimp only <;> omega
  · have hslices := h.asSlices hcap
    have hlen : r.asSlices.1.length + r.asSlices.2.length = r.len := by
      rw [← List.length_append, hslices, length_content]
    have hbuf : overwrite (overwrite (List.replicate (newCap + wildcopyOverlength) 0) 0
        r.asSlices.1) r.asSlices.1.length r.asSlices.2 =
        r.content ++ List.replicate (newCap + wildcopyOverlength - r.len) 0 := by
      simp only [overwrite, List.take_zero, List.nil_append, Nat.zero_add, List.take_left,
        List.drop_append, List.drop_replicate, hslices, ← hlen]
      rw [List.drop_of_length_le (by omega), List.nil_append, Nat.add_sub_cancel_left,
        Nat.sub_sub]
    simp only [RingBuffer.relocate, if_pos hcap, hlen, hbuf]
    refine ⟨⟨fun _ => ?_, Nat.zero_le _, by dsimp only; omega, fun _ => hmax⟩, ?_⟩
    · simp only [List.length_append, length_content, List.length_replicate]
      omega
    · have hlen' : (RingBuffer.mk (r.content ++
          List.replicate (newCap + wildcopyOverlength - r.len) 0) newCap 0 r.len r.maxCapacity
          r.growthLimit r.borrowed).len = r.len := by
        rw [len_eq, if_pos (Nat.zero_le _)]
        exact Nat.sub_zero _
      rw [content, hlen', arc_of_le (by dsimp only; omega), List.drop_zero]
      · exact List.take_left' (length_content r)
      · simp only [List.length_append, length_content]
        omega

/-- What a write of `n` bytes asks of the ring before it: an unallocated one is not asked for just
one byte more than its growth limit, and the sum stays in half of the address space. -/
def Roomy (r : RingBuffer) (n : Nat) : Prop :=
  (r.cap = 0 → n ≠ r.growthLimit + 1) ∧ r.len + n < 2 ^ 63

theorem cap_le_growthTarget (hcap : r.cap < 2 ^ 63) {amount : Nat} (hamount : 0 < amount) :
    r.cap ≤ r.growthTarget (r.cap + amount) := by
  have := le_nextPowerOfTwo (n := r.cap) (by omega)
  simp only [growthTarget]
  split_ifs <;> omega

theorem needed_le_growthTarget {needed : Nat} (hneeded : needed ≤ 2 ^ 63) :
    needed ≤ r.growthTarget needed + 1 ∧
      (needed ≠ r.growthLimit + 1 → needed ≤ r.growthTarget needed) := by
  have := le_nextPowerOfTwo hneeded
  simp only [growthTarget]
  split_ifs <;> omega

theorem Wf.reserveAmortized (h : r.Wf) {amount : Nat} (hamount : 0 < amount)
    (hr : r.reserveAmortized amount = some r') :
    r'.Wf ∧ r'.content = r.content ∧ r'.cap = r.growthTarget (r.cap + amount) + 1 := by
  have hlen := h.len_le
  simp only [RingBuffer.reserveAmortized] at hr
  split_ifs at hr with hborrowed hsum hlayout
  cases hr
  have hcap := h.bounded (by simpa using hborrowed)
  have hgrown := cap_le_growthTarget hcap hamount
  have hmax : r.growthTarget (r.cap + amount) + 1 < 2 ^ 63 := by
    simp only [isizeMax] at hlayout
    omega
  obtain ⟨hwf, hcontent⟩ := h.relocate (by omega) hmax
  refine ⟨hwf, hcontent, ?_⟩
  simp only [RingBuffer.relocate]
  split <;> rfl

/-- Reserving keeps the content; where the request is roomy it also makes the room. -/
theorem Wf.reserve (h : r.Wf) {n : Nat} (hr : r.reserve n = some r') :
    r'.Wf ∧ r'.content = r.content ∧ (r.Roomy n → n ≤ r'.free) := by
  have hhead := h.head_le
  have htail := h.tail_le
  have hfree := h.free_eq
  have hlen := h.len_le
  simp only [RingBuffer.reserve] at hr
  split_ifs at hr with hfast hroom
  · cases hr
    refine ⟨h, rfl, fun _ => ?_⟩
    rw [hfree, len_eq, if_pos hfast.1]
    omega
  · cases hr
    exact ⟨h, rfl, fun _ => hroom⟩
  · obtain ⟨hwf, hcontent, hcap⟩ := h.reserveAmortized (by omega) hr
    refine ⟨hwf, hcontent, fun ⟨hlimit, hhalf⟩ => ?_⟩
    have hlen' : r'.len = r.len := by rw [← length_content, hcontent, length_content]
    rw [hwf.free_eq, hlen', hcap]
    have hneeded : r.cap + (n - r.free) ≤ 2 ^ 63 := by omega
    obtain ⟨hsentinel, hexact⟩ := needed_le_growthTarget (r := r) hneeded
    rcases Nat.eq_zero_or_pos r.cap with hzero | hpos
    · have := hexact (by have := hlimit hzero; omega)
      omega
    · omega

end Growing

section Operations

variable {r r' : RingBuffer} {data : List UInt8}

theorem getD_take {x : List UInt8} {n j : Nat} (h : j < n) :
    (x.take n).getD j default = x.getD j default := by
  simp only [List.getD_eq_getElem?_getD, List.getElem?_take_of_lt h]

theorem getD_drop (x : List UInt8) (n j : Nat) :
    (x.drop n).getD j default = x.getD (n + j) default := by
  simp only [List.getD_eq_getElem?_getD, List.getElem?_drop]

theorem copy_exact (k : CpuKernel) (src mem : List UInt8) (dst : Nat) {dstCap n : Nat}
    (h : n ≤ dstCap) :
    copyBytesOvershooting k src n mem dst dstCap n = overwrite mem dst (src.take n) := by
  rw [copyBytesOvershooting, k.copied_exact h]

/-- Data split between the two free parts. -/
theorem appends_split (h : r.Wf) (hcap : 0 < r.cap) (hroom : data.length ≤ r.free) :
    r.Appends (overwrite (overwrite r.buf r.tail (data.take (min data.length r.freeSliceLengths.2)))
      0 (data.drop (min data.length r.freeSliceLengths.2))) data := by
  have hhead := h.head_le
  have htail := h.tail_le
  have hfree := hroom
  rw [h.free_eq, len_eq] at hfree
  apply appends_parts h hcap hroom (m := min data.length r.freeSliceLengths.2)
  · simp only [freeSliceLengths]
    split_ifs <;> first | rfl | omega
  · simp only [List.length_take]
    omega
  · intro j hj
    exact getD_take hj
  · simp only [List.length_take, freeSliceLengths]
    split_ifs <;> omega
  · simp only [List.length_drop]
    omega
  · intro j _
    exact getD_drop ..
  · simp only [List.length_drop, freeSliceLengths]
    split_ifs at * <;> omega

/-- A write behind the tail that need not go round. -/
theorem appends_flat (h : r.Wf) (hcap : 0 < r.cap) (hroom : data.length ≤ r.free)
    (hflat : r.head ≤ r.tail) (hfit : r.tail + data.length ≤ r.cap) :
    r.Appends (overwrite r.buf r.tail data) data := by
  have ha := appends_split h hcap hroom
  have hmin : min data.length r.freeSliceLengths.2 = data.length := by
    simp only [freeSliceLengths, if_neg (Nat.not_lt.mpr hflat)]
    omega
  rwa [hmin, List.take_length, List.drop_length, overwrite_nil] at ha

theorem Wf.extend (k : CpuKernel) (h : r.Wf) (hroomy : 0 < data.length → r.Roomy data.length)
    (hr : r.extend k data = some r') : r'.Wf ∧ r'.content = r.content ++ data := by
  simp only [RingBuffer.extend] at hr
  split_ifs at hr with hnil hflat
  · cases hr
    rw [List.eq_nil_of_length_eq_zero hnil, List.append_nil]
    exact ⟨h, rfl⟩
  · have hcap : 0 < r.cap := by omega
    have hroom : data.length ≤ r.free := by
      rw [h.free_eq, len_eq, if_pos hflat.1]
      omega
    have ha := (appends_flat h hcap hroom hflat.1 (by omega)).content h hcap hroom
    rw [copy_exact k data r.buf r.tail (by omega), List.take_length] at hr
    rw [wrap, if_neg (by omega)] at ha
    cases hr
    exact ha
  · cases hres : r.reserve data.length with
    | none => simp only [hres] at hr; cases hr
    | some s =>
      obtain ⟨hwf, hcontent, hmade⟩ := h.reserve hres
      have hroom := hmade (hroomy (by omega))
      have hcap : 0 < s.cap := by
        have := hwf.free_eq
        omega
      rw [← hcontent]
      simp only [hres] at hr
      split_ifs at hr with hfit hend hhead
      · -- the write ends at the capacity
        have ha := (appends_flat hwf hcap hroom hfit.1 hfit.2).content hwf hcap hroom
        rw [copy_exact k data s.buf s.tail (by omega), List.take_length] at hr
        rw [wrap, if_pos (by omega), hend, Nat.sub_self] at ha
        cases hr
        exact ha
      · have ha := (appends_flat hwf hcap hroom hfit.1 hfit.2).content hwf hcap hroom
        rw [copy_exact k data s.buf s.tail (by omega), List.take_length] at hr
        rw [wrap, if_neg (by omega)] at ha
        cases hr
        exact ha
      all_goals
        have ha := (appends_split hwf hcap hroom).content hwf hcap hroom
        have hsecond : data.length - min data.length s.freeSliceLengths.2 ≤
            s.freeSliceLengths.1 := by
          have := hwf.free_eq
          simp only [RingBuffer.free] at hroom
          omega
        rw [copy_exact k data s.buf s.tail (by omega), copy_exact k _ _ 0 hsecond] at hr
        rw [← List.length_drop, List.take_length] at hr
        cases hr
        exact ha

theorem Wf.extendAndFill (h : r.Wf) {fillWith : UInt8} {n : Nat} (hroomy : 0 < n → r.Roomy n)
    (hr : r.extendAndFill fillWith n = some r') :
    r'.Wf ∧ r'.content = r.content ++ List.replicate n fillWith := by
  simp only [RingBuffer.extendAndFill] at hr
  split_ifs at hr with hzero
  · cases hr
    rw [hzero, List.replicate_zero, List.append_nil]
    exact ⟨h, rfl⟩
  · obtain ⟨s, hres, hfill⟩ := Option.map_eq_some_iff.mp hr
    obtain ⟨hwf, hcontent, hmade⟩ := h.reserve hres
    have hroom := hmade (hroomy (by omega))
    have hcap : 0 < s.cap := by
      have := hwf.free_eq
      omega
    have hroom' : (List.replicate n fillWith).length ≤ s.free := by rwa [List.length_replicate]
    have ha := (appends_split hwf hcap hroom').content hwf hcap hroom'
    rw [List.length_replicate, List.take_replicate, List.drop_replicate,
      Nat.min_eq_left (Nat.min_le_left _ _), Nat.min_comm, hcontent] at ha
    subst hfill
    split_ifs with hsecond
    · exact ha
    · rw [show n - min s.freeSliceLengths.2 n = 0 by omega, List.replicate_zero,
        overwrite_nil] at ha
      exact ha

theorem Wf.dropFirstN (h : r.Wf) (n : Nat) :
    (r.dropFirstN n).Wf ∧ (r.dropFirstN n).content = r.content.drop n := by
  have hhead := h.head_le
  have htail := h.tail_le
  have hlen := h.len_le
  have hhead' : r.wrap (r.head + min n r.len) ≤ r.cap - 1 := by
    rw [wrap]
    split_ifs <;> omega
  have hlen' : (r.dropFirstN n).len = r.len - min n r.len := by
    simp only [RingBuffer.dropFirstN, len_eq, wrap] at *
    split_ifs at * <;> omega
  refine ⟨⟨h.memory, hhead', htail, h.bounded⟩, ?_⟩
  have hdrop : r.content.drop n = r.content.drop (min n r.len) := by
    rcases Nat.le_total n r.len with hle | hge
    · rw [Nat.min_eq_left hle]
    · rw [Nat.min_eq_right hge, List.drop_of_length_le (by rw [length_content]; exact hge),
        List.drop_of_length_le (by rw [length_content])]
  rw [hdrop, content, hlen', content, drop_arc _ _ _ (Nat.min_le_right _ _)]
  rcases Nat.eq_zero_or_pos r.cap with hzero | hpos
  · rw [show r.len - min n r.len = 0 by omega]
    rfl
  · rw [← h.wrap_eq (by omega) hpos]
    rfl

theorem Wf.clear (h : r.Wf) : r.clear.Wf ∧ r.clear.content = [] :=
  ⟨⟨h.memory, Nat.zero_le _, Nat.zero_le _, h.bounded⟩, rfl⟩

end Operations

section Within

variable {r r' : RingBuffer} {start len : Nat}

/-- The bytes a copy from within appends. -/
def span (r : RingBuffer) (start len : Nat) : List UInt8 := (r.content.drop start).take len

theorem length_span (hin : start + len ≤ r.len) : (r.span start len).length = len := by
  rw [span, List.length_take, List.length_drop, length_content]
  omega

theorem getD_spanOf (hin : start + len ≤ r.len) {j : Nat} (hj : j < len) :
    (r.span start len).getD j default = r.buf.getD ((r.head + (start + j)) % r.cap) default := by
  rw [span, getD_span _ _ hj]
  have hlt : start + j < r.len := by omega
  simp only [content, arc, List.getD_eq_getElem?_getD, List.getElem?_map,
    List.getElem?_range hlt, Option.map_some, Option.getD_some]

/-- What a copy out of the ring's own memory lays down. -/
theorem copied_slice (k : CpuKernel) (mem : List UInt8) {src srcCap dstCap n : Nat}
    (hsrc : n ≤ srcCap) (hdst : n ≤ dstCap) (hmem : src + srcCap ≤ mem.length) :
    n ≤ ((mem.drop src).take (k.copied srcCap dstCap n)).length ∧
      ((mem.drop src).take (k.copied srcCap dstCap n)).length ≤ dstCap ∧
      ∀ j < n, ((mem.drop src).take (k.copied srcCap dstCap n)).getD j default =
        mem.getD (src + j) default := by
  obtain ⟨hle, hs, hd⟩ := k.copied_bounds hsrc hdst
  rw [List.length_take, List.length_drop]
  exact ⟨by omega, by omega, fun j hj => getD_span mem src (by omega)⟩

theorem copied_zero (k : CpuKernel) (src mem : List UInt8) (srcCap dst dstCap : Nat) :
    copyBytesOvershooting k src srcCap mem dst dstCap 0 = mem := by
  simp [copyBytesOvershooting, CpuKernel.copied]

theorem copyWithin_zero (k : CpuKernel) (r : RingBuffer) (start : Nat) :
    r.copyWithin k start 0 = r.buf := by
  simp [copyWithin, copied_zero]

/-- Below the tail, the first write of a flat ring changed nothing. -/
theorem getD_below (mem x : List UInt8) {tail s : Nat} (htail : tail ≤ mem.length)
    (h : s < tail) : (overwrite mem tail x).getD s default = mem.getD s default := by
  rw [getD_overwrite htail, if_neg (by omega)]

theorem copyWithin_flat (k : CpuKernel) (h : r.Wf) (hcap : 0 < r.cap) (hroom : len ≤ r.free)
    (hin : start + len ≤ r.len) (hflat : r.head < r.tail) :
    r.Appends (r.copyWithin k start len) (r.span start len) := by
  have hhead := h.head_le
  have htail := h.tail_le
  have hmem := h.memory hcap
  have hlen : r.len = r.tail - r.head := by rw [len_eq, if_pos (Nat.le_of_lt hflat)]
  have hfree := h.free_eq
  have hslot : ∀ j < len, (r.span start len).getD j default =
      r.buf.getD (r.head + start + j) default := by
    intro j hj
    rw [getD_spanOf hin hj, Nat.mod_eq_of_lt (by omega), Nat.add_assoc]
  have hsrc : min len (r.cap - r.tail) ≤ r.tail - r.head - start + wildcopyOverlength := by omega
  have hdst : min len (r.cap - r.tail) ≤ r.cap - r.tail + wildcopyOverlength := by omega
  have hread : r.head + start + (r.tail - r.head - start + wildcopyOverlength) ≤ r.buf.length := by
    omega
  obtain ⟨hx, hxfit, hxd⟩ := copied_slice k r.buf hsrc hdst hread
  have hparts := fun y => appends_parts (y := y) h hcap (by rwa [length_span hin])
    (by rw [length_span hin, if_pos (Nat.le_of_lt hflat)]) hx
    (fun j hj => by rw [hxd j hj, hslot j (by omega)])
    (by rw [if_pos (Nat.le_of_lt hflat)]; omega)
  simp only [length_span hin, if_pos (Nat.le_of_lt hflat)] at hparts
  simp only [copyWithin, copyBytesOvershooting, if_pos hflat]
  split_ifs with hsecond
  · -- the rest of the source lies below the tail, where nothing was written
    have hlen1 : (overwrite r.buf r.tail ((r.buf.drop (r.head + start)).take (k.copied
        (r.tail - r.head - start + wildcopyOverlength) (r.cap - r.tail + wildcopyOverlength)
        (min len (r.cap - r.tail))))).length = r.buf.length := length_overwrite (by omega)
    have hsrc' : len - min len (r.cap - r.tail) ≤
        r.tail - r.head - start + wildcopyOverlength - min len (r.cap - r.tail) := by omega
    have hdst' : len - min len (r.cap - r.tail) ≤ r.head := by omega
    obtain ⟨hy, hyfit, hyd⟩ := copied_slice k _ hsrc' hdst'
      (show r.head + start + min len (r.cap - r.tail) + _ ≤ _ by rw [hlen1]; omega)
    refine hparts _ hy (fun j hj => ?_) hyfit
    rw [hyd j hj, getD_below _ _ (by omega) (by omega), hslot _ (by omega), Nat.add_assoc]
  · have hdone := hparts [] (by rw [List.length_nil]; omega) (fun j hj => by omega) (Nat.zero_le _)
    rwa [overwrite_nil] at hdone

theorem copyWithin_wrapped (k : CpuKernel) (h : r.Wf) (hcap : 0 < r.cap) (hroom : len ≤ r.free)
    (hin : start + len ≤ r.len) (hwrapped : r.tail < r.head) :
    r.Appends (r.copyWithin k start len) (r.span start len) := by
  have hhead := h.head_le
  have hmem := h.memory hcap
  have hlen : r.len = r.cap - r.head + r.tail := by rw [len_eq, if_neg (Nat.not_le.mpr hwrapped)]
  have hfree := h.free_eq
  simp only [copyWithin, copyBytesOvershooting, if_neg (Nat.not_lt.mpr (Nat.le_of_lt hwrapped))]
  split_ifs with hround hsecond
  · have hslot : ∀ j < len, (r.span start len).getD j default =
        r.buf.getD (r.head + start - r.cap + j) default := by
      intro j hj
      rw [getD_spanOf hin hj, mod_two_rounds (by omega), if_pos (by omega)]
      congr 1
      omega
    have hw : r.wrap (r.head + start) = r.head + start - r.cap := by rw [wrap, if_pos hround]
    have hsrc : len ≤ r.tail - (r.head + start - r.cap) + wildcopyOverlength := by omega
    have hdst : len ≤ r.head - r.tail := by omega
    obtain ⟨hx, hxfit, hxd⟩ := copied_slice k r.buf hsrc hdst
      (show r.head + start - r.cap + _ ≤ _ by omega)
    have hsame : ∀ j < len, _ = (r.span start len).getD j default :=
      fun j hj => (hxd j hj).trans (hslot j hj).symm
    have ha := appends_pieces (y := []) h hcap hwrapped hx hsame (by omega)
      (by rw [length_span hin, Nat.sub_self]; exact Nat.zero_le _)
      (fun j hj => by rw [length_span hin] at hj; omega) (by rw [List.length_nil]; omega)
    rw [overwrite_nil] at ha
    rw [hw]
    exact ha
  all_goals
    have hslot : ∀ j < min len (r.cap - r.head - start), (r.span start len).getD j default =
        r.buf.getD (r.head + start + j) default := by
      intro j hj
      rw [getD_spanOf hin (by omega), Nat.mod_eq_of_lt (by omega), Nat.add_assoc]
    have hsrc : min len (r.cap - r.head - start) ≤
        r.cap - r.head - start + wildcopyOverlength := by omega
    have hdst : min len (r.cap - r.head - start) ≤ r.head - r.tail := by omega
    obtain ⟨hx, hxfit, hxd⟩ := copied_slice k r.buf hsrc hdst
      (show r.head + start + _ ≤ _ by omega)
    have hsame : ∀ j < min len (r.cap - r.head - start),
        _ = (r.span start len).getD j default := fun j hj => (hxd j hj).trans (hslot j hj).symm
    have hpieces := fun y => appends_pieces (y := y) h hcap hwrapped hx hsame (by omega)
    simp only [length_span hin] at hpieces
  · -- the source goes on at slot 0, below the tail
    have hlen1 : (overwrite r.buf r.tail ((r.buf.drop (r.head + start)).take (k.copied
        (r.cap - r.head - start + wildcopyOverlength) (r.head - r.tail)
        (min len (r.cap - r.head - start))))).length = r.buf.length := length_overwrite (by omega)
    have hsrc' : len - min len (r.cap - r.head - start) ≤ r.tail + wildcopyOverlength := by omega
    have hdst' : len - min len (r.cap - r.head - start) ≤
        r.head - r.tail - min len (r.cap - r.head - start) := by omega
    obtain ⟨hy, hyfit, hyd⟩ := copied_slice k _ hsrc' hdst' (show 0 + _ ≤ _ by rw [hlen1]; omega)
    rw [List.drop_zero] at hy hyfit hyd
    refine hpieces _ hy (fun j hj => ?_) (by omega)
    rw [hyd j hj, Nat.zero_add, getD_below _ _ (by omega) (by omega), getD_spanOf hin (by omega),
      mod_two_rounds (by omega), if_pos (by omega)]
    congr 1
    omega
  · have ha := hpieces [] (by rw [List.length_nil]; omega) (fun j hj => by omega)
      (by rw [List.length_nil]; omega)
    rwa [overwrite_nil] at ha

/-- The bytes appended, once they are behind the content, in memory that kept it. -/
theorem Wf.appendSpan (h : r.Wf) (hroom : len ≤ r.free) (hin : start + len ≤ r.len)
    {buf : List UInt8} (hbuf : 0 < len → 0 < r.cap → r.Appends buf (r.span start len))
    (hzero : len = 0 → buf = r.buf) :
    let r' := { r with buf := buf, tail := r.wrap (r.tail + len) }
    r'.Wf ∧ r'.content = r.content ++ r.span start len := by
  rcases Nat.eq_zero_or_pos len with rfl | hpos
  · have htail := h.tail_le
    have hw : r.wrap r.tail = r.tail := by
      rw [wrap]
      split_ifs <;> omega
    rw [hzero rfl, span, List.take_zero, List.append_nil, Nat.add_zero, hw]
    exact ⟨h, rfl⟩
  · have hcap : 0 < r.cap := by
      have := h.free_eq
      omega
    have ha := (hbuf hpos hcap).content h hcap (by rwa [length_span hin])
    rwa [length_span hin] at ha

/-- A copy within the room appends the range to the content. -/
theorem Wf.extendFromWithinUnchecked (k : CpuKernel) (h : r.Wf) (hroom : len ≤ r.free)
    (hin : start + len ≤ r.len) :
    (r.extendFromWithinUnchecked k start len).Wf ∧
      (r.extendFromWithinUnchecked k start len).content = r.content ++ r.span start len := by
  apply h.appendSpan hroom hin
  · intro hpos hcap
    rcases Nat.lt_or_ge r.head r.tail with hflat | hge
    · exact copyWithin_flat k h hcap hroom hin hflat
    · apply copyWithin_wrapped k h hcap hroom hin
      rw [len_eq] at hin
      split_ifs at hin <;> omega
  · intro h0
    rw [h0, copyWithin_zero]

theorem Wf.extendFromWithin (k : CpuKernel) (h : r.Wf) (hroomy : 0 < len → r.Roomy len)
    (hr : r.extendFromWithin k start len = some r') :
    r'.Wf ∧ r'.content = r.content ++ (r.content.drop start).take len := by
  simp only [RingBuffer.extendFromWithin] at hr
  split_ifs at hr with hin
  obtain ⟨s, hres, rfl⟩ := Option.map_eq_some_iff.mp hr
  obtain ⟨hwf, hcontent, hmade⟩ := h.reserve hres
  have hlen : s.len = r.len := by rw [← length_content, hcontent, length_content]
  have hroom : len ≤ s.free := by
    rcases Nat.eq_zero_or_pos len with rfl | hpos
    · exact Nat.zero_le _
    · exact hmade (hroomy hpos)
  rw [← hcontent]
  exact hwf.extendFromWithinUnchecked k hroom (by omega)

end Within

section Reading

variable {r r' : RingBuffer} {read : Reader} {mem : List UInt8} {n : Nat}

theorem readInto_ok {dst : Nat} (h : n ≤ read.bytes.length) (hdst : dst ≤ mem.length) :
    readInto read mem dst n =
      (true, overwrite mem dst (read.bytes.take n), { read with bytes := read.bytes.drop n }) := by
  simp only [readInto, Reader.readExact, if_pos h]
  rw [overwrite_overwrite hdst (by rw [List.length_replicate, List.length_take, Nat.min_eq_left h])]

theorem readInto_error {dst : Nat} (h : ¬n ≤ read.bytes.length) :
    ∃ x y : List UInt8, ∃ rest, x.length ≤ n ∧ y.length ≤ n ∧
      readInto read mem dst n = (false, overwrite (overwrite mem dst x) dst y, rest) := by
  simp only [readInto, Reader.readExact, if_neg h]
  refine ⟨_, _, _, ?_, ?_, rfl⟩
  · rw [List.length_replicate]
  · rw [List.length_take]
    omega

/-- A source that ends early leaves the content alone. -/
theorem Wf.extendFromReader (h : r.Wf) (hroomy : 0 < n → r.Roomy n) {ok : Bool}
    (hr : r.extendFromReader read n = some (ok, r')) :
    r'.Wf ∧ ok = decide (n ≤ read.bytes.length) ∧
      r'.content = r.content ++ if ok then read.bytes.take n else [] := by
  simp only [RingBuffer.extendFromReader] at hr
  split_ifs at hr with hzero
  · cases hr
    subst hzero
    exact ⟨h, by simp, by simp⟩
  · obtain ⟨s, hres, hs⟩ := Option.map_eq_some_iff.mp hr
    obtain ⟨hwf, hcontent, hmade⟩ := h.reserve hres
    have hroom := hmade (hroomy (by omega))
    have hcap : 0 < s.cap := by
      have := hwf.free_eq
      omega
    have hkeeps : s.Keeps s.buf := ⟨rfl, fun _ _ => rfl⟩
    have htail : s.tail ≤ s.buf.length := by
      have := hwf.tail_le
      have := hwf.memory hcap
      omega
    have hfirst : min s.freeSliceLengths.2 n ≤ s.freeSliceLengths.2 := Nat.min_le_left _ _
    have hrest : n - min s.freeSliceLengths.2 n ≤ s.freeSliceLengths.1 := by
      rw [RingBuffer.free] at hroom
      omega
    rw [← hcontent]
    by_cases h1 : min s.freeSliceLengths.2 n ≤ read.bytes.length
    · simp only [readInto_ok h1 htail] at hs
      have hkept := hkeeps.tail hwf hcap
        (Nat.le_trans (List.length_take_le (min s.freeSliceLengths.2 n) read.bytes) hfirst)
      by_cases h2 : n ≤ read.bytes.length
      · -- both reads succeed
        have hlen : (read.bytes.take n).length = n := by rw [List.length_take, Nat.min_eq_left h2]
        have ha := (appends_split hwf hcap (hlen.le.trans hroom)).content hwf hcap
          (hlen.le.trans hroom)
        rw [hlen, List.take_take, Nat.min_eq_left (Nat.min_le_left _ _), List.drop_take,
          Nat.min_comm] at ha
        split_ifs at hs with hsecond
        · have h3 : n - min s.freeSliceLengths.2 n ≤ (Reader.mk (read.bytes.drop
              (min s.freeSliceLengths.2 n)) read.kept).bytes.length := by
            rw [List.length_drop]
            omega
          simp only [readInto_ok h3 (Nat.zero_le _)] at hs
          cases hs
          exact ⟨ha.1, (decide_eq_true h2).symm, ha.2⟩
        · rw [show n - min s.freeSliceLengths.2 n = 0 by omega, List.take_zero,
            overwrite_nil] at ha
          cases hs
          exact ⟨ha.1, (decide_eq_true h2).symm, ha.2⟩
      · rw [if_pos (by omega)] at hs
        have h3 : ¬n - min s.freeSliceLengths.2 n ≤ (Reader.mk (read.bytes.drop
            (min s.freeSliceLengths.2 n)) read.kept).bytes.length := by
          rw [List.length_drop]
          omega
        obtain ⟨x, y, rest, hx, hy, heq⟩ := @readInto_error _
          (overwrite s.buf s.tail (read.bytes.take (min s.freeSliceLengths.2 n))) _ 0 h3
        simp only [heq] at hs
        cases hs
        obtain ⟨hwf', hsame⟩ := ((hkept.start hwf hcap (hx.trans hrest)).start hwf hcap
          (hy.trans hrest)).content hwf
        exact ⟨hwf', (decide_eq_false h2).symm, hsame.trans (List.append_nil _).symm⟩
    · obtain ⟨x, y, rest, hx, hy, heq⟩ := @readInto_error _ s.buf _ s.tail h1
      simp only [heq] at hs
      cases hs
      obtain ⟨hwf', hsame⟩ := ((hkeeps.tail hwf hcap (hx.trans hfirst)).tail hwf hcap
        (hy.trans hfirst)).content hwf
      exact ⟨hwf', (decide_eq_false (by omega)).symm, hsame.trans (List.append_nil _).symm⟩

end Reading

end RingBuffer

/-- The operations on a ring, with the limits that are set between them. -/
inductive Op where
  | extend (data : List UInt8)
  | extendAndFill (fillWith : UInt8) (fillLength : Nat)
  | extendFromReader (read : Reader) (fillLength : Nat)
  | extendFromWithin (start len : Nat)
  | dropFirstN (amount : Nat)
  | reserve (amount : Nat)
  | tryReserve (amount : Nat)
  | clear
  | setGrowthLimit (growthLimit : Nat)
  | setMaxCapacity (maxCapacity : Nat)

namespace Op

/-- The ring after the operation, failed or not; `none` where it panics. -/
def apply (k : CpuKernel) (r : RingBuffer) : Op → Option RingBuffer
  | .extend data => r.extend k data
  | .extendAndFill fillWith fillLength => r.extendAndFill fillWith fillLength
  | .extendFromReader read fillLength => (r.extendFromReader read fillLength).map Prod.snd
  | .extendFromWithin start len => r.extendFromWithin k start len
  | .dropFirstN amount => some (r.dropFirstN amount)
  | .reserve amount => r.reserve amount
  | .tryReserve amount =>
    (r.tryReserve amount).map fun
      | .ok r => r
      | .error _ => r
  | .clear => some r.clear
  | .setGrowthLimit growthLimit => some (r.setGrowthLimit growthLimit)
  | .setMaxCapacity maxCapacity => some (r.setMaxCapacity maxCapacity)

/-- What the operation does to a plain list of bytes. -/
def onQueue (q : List UInt8) : Op → List UInt8
  | .extend data => q ++ data
  | .extendAndFill fillWith fillLength => q ++ List.replicate fillLength fillWith
  | .extendFromReader read fillLength =>
    if fillLength ≤ read.bytes.length then q ++ read.bytes.take fillLength else q
  | .extendFromWithin start len => q ++ (q.drop start).take len
  | .dropFirstN amount => q.drop amount
  | .clear => []
  | _ => q

/-- The number of bytes the operation may write. -/
def written : Op → Nat
  | .extend data => data.length
  | .extendAndFill _ fillLength => fillLength
  | .extendFromReader _ fillLength => fillLength
  | .extendFromWithin _ len => len
  | _ => 0

end Op

def run (k : CpuKernel) : RingBuffer → List Op → Option RingBuffer
  | r, [] => some r
  | r, op :: ops => (op.apply k r).bind fun r => run k r ops

def queueRun : List UInt8 → List Op → List UInt8
  | q, [] => q
  | q, op :: ops => queueRun (op.onQueue q) ops

/-- Every write of the run is roomy in the ring it finds. -/
def RoomyRun (k : CpuKernel) : RingBuffer → List Op → Prop
  | _, [] => True
  | r, op :: ops =>
    (0 < op.written → r.Roomy op.written) ∧ ∀ r' ∈ op.apply k r, RoomyRun k r' ops

instance (r : RingBuffer) (n : Nat) : Decidable (r.Roomy n) :=
  inferInstanceAs (Decidable (_ ∧ _))

instance decidableRoomyRun (k : CpuKernel) :
    (r : RingBuffer) → (ops : List Op) → Decidable (RoomyRun k r ops)
  | _, [] => isTrue trivial
  | r, op :: ops =>
    have : DecidablePred fun r' => RoomyRun k r' ops := fun r' => decidableRoomyRun k r' ops
    inferInstanceAs (Decidable ((0 < op.written → r.Roomy op.written) ∧
      ∀ r' ∈ op.apply k r, RoomyRun k r' ops))

theorem Op.apply_spec {k : CpuKernel} {r r' : RingBuffer} {op : Op} (h : r.Wf)
    (hroomy : 0 < op.written → r.Roomy op.written) (hr : op.apply k r = some r') :
    r'.Wf ∧ r'.content = op.onQueue r.content := by
  cases op with
  | extend data => exact h.extend k hroomy hr
  | extendAndFill fillWith fillLength => exact h.extendAndFill hroomy hr
  | extendFromReader read fillLength =>
    obtain ⟨⟨ok, s⟩, hs, rfl⟩ := Option.map_eq_some_iff.mp hr
    obtain ⟨hwf, rfl, hcontent⟩ := h.extendFromReader hroomy hs
    refine ⟨hwf, hcontent.trans ?_⟩
    by_cases hle : fillLength ≤ read.bytes.length <;> simp [Op.onQueue, Op.written, hle]
  | extendFromWithin start len => exact h.extendFromWithin k hroomy hr
  | dropFirstN amount =>
    cases hr
    exact h.dropFirstN amount
  | reserve amount =>
    obtain ⟨hwf, hcontent, -⟩ := h.reserve hr
    exact ⟨hwf, hcontent⟩
  | tryReserve amount =>
    obtain ⟨res, hres, rfl⟩ := Option.map_eq_some_iff.mp hr
    simp only [RingBuffer.tryReserve] at hres
    split_ifs at hres with hmax
    · cases hres
      exact ⟨h, rfl⟩
    · obtain ⟨s, hs, rfl⟩ := Option.map_eq_some_iff.mp hres
      obtain ⟨hwf, hcontent, -⟩ := h.reserve hs
      exact ⟨hwf, hcontent⟩
  | clear =>
    cases hr
    exact h.clear
  | setGrowthLimit growthLimit =>
    cases hr
    exact ⟨⟨h.memory, h.head_le, h.tail_le, h.bounded⟩, rfl⟩
  | setMaxCapacity maxCapacity =>
    cases hr
    exact ⟨⟨h.memory, h.head_le, h.tail_le, h.bounded⟩, rfl⟩

theorem run_spec {k : CpuKernel} {ops : List Op} {r r' : RingBuffer} (h : r.Wf)
    (hroomy : RoomyRun k r ops) (hr : run k r ops = some r') :
    r'.Wf ∧ r'.content = queueRun r.content ops := by
  induction ops generalizing r with
  | nil =>
    cases hr
    exact ⟨h, rfl⟩
  | cons op ops ih =>
    obtain ⟨s, hs, hrest⟩ := Option.bind_eq_some_iff.mp hr
    obtain ⟨hwf, hcontent⟩ := op.apply_spec h hroomy.1 hs
    rw [queueRun, ← hcontent]
    exact ih hwf (hroomy.2 s hs) hrest

/-- A ring nothing was written to: not allocated, or over the caller's memory. -/
def Fresh (r : RingBuffer) : Prop :=
  r = RingBuffer.new ∨
    ∃ buf cap, 0 < cap ∧ buf.length = cap + wildcopyOverlength ∧ r = RingBuffer.fromBorrowed buf cap

theorem Fresh.wf {r : RingBuffer} (h : Fresh r) : r.Wf ∧ r.content = [] := by
  rcases h with rfl | ⟨buf, cap, -, hbuf, rfl⟩
  · exact ⟨⟨nofun, Nat.zero_le _, Nat.zero_le _, fun _ => by decide⟩, rfl⟩
  · exact ⟨⟨fun _ => hbuf, Nat.zero_le _, Nat.zero_le _, nofun⟩, rfl⟩

/-- The ring is a byte queue along every run whose writes are roomy. -/
theorem ring_refines_queue (k : CpuKernel) {r r' : RingBuffer} (hfresh : Fresh r) {ops : List Op}
    (hroomy : RoomyRun k r ops) (hr : run k r ops = some r') :
    r'.content = queueRun [] ops ∧ (0 < r'.cap → r'.head < r'.cap ∧ r'.tail < r'.cap) ∧
      (r'.head = r'.tail ↔ queueRun [] ops = []) ∧
      (0 < r'.cap → r'.len + r'.free = r'.cap - 1) := by
  obtain ⟨hwf, hempty⟩ := hfresh.wf
  obtain ⟨hwf', hcontent⟩ := run_spec hwf hroomy hr
  rw [hempty] at hcontent
  have hhead := hwf'.head_le
  have htail := hwf'.tail_le
  have hlen := hwf'.len_le
  refine ⟨hcontent, fun _ => ⟨by omega, by omega⟩, ?_, fun _ => ?_⟩
  · rw [← hcontent, ← List.length_eq_zero_iff, RingBuffer.length_content, RingBuffer.len_eq]
    split_ifs <;> omega
  · rw [hwf'.free_eq]
    omega

/-- A run that goes round the ring with both the data written and the data copied. -/
theorem ring_refines_queue_round :
    ∃ r', run scalarKernel .new [.extend [1, 2, 3, 4, 5, 6], .dropFirstN 5, .extend [7, 8, 9, 10],
        .extendFromWithin 1 3] = some r' ∧ r'.content = [6, 7, 8, 9, 10, 7, 8, 9] := by
  have hroomy : RoomyRun scalarKernel .new [.extend [1, 2, 3, 4, 5, 6], .dropFirstN 5,
      .extend [7, 8, 9, 10], .extendFromWithin 1 3] := by decide +kernel
  obtain ⟨r', hr⟩ := Option.isSome_iff_exists.mp
    (show (run scalarKernel .new [.extend [1, 2, 3, 4, 5, 6], .dropFirstN 5,
      .extend [7, 8, 9, 10], .extendFromWithin 1 3]).isSome by decide +kernel)
  exact ⟨r', hr, (ring_refines_queue scalarKernel (.inl rfl) hroomy hr).1⟩

/-- Asked for one byte more than its growth limit, an unallocated ring gets no sentinel slot: the
write fills it and it looks empty. -/
theorem first_write_past_growth_limit_is_lost :
    (run scalarKernel .new [.setGrowthLimit 3, .extend [1, 2, 3, 4]]).map
        (fun r => (r.content, r.head, r.tail)) = some ([], 0, 0) ∧
      queueRun [] [.setGrowthLimit 3, .extend [1, 2, 3, 4]] = [1, 2, 3, 4] := by
  decide +kernel

end Ring
