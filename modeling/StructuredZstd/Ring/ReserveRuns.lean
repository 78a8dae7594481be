import StructuredZstd.Ring.QueueRuns

namespace Ring

open Bits.Circular
open Decoding (wildcopyOverlength)

namespace RingBuffer

variable {r r' : RingBuffer} {n : Nat}

/-- What a caller counts on in `r'` after it reserved `n` bytes in `r`. -/
structure Ensures (k : CpuKernel) (r r' : RingBuffer) (n : Nat) : Prop where
  free : n ≤ r'.free
  content : r'.content = r.content
  extend : ∀ data, data.length = n → ∃ r'', r'.extend k data = some r'' ∧ r''.len = r'.len + n

theorem reserve_of_le_free (h : n ≤ r.free) : r.reserve n = some r := by
  simp only [RingBuffer.reserve, if_pos h]
  split <;> rfl

/-- A write the free slots hold grows nothing and moves the tail by its length. -/
theorem Wf.extend_of_le_free (k : CpuKernel) (h : r.Wf) {data : List UInt8}
    (hroom : data.length ≤ r.free) :
    ∃ r', r.extend k data = some r' ∧ r'.len = r.len + data.length := by
  have hhead := h.head_le
  have htail := h.tail_le
  have hfree := hroom
  rw [h.free_eq, len_eq] at hfree
  simp only [RingBuffer.extend, reserve_of_le_free hroom]
  split_ifs with hnil hflat hfit hend
  all_goals refine ⟨_, rfl, ?_⟩
  all_goals simp only [len_eq, wrap]
  all_goals split_ifs at * <;> omega

/-- Room that is there is all a caller needs. -/
theorem Wf.ensures_iff (k : CpuKernel) (h : r'.Wf) (hcontent : r'.content = r.content) :
    Ensures k r r' n ↔ n ≤ r'.free := by
  constructor
  · exact Ensures.free
  · intro hfree
    refine ⟨hfree, hcontent, ?_⟩
    rintro data rfl
    exact h.extend_of_le_free k hfree

/-- A ring that had to grow has the room exactly when the request was roomy. -/
theorem Wf.reserve_free_iff (h : r.Wf) (hr : r.reserve n = some r') :
    n ≤ r'.free ↔ n ≤ r.free ∨ r.Roomy n := by
  obtain ⟨hwf, hcontent, hmade⟩ := h.reserve hr
  have hlen : r'.len = r.len := by rw [← length_content, hcontent, length_content]
  by_cases hroom : n ≤ r.free
  · rw [reserve_of_le_free hroom] at hr
    cases hr
    simp [hroom]
  · have hfree := h.free_eq
    have hlen' := h.len_le
    have hgrown : r.reserveAmortized (n - r.free) = some r' := by
      simp only [RingBuffer.reserve, if_neg hroom] at hr
      rwa [if_neg] at hr
      rintro ⟨hle, hlt⟩
      rw [hfree, len_eq, if_pos hle] at hroom
      omega
    obtain ⟨-, -, hcap⟩ := h.reserveAmortized (by omega) hgrown
    have hborrowed : r'.borrowed = false := by
      simp only [RingBuffer.reserveAmortized] at hgrown
      split_ifs at hgrown with hb
      cases hgrown
      simp only [RingBuffer.relocate]
      split <;> simpa using hb
    have hbounded := hwf.bounded hborrowed
    constructor
    · intro hgot
      rw [hwf.free_eq, hlen, hcap] at hgot
      rw [hcap] at hbounded
      refine Or.inr ⟨fun hzero hlimit => ?_, by omega⟩
      -- an empty ring: the limit cuts the request itself
      have htarget : r.growthTarget (r.cap + (n - r.free)) ≤ r.growthLimit := by
        rw [growthTarget, if_pos (by omega)]
        exact Nat.min_le_right _ _
      omega
    · rintro (hle | hroomy)
      · exact absurd hle hroom
      · exact hmade hroomy

end RingBuffer

open RingBuffer

section Reachable

variable {k : CpuKernel} {r r' : RingBuffer}

/-- Asked for just one byte more than its limit, an unallocated ring gets that many slots and none
for the sentinel. -/
theorem RingBuffer.Wf.reserve_at_limit (h : r.Wf) (hcap : r.cap = 0) {n : Nat}
    (hn : n = r.growthLimit + 1) (hhalf : n < 2 ^ 63) (hr : r.reserve n = some r') :
    r'.Wf ∧ r'.head = 0 ∧ r'.tail = 0 ∧ r'.cap = n := by
  have hhead := h.head_le
  have htail := h.tail_le
  have hfree := h.free_eq
  obtain ⟨hwf, -, -⟩ := h.reserve hr
  refine ⟨hwf, ?_⟩
  have hgrown : r.reserveAmortized n = some r' := by
    simp only [RingBuffer.reserve] at hr
    rw [if_neg (by omega), if_neg (by omega), hfree] at hr
    simpa [hcap] using hr
  obtain ⟨-, -, hcap'⟩ := h.reserveAmortized (by omega) hgrown
  have htarget : r.growthTarget n = r.growthLimit := by
    have hle := le_nextPowerOfTwo (n := n) (by omega)
    rw [growthTarget, if_pos (by omega)]
    omega
  rw [hcap, Nat.zero_add, htarget, ← hn] at hcap'
  simp only [RingBuffer.reserveAmortized] at hgrown
  split_ifs at hgrown
  cases hgrown
  simp only [RingBuffer.relocate, hcap, Nat.lt_irrefl, if_false] at hcap' ⊢
  exact ⟨by omega, by omega, hcap'⟩

/-- The write that fills such a ring leaves it well formed, and empty. -/
theorem RingBuffer.Wf.filled (h : r.Wf) (hcap : 0 < r.cap) (hhead : r.head = 0) {mem : List UInt8}
    (hmem : mem.length = r.buf.length) : { r with buf := mem, tail := 0 }.Wf :=
  ⟨fun _ => hmem.trans (h.memory hcap), by dsimp only; omega, Nat.zero_le _, h.bounded⟩

theorem RingBuffer.Wf.overwritten (h : r.Wf) {mem : List UInt8}
    (hmem : mem.length = r.buf.length) : { r with buf := mem }.Wf :=
  ⟨fun hc => hmem.trans (h.memory hc), h.head_le, h.tail_le, h.bounded⟩

theorem length_readInto {read : Decoding.Reader} {mem : List UInt8} {dst n : Nat}
    (h : dst + n ≤ mem.length) : (readInto read mem dst n).2.1.length = mem.length := by
  by_cases hle : n ≤ read.bytes.length
  · rw [readInto_ok hle (by omega)]
    apply length_overwrite
    rw [List.length_take]
    omega
  · obtain ⟨x, y, rest, hx, hy, heq⟩ := @readInto_error read mem n dst hle
    have hfirst : (overwrite mem dst x).length = mem.length := length_overwrite (by omega)
    rw [heq]
    exact (length_overwrite (by omega)).trans hfirst

/-- Every operation keeps a ring well formed where its sums stay in half of the address space,
whether its writes are roomy or not. -/
theorem Op.apply_wf {op : Op} (h : r.Wf) (hhalf : r.len + op.written < 2 ^ 63)
    (hr : op.apply k r = some r') : r'.Wf := by
  by_cases hroomy : 0 < op.written → r.Roomy op.written
  · exact (op.apply_spec h hroomy hr).1
  · -- what is left are the writes one past the limit of an unallocated ring
    push Not at hroomy
    obtain ⟨hpos, hnot⟩ := hroomy
    have hzero : r.cap = 0 ∧ op.written = r.growthLimit + 1 := by
      by_contra hne
      exact hnot ⟨fun hz hl => hne ⟨hz, hl⟩, hhalf⟩
    obtain ⟨hcap, hlimit⟩ := hzero
    cases op with
    | extend data =>
      simp only [Op.written] at hpos hlimit hhalf
      simp only [Op.apply, RingBuffer.extend] at hr
      rw [if_neg (by omega), if_neg (by omega)] at hr
      cases hs : r.reserve data.length with
      | none => simp [hs] at hr
      | some s =>
        obtain ⟨hwf, hhead, htail, hcap'⟩ := h.reserve_at_limit hcap hlimit (by omega) hs
        have hmem := hwf.memory (by omega)
        simp only [hs] at hr
        rw [if_pos (by omega), if_pos (by omega), copy_exact k data s.buf s.tail (by omega),
          List.take_length] at hr
        cases hr
        exact hwf.filled (by omega) hhead (length_overwrite (by omega))
    | extendAndFill fillWith n =>
      simp only [Op.written] at hpos hlimit hhalf
      simp only [Op.apply, RingBuffer.extendAndFill] at hr
      rw [if_neg (by omega)] at hr
      obtain ⟨s, hs, rfl⟩ := Option.map_eq_some_iff.mp hr
      obtain ⟨hwf, hhead, htail, hcap'⟩ := h.reserve_at_limit hcap hlimit (by omega) hs
      have hmem := hwf.memory (by omega)
      have hall : s.freeSliceLengths.2 = n := by
        simp [freeSliceLengths, hhead, htail, hcap']
      have hwrap : s.wrap (s.tail + n) = 0 := by
        rw [wrap, htail, hcap']
        simp
      simp only [hall, Nat.min_self, Nat.lt_irrefl, if_false, hwrap]
      apply hwf.filled (by omega) hhead
      apply length_overwrite
      rw [List.length_replicate]
      omega
    | extendFromReader read n =>
      simp only [Op.written] at hpos hlimit hhalf
      simp only [Op.apply, RingBuffer.extendFromReader] at hr
      rw [if_neg (by omega)] at hr
      simp only [Option.map_map] at hr
      obtain ⟨s, hs, hread⟩ := Option.map_eq_some_iff.mp hr
      obtain ⟨hwf, hhead, htail, hcap'⟩ := h.reserve_at_limit hcap hlimit (by omega) hs
      have hmem := hwf.memory (by omega)
      have hall : s.freeSliceLengths.2 = n := by
        simp [freeSliceLengths, hhead, htail, hcap']
      have hwrap : s.wrap (s.tail + n) = 0 := by
        rw [wrap, htail, hcap']
        simp
      have hlen := @length_readInto read s.buf s.tail n (by omega)
      simp only [Function.comp_apply, hall, Nat.min_self, Nat.lt_irrefl, if_false,
        hwrap] at hread
      cases hres : readInto read s.buf s.tail n with
      | mk ok rest =>
        rw [hres] at hread hlen
        subst hread
        cases ok with
        | true => exact hwf.filled (by omega) hhead hlen
        | false => exact hwf.overwritten hlen
    | extendFromWithin start n =>
      simp only [Op.written] at hpos hlimit hhalf
      simp only [Op.apply, RingBuffer.extendFromWithin] at hr
      have hlen := h.len_le
      rw [if_pos (by omega)] at hr
      cases hr
    | dropFirstN amount => cases hpos
    | reserve amount => cases hpos
    | tryReserve amount => cases hpos
    | clear => cases hpos
    | setGrowthLimit growthLimit => cases hpos
    | setMaxCapacity maxCapacity => cases hpos

/-- Every write of the run has its content and its request together in half of the address
space. -/
def HalfRun (k : CpuKernel) : RingBuffer → List Op → Prop
  | _, [] => True
  | r, op :: ops => r.len + op.written < 2 ^ 63 ∧ ∀ r' ∈ op.apply k r, HalfRun k r' ops

instance decidableHalfRun (k : CpuKernel) :
    (r : RingBuffer) → (ops : List Op) → Decidable (HalfRun k r ops)
  | _, [] => isTrue trivial
  | r, op :: ops =>
    have : DecidablePred fun r' => HalfRun k r' ops := fun r' => decidableHalfRun k r' ops
    inferInstanceAs (Decidable (r.len + op.written < 2 ^ 63 ∧
      ∀ r' ∈ op.apply k r, HalfRun k r' ops))

theorem run_wf {ops : List Op} (h : r.Wf) (hhalf : HalfRun k r ops) (hr : run k r ops = some r') :
    r'.Wf := by
  induction ops generalizing r with
  | nil =>
    cases hr
    exact h
  | cons op ops ih =>
    obtain ⟨s, hs, hrest⟩ := Option.bind_eq_some_iff.mp hr
    exact ih (op.apply_wf h hhalf.1 hs) (hhalf.2 s hs) hrest

theorem tryReserve_ok {n : Nat} (hr : r.tryReserve n = some (.ok r')) : r.reserve n = some r' := by
  simp only [RingBuffer.tryReserve] at hr
  split_ifs at hr
  · cases hr
  · obtain ⟨s, hs, heq⟩ := Option.map_eq_some_iff.mp hr
    cases heq
    exact hs

/-- In every ring a run can leave, lost writes included, a reservation that returns has made its
room exactly when the room was there already or the request was roomy. -/
theorem reserve_ensures_iff (k : CpuKernel) {fresh : RingBuffer} (hfresh : Fresh fresh)
    {ops : List Op} (hhalf : HalfRun k fresh ops) (hrun : run k fresh ops = some r) (n : Nat) :
    (∀ r', r.reserve n = some r' → (Ensures k r r' n ↔ n ≤ r.free ∨ r.Roomy n)) ∧
      ∀ r', r.tryReserve n = some (.ok r') → (Ensures k r r' n ↔ n ≤ r.free ∨ r.Roomy n) := by
  have hwf := run_wf hfresh.wf.1 hhalf hrun
  have hreserve : ∀ r', r.reserve n = some r' → (Ensures k r r' n ↔ n ≤ r.free ∨ r.Roomy n) := by
    intro r' hr
    obtain ⟨hwf', hcontent, -⟩ := hwf.reserve hr
    rw [hwf'.ensures_iff k hcontent]
    exact hwf.reserve_free_iff hr
  exact ⟨hreserve, fun r' hr => hreserve r' (tryReserve_ok hr)⟩

/-- A ring that has wrapped and must grow under a limit. -/
theorem reserve_ensures_wrapped :
    ∃ r r', run scalarKernel .new [.setGrowthLimit 9, .extend [1, 2, 3, 4, 5, 6], .dropFirstN 5,
        .extend [7, 8, 9, 10]] = some r ∧ r.reserve 4 = some r' ∧ Ensures scalarKernel r r' 4 := by
  have hhalf : HalfRun scalarKernel .new [.setGrowthLimit 9, .extend [1, 2, 3, 4, 5, 6],
      .dropFirstN 5, .extend [7, 8, 9, 10]] := by decide +kernel
  obtain ⟨r, hr⟩ := Option.isSome_iff_exists.mp
    (show (run scalarKernel .new [.setGrowthLimit 9, .extend [1, 2, 3, 4, 5, 6], .dropFirstN 5,
      .extend [7, 8, 9, 10]]).isSome by decide +kernel)
  obtain ⟨r', hr'⟩ := Option.isSome_iff_exists.mp
    (show (r.reserve 4).isSome by
      have h : ((run scalarKernel .new [.setGrowthLimit 9, .extend [1, 2, 3, 4, 5, 6],
        .dropFirstN 5, .extend [7, 8, 9, 10]]).bind (·.reserve 4)).isSome := by decide +kernel
      rwa [hr] at h)
  refine ⟨r, r', hr, hr', ?_⟩
  have hroomy : r.Roomy 4 := by
    have h : ∀ r ∈ run scalarKernel .new [.setGrowthLimit 9, .extend [1, 2, 3, 4, 5, 6],
        .dropFirstN 5, .extend [7, 8, 9, 10]], r.Roomy 4 := by decide +kernel
    exact h r hr
  exact ((reserve_ensures_iff scalarKernel (.inl rfl) hhalf hr 4).1 r' hr').mpr (.inr hroomy)

/-- Both ways to reserve leave an unallocated ring one slot short, and a write that relies on its
own reservation is lost. -/
theorem reserve_at_growth_limit_is_short :
    (run scalarKernel .new [.setGrowthLimit 3, .reserve 4]).map RingBuffer.free = some 3 ∧
      (run scalarKernel .new [.setGrowthLimit 3, .tryReserve 4]).map RingBuffer.free = some 3 ∧
      (run scalarKernel .new [.setGrowthLimit 3, .extend [1, 2, 3, 4]]).map
        RingBuffer.len = some 0 := by
  decide +kernel

end Reachable

end Ring
