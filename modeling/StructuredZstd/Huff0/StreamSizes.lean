import StructuredZstd.Huff0.EncoderStreams
import StructuredZstd.Huff0.StreamRounds

namespace Huff0.Encoder

open Bits

/-- The width a packed code carries in its low byte. -/
def width (elt : Nat) : Nat := elt &&& 0xFF

def widths (elts : List Nat) : Nat := (elts.map width).sum

theorem width_eq (elt : Nat) : width elt = elt % 256 :=
  Nat.and_two_pow_sub_one_eq_mod elt 8

theorem widths_cons (elt : Nat) (elts : List Nat) :
    widths (elt :: elts) = width elt + widths elts := by
  simp [widths]

theorem widths_append (as bs : List Nat) : widths (as ++ bs) = widths as + widths bs := by
  simp [widths]

theorem widths_le {elts : List Nat} {log : Nat} (h : ∀ elt ∈ elts, width elt ≤ log) :
    widths elts ≤ elts.length * log := by
  induction elts with
  | nil => simp [widths]
  | cons elt elts ih =>
    have h1 := h elt List.mem_cons_self
    have h2 := ih fun x hx => h x (List.mem_cons_of_mem _ hx)
    rw [widths_cons, List.length_cons, Nat.add_one_mul]
    omega

/-- The low byte of a packed code is its width. -/
theorem width_packHufCelt {value nbBits : Nat} (hn : nbBits ≤ 12) :
    width (packHufCelt value nbBits) = nbBits := by
  rw [width_eq, packHufCelt]
  split
  · rename_i h0
    exact h0.symm
  · have hshift : value <<< (64 - nbBits) % 2 ^ 8 = 0 := by
      apply Nat.mod_eq_zero_of_dvd
      rw [Nat.shiftLeft_eq]
      exact (Nat.pow_dvd_pow 2 (by omega)).mul_left value
    rw [show 256 = 2 ^ 8 from rfl, Nat.or_mod_two_pow, hshift, Nat.or_zero,
      Nat.mod_eq_of_lt (by omega)]

theorem streamBytes_eq (bits : Nat) : streamBytes bits = bits / 8 + 1 := by
  unfold streamBytes
  split <;> omega

namespace Container

variable {c : Container}

/-- The bits a container really holds. -/
def held (c : Container) : Nat := c.pos &&& 0xFF

theorem held_eq (c : Container) : c.held = c.pos % 256 := Nat.and_two_pow_sub_one_eq_mod c.pos 8

theorem held_add (fast : Bool) (c : Container) (elt : Nat) :
    (c.add fast elt).held = (c.held + width elt) % 256 := by
  have hmod : ∀ x, x % 2 ^ 64 % 256 = x % 256 := fun x => Nat.mod_mod_of_dvd x (by decide)
  simp only [held_eq, add, width_eq, hmod]
  cases fast with
  | true => simp [Nat.add_mod]
  | false =>
    have : elt &&& 0xFF = elt % 256 := Nat.and_two_pow_sub_one_eq_mod elt 8
    simp [this, Nat.add_mod]

theorem held_add_of_lt (fast : Bool) {elt : Nat} (h : c.held + width elt < 256) :
    (c.add fast elt).held = c.held + width elt := by
  rw [held_add, Nat.mod_eq_of_lt h]

theorem held_addSlow {elts : List Nat} (h : c.held + widths elts < 256) :
    (c.addSlow elts).held = c.held + widths elts := by
  induction elts generalizing c with
  | nil => rfl
  | cons elt elts ih =>
    rw [widths_cons] at h ⊢
    have hstep : (c.add false elt).held = c.held + width elt := held_add_of_lt _ (by omega)
    change ((c.add false elt).addSlow elts).held = _
    rw [ih (by omega), hstep]
    omega

theorem held_addGroup (lastFast : Bool) {elts : List Nat} (h : c.held + widths elts < 256) :
    (c.addGroup lastFast elts).held = c.held + widths elts := by
  induction elts generalizing c with
  | nil => rfl
  | cons elt elts ih =>
    rw [widths_cons] at h ⊢
    cases elts with
    | nil =>
      rw [addGroup, held_add_of_lt _ (by omega)]
      rfl
    | cons elt' elts =>
      have hstep : (c.add true elt).held = c.held + width elt := held_add_of_lt _ (by omega)
      change ((c.add true elt).addGroup lastFast (elt' :: elts)).held = _
      rw [ih (by omega), hstep]
      omega

theorem held_merge {c1 : Container} (h : c.held + c1.held < 256) :
    (c.merge c1).held = c.held + c1.held := by
  have hmod : (c.pos + c1.pos) % 2 ^ 64 % 256 = (c.pos + c1.pos) % 256 :=
    Nat.mod_mod_of_dvd _ (by decide)
  rw [held_eq] at h ⊢
  rw [held_eq] at h ⊢
  rw [held_eq]
  simp only [merge, hmod]
  omega

end Container

namespace HufCStream

/-- A stream that has taken `bits` bits, fewer than eight of them not committed yet. -/
structure Counted (s : HufCStream) (bits room : Nat) : Prop where
  bits_eq : 8 * s.committed.length + s.container.held = bits
  held_lt : s.container.held < 8
  room_eq : s.room = room
  fits : s.overflow = false

variable {s : HufCStream} {bits room log unroll : Nat} {elts : List Nat}

/-- A flush counts the whole bytes out, while they stay in the room. -/
theorem flushBits_counted (fast : Bool) (hbits : 8 * s.committed.length + s.container.held = bits)
    (hheld : s.container.held < 64) (hroom : s.room = room) (hfits : s.overflow = false)
    (hle : bits / 8 ≤ room) : (s.flushBits fast).Counted bits room ∧
      (s.flushBits fast).scratch.length = 8 - s.container.held / 8 := by
  have hbytes : (s.container.pos &&& 0xFF) >>> 3 = s.container.held / 8 :=
    Nat.shiftRight_eq_div_pow _ 3
  have hin : s.committed.length + s.container.held / 8 ≤ room := by omega
  have hclamp : (!fast && decide (s.room < s.committed.length + s.container.held / 8)) = false := by
    rw [hroom, decide_eq_false (Nat.not_lt.mpr hin), Bool.and_false]
  have hpos : (s.container.pos &&& 7) &&& 0xFF = s.container.held % 8 := by
    rw [Container.held_eq, show s.container.pos &&& 7 = s.container.pos % 8 from
      Nat.and_two_pow_sub_one_eq_mod _ 3, show ∀ x, x &&& 0xFF = x % 256 from
      fun x => Nat.and_two_pow_sub_one_eq_mod x 8]
    omega
  simp only [flushBits, hbytes, hclamp, Bool.false_eq_true, if_false, Bool.or_false]
  refine ⟨⟨?_, ?_, hroom, hfits⟩, ?_⟩
  · simp only [List.length_take, List.length_append, toLeBytes_length, Container.held, hpos]
    simp only [Container.held] at hbits hheld ⊢
    omega
  · simp only [Container.held, hpos]
    exact Nat.mod_lt _ (by decide)
  · simp only [List.length_drop, List.length_append, toLeBytes_length]
    omega

/-- A round that gathers a group in the container and flushes it. -/
theorem Counted.round {c : Container} (h : s.Counted bits room) (fast : Bool) {added : Nat}
    (hc : c.held = s.container.held + added) (hadded : added ≤ 56) (hle : (bits + added) / 8 ≤ room) :
    ({ s with container := c }.flushBits fast).Counted (bits + added) room := by
  have hlt := h.held_lt
  have hbits : 8 * s.committed.length + c.held = bits + added := by
    rw [hc, ← h.bits_eq]
    omega
  have hheld : c.held < 64 := by omega
  exact (@flushBits_counted { s with container := c } (bits + added) room fast hbits hheld
    h.room_eq h.fits hle).1

/-- What a group of codes can hold at most. -/
theorem widths_group {k : Nat} (hk : k * log ≤ 56) (hwidth : ∀ elt ∈ elts, width elt ≤ log)
    (hlen : elts.length ≤ k) : widths elts ≤ 56 :=
  (widths_le hwidth).trans ((Nat.mul_le_mul_right _ hlen).trans hk)

/-- A stream on its way to a total of bits, with these codes still to come. -/
structure CountedTo (log room total : Nat) (s : HufCStream) (rest : List Nat) : Prop where
  width_le : ∀ elt ∈ rest, width elt ≤ log
  counted : ∃ bits, s.Counted bits room ∧ bits + widths rest = total

variable {dst total : Nat}

theorem flushWithin_counted {c : Container} (h : s.Counted bits room) (fast : Bool)
    (hle : bits / 8 ≤ room) (hdst : room + 8 ≤ dst) :
    flushWithin dst fast { s with container := c } =
      some ({ s with container := c }.flushBits fast) := by
  have := h.bits_eq
  exact if_pos (by simp only; omega)

/-- A round keeps the count, however it gathers its codes. -/
theorem CountedTo.keeps {gather : Container → List Nat → Container}
    (hgather : ∀ c elts, c.held + widths elts < 256 → (gather c elts).held = c.held + widths elts)
    (hk : unroll * log ≤ 56) (fast : Bool) (htotal : total / 8 ≤ room) (hdst : room + 8 ≤ dst) :
    Keeps (flushWithin dst fast) unroll (CountedTo log room total) gather := by
  intro s elts rest hlen h
  obtain ⟨bits, hcounted, hbits⟩ := h.counted
  rw [widths_append] at hbits
  have hgroup := widths_group hk (fun x hx => h.width_le x (List.mem_append_left _ hx)) hlen
  have hlt := hcounted.held_lt
  refine ⟨_, flushWithin_counted hcounted fast (by omega) hdst,
    fun x hx => h.width_le x (List.mem_append_right _ hx), bits + widths elts, ?_, by omega⟩
  exact hcounted.round fast (hgather _ _ (by omega)) hgroup (by omega)

/-- The group gathered in the second container counts like one gathered in the first. -/
theorem held_merged (lastFast : Bool) {c : Container} (h : c.held + widths elts < 256) :
    (c.merge (Container.addGroup lastFast {} elts)).held = c.held + widths elts := by
  have hzero : ({} : Container).held = 0 := rfl
  have hsecond : (Container.addGroup lastFast {} elts).held = widths elts := by
    rw [Container.held_addGroup _ (by omega), hzero, Nat.zero_add]
  rw [Container.held_merge (by omega), hsecond]

/-- An unrolled run counts every code's width. -/
theorem encodeUnrolledWith_counted (hpos : 0 < unroll) (hk : unroll * log ≤ 56)
    (fast lastFast : Bool) (hdst : room + 8 ≤ dst) (h : s.Counted bits room)
    (hwidth : ∀ elt ∈ elts, width elt ≤ log) (hle : (bits + widths elts) / 8 ≤ room) :
    ∃ s', encodeUnrolledWith (flushWithin dst fast) unroll lastFast s elts = some s' ∧
      s'.Counted (bits + widths elts) room := by
  have hkeeps : ∀ {gather : Container → List Nat → Container},
      (∀ c elts, c.held + widths elts < 256 → (gather c elts).held = c.held + widths elts) →
      Keeps (flushWithin dst fast) unroll (CountedTo log room (bits + widths elts)) gather :=
    fun hgather => CountedTo.keeps hgather hk fast hle hdst
  obtain ⟨s', hrun, hend⟩ := encodeUnrolledWith_run
    (hkeeps fun _ _ => Container.held_addGroup lastFast) (hkeeps fun _ _ => held_merged lastFast)
    (hkeeps fun _ _ => Container.held_addSlow) hpos (⟨hwidth, bits, h, rfl⟩ : CountedTo _ _ _ s elts)
  obtain ⟨total, hcounted, htotal⟩ := hend.counted
  refine ⟨s', hrun, ?_⟩
  rwa [← htotal]

/-- Every table log keeps its unroll factor within the container, and no store leaves the room. -/
theorem encodeOneStreamWithin_counted (hlog : log ≤ 12) (hdst : room + 8 ≤ dst)
    (h : s.Counted bits room) (hwidth : ∀ elt ∈ elts, width elt ≤ log)
    (hle : (bits + widths elts) / 8 ≤ room) :
    ∃ s', encodeOneStreamWithin dst log s elts = some s' ∧
      s'.Counted (bits + widths elts) room := by
  have hrun : ∀ unroll fast lastFast, 0 < unroll → unroll * log ≤ 56 →
      ∃ s', encodeUnrolledWith (flushWithin dst fast) unroll lastFast s elts = some s' ∧
        s'.Counted (bits + widths elts) room :=
    fun unroll fast lastFast hpos hk =>
      encodeUnrolledWith_counted hpos hk fast lastFast hdst h hwidth hle
  unfold encodeOneStreamWithin
  split
  · exact hrun _ _ _ (by decide) (by decide)
  · exact hrun _ _ _ (by decide) (by decide)
  · exact hrun _ _ _ (by decide) (by decide)
  · exact hrun _ _ _ (by decide) (by decide)
  · exact hrun _ _ _ (by decide) (by decide)
  · exact hrun _ _ _ (by decide) (by omega)

theorem encodeOneStream_counted (hlog : log ≤ 12) (h : s.Counted bits room)
    (hwidth : ∀ elt ∈ elts, width elt ≤ log) (hle : (bits + widths elts) / 8 ≤ room) :
    (s.encodeOneStream log elts).Counted (bits + widths elts) room := by
  obtain ⟨s', hrun, hcounted⟩ :=
    encodeOneStreamWithin_counted hlog (Nat.le_refl (room + 8)) h hwidth hle
  rwa [← encodeOneStreamWithin_refines hrun]

/-- The close fills the last byte up with the end mark. -/
theorem close_length (h : s.Counted bits room) (hle : (bits + 1) / 8 ≤ room) :
    s.close.length = bits / 8 + 1 := by
  have hmark : width endMark = 1 := by decide
  have hlt := h.held_lt
  have hheld : (s.container.add false endMark).held = s.container.held + 1 := by
    rw [Container.held_add_of_lt _ (by omega), hmark]
  have hbits : 8 * s.committed.length + (s.container.add false endMark).held = bits + 1 := by
    rw [hheld, ← h.bits_eq]
    omega
  obtain ⟨hc, hscratch⟩ := flushBits_counted (s := { s with
    container := s.container.add false endMark }) false hbits (by simp only [hheld]; omega)
    h.room_eq h.fits hle
  have heq := hc.bits_eq
  have hpend := hc.held_lt
  simp only [hheld] at hscratch
  simp only [close, hc.fits, Bool.false_eq_true, if_false, List.length_append, List.length_take]
  change _ + min (if 0 < Container.held _ then 1 else 0) _ = _
  rw [hscratch]
  have hold := h.bits_eq
  split <;> omega

/-- The stream of a segment takes the bytes its code widths come to. -/
theorem new_counted (srcSize log : Nat) :
    ∃ s, new (hufTightCompressBound srcSize log) = some s ∧
      s.Counted 0 ((srcSize * log) / 8 + 16) := by
  have hbound : hufTightCompressBound srcSize log = srcSize * log / 8 + 24 := by
    rw [hufTightCompressBound, Nat.shiftRight_eq_div_pow]
  have hheld : ({} : Container).held = 0 := by decide
  refine ⟨_, if_neg (by omega), ?_, ?_, ?_, rfl⟩
  · simp [hheld]
  · simp [hheld]
  · simp only [hbound]
    omega

end HufCStream

end Huff0.Encoder
