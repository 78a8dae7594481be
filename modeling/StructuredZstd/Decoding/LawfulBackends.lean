import Mathlib.Data.List.Infix
import StructuredZstd.Decoding.Backends

namespace Decoding

open BufferBackend

/-- The content of a backend as the one or two slices it lies in. -/
class SlicedBackend (B : Type) where
  asSlices : B → List UInt8 × List UInt8

/-- What a backend keeps when it is only written to. `Fits` is a write it takes as a queue does,
`Room` one it takes without growing, `ceiling` the length `try_reserve` refuses to pass; along
`Extends` it grew, but neither let go of content nor moved what it has. A write that does not fit
is lost, and only an empty storage loses one. -/
class LawfulBackend (B : Type) [BufferBackend B] [SlicedBackend B] where
  Wf : B → Prop
  Fits : B → Nat → Prop
  Room : B → Nat → Prop
  Extends : B → B → Prop
  ceiling : B → Nat
  asSlices_eq (b : B) : (SlicedBackend.asSlices b).1 ++ (SlicedBackend.asSlices b).2 = bytes b
  wf_new : Wf (new : B)
  bytes_new : bytes (new : B) = []
  wf_setGrowthLimit (b : B) (n : Nat) : Wf b → Wf (setGrowthLimit b n)
  bytes_setGrowthLimit (b : B) (n : Nat) : bytes (setGrowthLimit b n) = bytes b
  extends_refl (b : B) : Extends b b
  extends_trans {a b c : B} : Extends a b → Extends b c → Extends a c
  extends_bytes {b b' : B} : Extends b b' → bytes b <+: bytes b'
  extends_ceiling {b b' : B} : Extends b b' → ceiling b' = ceiling b
  room_mono {b : B} {m n : Nat} : m ≤ n → Room b n → Room b m
  room_fits {b : B} {n : Nat} : Wf b → Room b n → Fits b n
  fits_of_content {b : B} (n : Nat) : Wf b → bytes b ≠ [] → Fits b n
  /-- Rolling the tail back, if nothing was reallocated. -/
  setTail_spec {b b' : B} : Wf b → Wf b' → Extends b b' → cap b' = cap b →
    Wf (setTail b' (tail b)) ∧ bytes (setTail b' (tail b)) = bytes b
  dropFirstN_spec {b : B} {n : Nat} : Wf b → n ≤ (bytes b).length →
    Wf (dropFirstN b n) ∧ bytes (dropFirstN b n) = (bytes b).drop n
  setMaxCapacity_spec {b : B} (n : Nat) : Wf b →
    Wf (setMaxCapacity b n) ∧ bytes (setMaxCapacity b n) = bytes b
  reserve_spec {b : B} (n : Nat) : Wf b →
    Wf (reserve b n) ∧ Extends b (reserve b n) ∧ bytes (reserve b n) = bytes b
  reserveExact_spec {b : B} (n : Nat) : Wf b →
    Wf (reserveExact b n) ∧ Extends b (reserveExact b n) ∧ bytes (reserveExact b n) = bytes b
  tryReserve_spec {b b' : B} {n : Nat} : Wf b → tryReserve b n = .ok b' →
    (bytes b).length + n ≤ ceiling b ∧ Wf b' ∧ Extends b b' ∧ bytes b' = bytes b ∧
      (0 < n → ∀ m, Fits b' m) ∧ (Fits b n → Room b' n)
  extend_spec {b : B} (data : List UInt8) : Wf b →
    Wf (extend b data) ∧ Extends b (extend b data) ∧
      (bytes (extend b data) = bytes b ++ data ∨
        ¬Fits b data.length ∧ bytes (extend b data) = []) ∧
      ∀ n, Room b (data.length + n) → Room (extend b data) n
  tryExtend_spec {b b' : B} {data : List UInt8} : tryExtend b data = .ok b' → b' = extend b data
  extendAndFill_spec (b : B) (fillWith : UInt8) (n : Nat) :
    extendAndFill b fillWith n = extend b (List.replicate n fillWith)
  tryExtendAndFill_spec {b b' : B} {fillWith : UInt8} {n : Nat} :
    tryExtendAndFill b fillWith n = .ok b' → b' = extend b (List.replicate n fillWith)
  /-- A copy from within, into room made for it. -/
  extendFromWithin_spec {b : B} {start len : Nat} : Wf b → start + len ≤ (bytes b).length →
    Room b len →
    Wf (extendFromWithinUnchecked b start len) ∧
      Extends b (extendFromWithinUnchecked b start len) ∧
      bytes (extendFromWithinUnchecked b start len) =
        bytes b ++ ((bytes b).drop start).take len ∧
      ∀ n, Room b (len + n) → Room (extendFromWithinUnchecked b start len) n
  inline_spec {b b' : B} {lits : List UInt8} {offset matchLength : Nat} : Wf b →
    inlineExecOk b lits.length matchLength offset = true → 0 < offset →
    offset ≤ (bytes b).length + lits.length →
    execSequenceInline b lits offset matchLength = .ok b' →
    Wf b' ∧ Extends b b' ∧ bytes b' = Lz.copyMatch offset matchLength (bytes b ++ lits)
  inlineDict_spec {b b' : B} {lits dictSrc : List UInt8} {matchLength : Nat} : Wf b →
    inlineExecDictOk b lits.length matchLength = true →
    execSequenceInlineDict b lits dictSrc matchLength = .ok b' →
    Wf b' ∧ Extends b b' ∧ bytes b' = bytes b ++ lits ++ dictSrc.take matchLength

theorem prefix_copyMatch {offset : Nat} (n : Nat) {out : List UInt8} (hpos : 0 < offset)
    (hle : offset ≤ out.length) : out <+: Lz.copyMatch offset n out := by
  rw [Lz.copyMatch_eq hpos hle]
  exact List.prefix_append ..

namespace FlatBuf

instance : SlicedBackend FlatBuf where
  asSlices b := (b.buf.drop b.head, [])

/-- Later content in the same vector. -/
structure Extends (b b' : FlatBuf) : Prop where
  buf : b.buf <+: b'.buf
  head : b'.head = b.head
  maxCapacity : b'.maxCapacity = b.maxCapacity

theorem Extends.append (b : FlatBuf) (data : List UInt8) : b.Extends (b.append data) :=
  ⟨List.prefix_append .., rfl, rfl⟩

theorem drop_append_of_wf {b : FlatBuf} (h : b.head ≤ b.buf.length) (data : List UInt8) :
    (b.buf ++ data).drop b.head = b.buf.drop b.head ++ data :=
  List.drop_append_of_le_length h

theorem wf_of_extends {b b' : FlatBuf} (h : b.head ≤ b.buf.length) (he : b.Extends b') :
    b'.head ≤ b'.buf.length := by
  rw [he.head]
  exact h.trans he.buf.length_le

theorem tryReserve_lawful {b b' : FlatBuf} {n : Nat} (hb : b.head ≤ b.buf.length)
    (h : BufferBackend.tryReserve b n = .ok b') :
    (bytes b).length + n ≤ b.maxCapacity ∧ b'.head ≤ b'.buf.length ∧ b.Extends b' ∧
      bytes b' = bytes b ∧ (0 < n → Nat → True) ∧ (True → True) := by
  have hlen : (bytes b).length = b.len := List.length_drop
  replace h : b.tryReserve n = .ok b' := h
  simp only [FlatBuf.tryReserve] at h
  split_ifs at h with hmax hcap
  · cases h
    exact ⟨by omega, hb, ⟨List.prefix_rfl, rfl, rfl⟩, rfl, fun _ _ => trivial, id⟩
  · cases h
    exact ⟨by omega, hb, ⟨List.prefix_rfl, rfl, rfl⟩, rfl, fun _ _ => trivial, id⟩

instance : LawfulBackend FlatBuf where
  Wf b := b.head ≤ b.buf.length
  Fits _ _ := True
  Room _ _ := True
  Extends := Extends
  ceiling b := b.maxCapacity
  asSlices_eq b := List.append_nil _
  wf_new := Nat.le_refl _
  bytes_new := rfl
  wf_setGrowthLimit _ _ h := h
  bytes_setGrowthLimit _ _ := rfl
  extends_refl b := ⟨List.prefix_rfl, rfl, rfl⟩
  extends_trans hab hbc := ⟨hab.buf.trans hbc.buf, hbc.head.trans hab.head,
    hbc.maxCapacity.trans hab.maxCapacity⟩
  extends_bytes {b b'} he := by
    change b.buf.drop b.head <+: b'.buf.drop b'.head
    rw [he.head]
    exact List.IsPrefix.drop he.buf b.head
  extends_ceiling he := he.maxCapacity
  room_mono _ _ := trivial
  room_fits _ _ := trivial
  fits_of_content _ _ _ := trivial
  setTail_spec {b b'} hb _ he _ := by
    have htake : b'.buf.take b.buf.length = b.buf := (List.prefix_iff_eq_take.mp he.buf).symm
    refine ⟨?_, ?_⟩
    · change b'.head ≤ (b'.buf.take b.buf.length).length
      rwa [htake, he.head]
    · change (b'.buf.take b.buf.length).drop b'.head = b.buf.drop b.head
      rw [htake, he.head]
  dropFirstN_spec {b n} hb hn := by
    replace hn : n ≤ (b.buf.drop b.head).length := hn
    rw [List.length_drop] at hn
    refine ⟨?_, ?_⟩
    · change b.head + n ≤ b.buf.length
      omega
    · change b.buf.drop (b.head + n) = (b.buf.drop b.head).drop n
      rw [List.drop_drop]
  setMaxCapacity_spec _ hb := ⟨hb, rfl⟩
  reserve_spec _ hb := ⟨hb, ⟨List.prefix_rfl, rfl, rfl⟩, rfl⟩
  reserveExact_spec _ hb := ⟨hb, ⟨List.prefix_rfl, rfl, rfl⟩, rfl⟩
  tryReserve_spec := tryReserve_lawful
  extend_spec {b} data hb :=
    ⟨wf_of_extends hb (.append b data), .append b data, .inl (drop_append_of_wf hb data),
      fun _ _ => trivial⟩
  tryExtend_spec h := by
    cases h
    rfl
  extendAndFill_spec _ _ _ := rfl
  tryExtendAndFill_spec h := by
    cases h
    rfl
  extendFromWithin_spec {b start len} hb _ _ := by
    have he : b.Extends (extendFromWithinUnchecked b start len) :=
      ⟨List.prefix_append .., rfl, rfl⟩
    refine ⟨wf_of_extends hb he, he, ?_, fun _ _ => trivial⟩
    refine (drop_append_of_wf hb _).trans ?_
    rw [← List.drop_drop]
    rfl
  inline_spec {b b' lits offset matchLength} hb _ hpos hle h := by
    change b.execSequenceInline lits offset matchLength = .ok b' at h
    have hlen : (bytes b).length = b.buf.length - b.head := List.length_drop
    simp only [FlatBuf.execSequenceInline] at h
    split at h
    · cases h
    · cases h
      have he : b.Extends { b with buf := Lz.copyMatch offset matchLength (b.buf ++ lits) } :=
        ⟨(List.prefix_append ..).trans
          (prefix_copyMatch _ hpos (by rw [List.length_append]; omega)), rfl, rfl⟩
      refine ⟨wf_of_extends hb he, he, ?_⟩
      change (Lz.copyMatch offset matchLength (b.buf ++ lits)).drop b.head = _
      have hsplit : b.buf ++ lits = b.buf.take b.head ++ (bytes b ++ lits) := by
        rw [← List.append_assoc]
        exact congrArg (· ++ lits) (List.take_append_drop b.head b.buf).symm
      rw [hsplit, Lz.copyMatch_append hpos (by rw [List.length_append]; exact hle),
        List.drop_left' (List.length_take_of_le hb)]
  inlineDict_spec {b b' lits dictSrc matchLength} hb _ h := by
    change b.execSequenceInlineDict lits dictSrc matchLength = .ok b' at h
    simp only [FlatBuf.execSequenceInlineDict] at h
    split at h
    · cases h
    · cases h
      have he : b.Extends { b with buf := b.buf ++ lits ++ dictSrc.take matchLength } :=
        ⟨by rw [List.append_assoc]; exact List.prefix_append .., rfl, rfl⟩
      refine ⟨wf_of_extends hb he, he, ?_⟩
      change (b.buf ++ lits ++ dictSrc.take matchLength).drop b.head = _
      rw [List.append_assoc, drop_append_of_wf hb, ← List.append_assoc]
      rfl

end FlatBuf

namespace RingBuffer

instance : SlicedBackend RingBuffer where
  asSlices b := (b.live.take (b.cap - b.head), b.live.drop (b.cap - b.head))

/-- One slot stays empty. -/
structure Wf (b : RingBuffer) : Prop where
  live : b.live.length ≤ b.cap - 1
  head : b.head ≤ b.cap - 1

/-- Growing moves the content to the front, and always changes the capacity. -/
structure Extends (b b' : RingBuffer) : Prop where
  live : b.live <+: b'.live
  cap : b.cap ≤ b'.cap
  head : b'.cap = b.cap → b'.head = b.head
  maxCapacity : b'.maxCapacity = b.maxCapacity
  growthLimit : b'.growthLimit = b.growthLimit

theorem Extends.refl (b : RingBuffer) : b.Extends b :=
  ⟨List.prefix_rfl, le_rfl, fun _ => rfl, rfl, rfl⟩

theorem Extends.trans {a b c : RingBuffer} (hab : a.Extends b) (hbc : b.Extends c) :
    a.Extends c where
  live := hab.live.trans hbc.live
  cap := hab.cap.trans hbc.cap
  head h := by
    have hb : b.cap = a.cap := le_antisymm (hbc.cap.trans h.le) hab.cap
    exact (hbc.head (h.trans hb.symm)).trans (hab.head hb)
  maxCapacity := hbc.maxCapacity.trans hab.maxCapacity
  growthLimit := hbc.growthLimit.trans hab.growthLimit

/-- A write an unallocated ring grows large enough for. -/
def Fits (b : RingBuffer) (n : Nat) : Prop := b.cap = 0 → n ≠ b.growthLimit + 1

theorem tail_eq (b : RingBuffer) :
    b.tail = if b.cap ≤ b.head + b.live.length then b.head + b.live.length - b.cap
      else b.head + b.live.length := rfl

theorem reserveAmortized_cap {b : RingBuffer} {amount : Nat} (hamount : 0 < amount) :
    b.cap < (b.reserveAmortized amount).cap ∧ b.cap + amount ≤ (b.reserveAmortized amount).cap ∧
      (b.cap + amount ≠ b.growthLimit + 1 →
        b.cap + amount < (b.reserveAmortized amount).cap) := by
  have hneeded := le_nextPowerOfTwo (b.cap + amount)
  simp only [reserveAmortized]
  split_ifs <;> omega

/-- Reserving changes no content; what fits then has room. -/
theorem reserve_lawful {b : RingBuffer} (h : b.Wf) (n : Nat) :
    (b.reserve n).Wf ∧ b.Extends (b.reserve n) ∧ (b.reserve n).live = b.live ∧
      (b.Fits n → n ≤ (b.reserve n).free) ∧ b.free ≤ (b.reserve n).free := by
  have hlive := h.live
  have hhead := h.head
  have htail := b.tail_eq
  simp only [RingBuffer.reserve]
  split_ifs with hfast hroom
  · refine ⟨h, .refl b, rfl, fun _ => ?_, le_rfl⟩
    rw [RingBuffer.free]
    split_ifs at htail <;> omega
  · exact ⟨h, .refl b, rfl, fun _ => hroom, le_rfl⟩
  · obtain ⟨hcap, hneeded, hsentinel⟩ :=
      reserveAmortized_cap (b := b) (show 0 < n - b.free by omega)
    have hfree : b.free = b.cap - b.live.length - 1 := rfl
    have hgrown : (b.reserveAmortized (n - b.free)).free =
        (b.reserveAmortized (n - b.free)).cap - b.live.length - 1 := rfl
    refine ⟨⟨?_, Nat.zero_le _⟩, ⟨List.prefix_rfl, hcap.le, fun he => by omega, rfl, rfl⟩, rfl,
      fun hfits => ?_, by omega⟩
    · change b.live.length ≤ _
      omega
    · rw [hgrown]
      rcases Nat.eq_zero_or_pos b.cap with hzero | hpos
      · have := hsentinel (by have := hfits hzero; omega)
        omega
      · omega

/-- After a reservation the ring is allocated. -/
theorem reserve_cap_pos {b : RingBuffer} {n : Nat} (hn : 0 < n) : 0 < (b.reserve n).cap := by
  have hfree : b.free = b.cap - b.live.length - 1 := rfl
  simp only [RingBuffer.reserve]
  split_ifs with hfast hroom
  · omega
  · omega
  · have := (reserveAmortized_cap (b := b) (show 0 < n - b.free by omega)).1
    omega

theorem fits_of_cap_pos {b : RingBuffer} (h : 0 < b.cap) (n : Nat) : b.Fits n :=
  fun hzero => absurd hzero h.ne'

/-- More content within the capacity. -/
theorem Extends.write {b : RingBuffer} {live : List UInt8} (hlive : b.live <+: live) :
    b.Extends { b with live := live } :=
  ⟨hlive, le_rfl, fun _ => rfl, rfl, rfl⟩

theorem append_lawful {b : RingBuffer} (data : List UInt8) (h : b.Wf) :
    (b.append data).Wf ∧ b.Extends (b.append data) ∧
      ((b.append data).live = b.live ++ data ∨
        ¬b.Fits data.length ∧ (b.append data).live = []) ∧
      ∀ n, data.length + n ≤ b.free → n ≤ (b.append data).free := by
  simp only [RingBuffer.append]
  split_ifs with hzero hroomy
  · rw [List.eq_nil_of_length_eq_zero hzero]
    exact ⟨h, .refl b, .inl (List.append_nil _).symm, fun n hn => by simpa using hn⟩
  · obtain ⟨hwf, hext, hlive, -, hfree⟩ := reserve_lawful h data.length
    rw [hlive] at hroomy
    simp only [RingBuffer.free, hlive] at hfree ⊢
    refine ⟨⟨?_, hwf.head⟩, hext.trans (.write ?_), .inl trivial, fun n hn => ?_⟩
    · change (b.live ++ data).length ≤ (b.reserve data.length).cap - 1
      rw [List.length_append]
      omega
    · rw [hlive]
      exact List.prefix_append ..
    · rw [List.length_append]
      omega
  · -- only a ring just allocated has too little room, so no content goes
    obtain ⟨hwf, hext, hlive, hroom, -⟩ := reserve_lawful h data.length
    have hlost : ¬b.Fits data.length := by
      intro hfits
      have hmade := hroom hfits
      simp only [RingBuffer.free, hlive] at hmade hroomy
      omega
    have hcap : b.cap = 0 := by
      by_contra hpos
      exact hlost (fits_of_cap_pos (Nat.pos_of_ne_zero hpos) _)
    have hempty : b.live = [] := by
      have := h.live
      exact List.eq_nil_of_length_eq_zero (by omega)
    refine ⟨⟨Nat.zero_le _, hwf.head⟩, ⟨?_, hext.cap, hext.head, hext.maxCapacity,
      hext.growthLimit⟩, .inr ⟨hlost, rfl⟩, fun n hn => ?_⟩
    · rw [hempty]
    · simp only [RingBuffer.free] at hn
      omega

theorem setTail_lawful {b b' : RingBuffer} (h : b.Wf) (h' : b'.Wf) (hext : b.Extends b')
    (hcap : b'.cap = b.cap) :
    (b'.setTail b.tail).Wf ∧ (b'.setTail b.tail).live = b.live := by
  have hlive := h.live
  have hhead := h.head
  have hhead' := hext.head hcap
  have htail := b.tail_eq
  have hlen : (if b'.head ≤ b.tail then b.tail - b'.head else b'.cap - b'.head + b.tail) =
      b.live.length := by
    split_ifs at htail ⊢ <;> omega
  have htake : b'.live.take b.live.length = b.live := (List.prefix_iff_eq_take.mp hext.live).symm
  simp only [RingBuffer.setTail, hlen, htake]
  exact ⟨⟨by rw [hcap]; exact hlive, h'.head⟩, trivial⟩

theorem dropFirstN_lawful {b : RingBuffer} {n : Nat} (h : b.Wf) (hn : n ≤ b.live.length) :
    (dropFirstN b n).Wf := by
  have hlive := h.live
  have hhead := h.head
  refine ⟨?_, ?_⟩
  · change (b.live.drop n).length ≤ b.cap - 1
    rw [List.length_drop]
    omega
  · change b.wrap (b.head + n) ≤ b.cap - 1
    rw [wrap]
    split_ifs <;> omega

/-- What the inline executors check leaves the sentinel slot free. -/
theorem inlineExecDictOk_room {b : RingBuffer} {litLength matchLength : Nat} (h : b.Wf)
    (hok : b.inlineExecDictOk litLength matchLength = true) :
    b.live.length + litLength + matchLength ≤ b.cap - 1 := by
  have hlive := h.live
  have hhead := h.head
  have htail := b.tail_eq
  simp only [RingBuffer.inlineExecDictOk, decide_eq_true_eq] at hok
  split_ifs at hok htail <;> omega

theorem inline_lawful {b b' : RingBuffer} {lits : List UInt8} {offset matchLength : Nat}
    (h : b.Wf) (hok : b.inlineExecOk lits.length matchLength offset = true) (hpos : 0 < offset)
    (hle : offset ≤ b.live.length + lits.length)
    (hb : b.execSequenceInline lits offset matchLength = .ok b') :
    b'.Wf ∧ b.Extends b' ∧ b'.live = Lz.copyMatch offset matchLength (b.live ++ lits) := by
  simp only [RingBuffer.inlineExecOk, decide_eq_true_eq] at hok
  have hroom := inlineExecDictOk_room h hok.1
  have hle' : offset ≤ (b.live ++ lits).length := by rwa [List.length_append]
  simp only [RingBuffer.execSequenceInline] at hb
  split at hb
  · cases hb
  · cases hb
    refine ⟨⟨?_, h.head⟩, .write ?_, rfl⟩
    · rw [Lz.length_copyMatch hpos hle', List.length_append]
      exact hroom
    · exact (List.prefix_append ..).trans (prefix_copyMatch _ hpos hle')

theorem inlineDict_lawful {b b' : RingBuffer} {lits dictSrc : List UInt8} {matchLength : Nat}
    (h : b.Wf) (hok : b.inlineExecDictOk lits.length matchLength = true)
    (hb : b.execSequenceInlineDict lits dictSrc matchLength = .ok b') :
    b'.Wf ∧ b.Extends b' ∧ b'.live = b.live ++ lits ++ dictSrc.take matchLength := by
  have hroom := inlineExecDictOk_room h hok
  simp only [RingBuffer.execSequenceInlineDict] at hb
  split at hb
  · cases hb
  · cases hb
    refine ⟨⟨?_, h.head⟩, .write ?_, rfl⟩
    · simp only [List.length_append, List.length_take]
      omega
    · rw [List.append_assoc]
      exact List.prefix_append ..

instance : LawfulBackend RingBuffer where
  Wf := Wf
  Fits := Fits
  Room b n := n ≤ b.free
  Extends := Extends
  ceiling b := b.maxCapacity
  asSlices_eq b := List.take_append_drop ..
  wf_new := ⟨Nat.le_refl _, Nat.le_refl _⟩
  bytes_new := rfl
  wf_setGrowthLimit _ _ h := ⟨h.live, h.head⟩
  bytes_setGrowthLimit _ _ := rfl
  extends_refl := .refl
  extends_trans := .trans
  extends_bytes he := he.live
  extends_ceiling he := he.maxCapacity
  room_mono hle hroom := hle.trans hroom
  room_fits {b n} _ hroom hzero := by
    have hfree : b.free = b.cap - b.live.length - 1 := rfl
    omega
  fits_of_content {b} n hb hne := by
    refine fits_of_cap_pos (Nat.pos_of_ne_zero fun hzero => hne ?_) n
    have hlive := hb.live
    rw [hzero] at hlive
    exact List.eq_nil_of_length_eq_zero (Nat.le_zero.mp hlive)
  setTail_spec := setTail_lawful
  dropFirstN_spec hb hn := ⟨dropFirstN_lawful hb hn, rfl⟩
  setMaxCapacity_spec _ hb := ⟨⟨hb.live, hb.head⟩, rfl⟩
  reserve_spec n hb := by
    obtain ⟨hwf, hext, hlive, -, -⟩ := reserve_lawful hb n
    exact ⟨hwf, hext, hlive⟩
  reserveExact_spec n hb := by
    obtain ⟨hwf, hext, hlive, -, -⟩ := reserve_lawful hb n
    exact ⟨hwf, hext, hlive⟩
  tryReserve_spec {b b' n} hb h := by
    replace h : b.tryReserve n = .ok b' := h
    simp only [RingBuffer.tryReserve] at h
    split_ifs at h with hmax
    cases h
    obtain ⟨hwf, hext, hlive, hroom, -⟩ := reserve_lawful hb n
    exact ⟨Nat.le_of_not_lt hmax, hwf, hext, hlive,
      fun hn m => fits_of_cap_pos (reserve_cap_pos hn) m, hroom⟩
  extend_spec := append_lawful
  tryExtend_spec h := by
    cases h
    rfl
  extendAndFill_spec _ _ _ := rfl
  tryExtendAndFill_spec h := by
    cases h
    rfl
  extendFromWithin_spec {b start len} hb hin hroom := by
    have hfree : b.free = b.cap - b.live.length - 1 := rfl
    have hlen : ((b.live.drop start).take len).length = len := by
      rw [List.length_take, List.length_drop]
      exact Nat.min_eq_left (by have : start + len ≤ b.live.length := hin; omega)
    have hlive := hb.live
    have hnew : (b.live ++ (b.live.drop start).take len).length = b.live.length + len := by
      rw [List.length_append, hlen]
    refine ⟨⟨?_, hb.head⟩, .write (List.prefix_append ..), rfl, fun n hn => ?_⟩
    · change (b.live ++ (b.live.drop start).take len).length ≤ b.cap - 1
      omega
    · change n ≤ b.cap - (b.live ++ (b.live.drop start).take len).length - 1
      omega
  inline_spec hb hok hpos hle h := inline_lawful hb hok hpos hle h
  inlineDict_spec hb hok h := inlineDict_lawful hb hok h

end RingBuffer

namespace UserSliceBackend

instance : SlicedBackend UserSliceBackend where
  asSlices b := (b.written.drop b.head, [])

/-- More written into the same slice. -/
structure Extends (b b' : UserSliceBackend) : Prop where
  written : b.written <+: b'.written
  head : b'.head = b.head
  sequenceCap : b'.sequenceCap = b.sequenceCap

theorem Extends.write {b : UserSliceBackend} {written : List UInt8} (h : b.written <+: written) :
    b.Extends { b with written := written } := ⟨h, rfl, rfl⟩

theorem wf_of_extends {b b' : UserSliceBackend} (h : b.head ≤ b.written.length)
    (he : b.Extends b') : b'.head ≤ b'.written.length := by
  rw [he.head]
  exact h.trans he.written.length_le

/-- A write behind the tail leaves what is before it where it is. -/
theorem append_lawful {b : UserSliceBackend} (h : b.head ≤ b.written.length) (data : List UInt8) :
    (b.append data).head ≤ (b.append data).written.length ∧ b.Extends (b.append data) ∧
      bytes (b.append data) = bytes b ++ data ∧
      ∀ n, b.written.length + (data.length + n) ≤ b.sequenceCap →
        (b.append data).written.length + n ≤ (b.append data).sequenceCap := by
  have he : b.Extends (b.append data) := .write (List.prefix_append ..)
  refine ⟨wf_of_extends h he, he, List.drop_append_of_le_length h, fun n hn => ?_⟩
  change (b.written ++ data).length + n ≤ b.sequenceCap
  rw [List.length_append]
  omega

theorem inline_lawful {b b' : UserSliceBackend} {lits : List UInt8} {offset matchLength : Nat}
    (hb : b.head ≤ b.written.length) (hpos : 0 < offset)
    (hle : offset ≤ (bytes b).length + lits.length)
    (h : BufferBackend.execSequenceInline b lits offset matchLength = .ok b') :
    b'.head ≤ b'.written.length ∧ b.Extends b' ∧
      bytes b' = Lz.copyMatch offset matchLength (bytes b ++ lits) := by
  have hlen : (bytes b).length = b.written.length - b.head := List.length_drop
  have hnext : b' = { b with written := Lz.copyMatch offset matchLength (b.written ++ lits) } := by
    replace h : b.execSequenceInline lits offset matchLength = .ok b' := h
    simp only [UserSliceBackend.execSequenceInline] at h
    split at h
    · split at h
      · cases h
      · exact (Except.ok.inj h).symm
    · exact (Except.ok.inj h).symm
  subst hnext
  have he : b.Extends { b with written := Lz.copyMatch offset matchLength (b.written ++ lits) } :=
    .write ((List.prefix_append ..).trans
      (prefix_copyMatch _ hpos (by rw [List.length_append]; omega)))
  refine ⟨wf_of_extends hb he, he, ?_⟩
  change (Lz.copyMatch offset matchLength (b.written ++ lits)).drop b.head = _
  have hsplit : b.written ++ lits = b.written.take b.head ++ (bytes b ++ lits) := by
    rw [← List.append_assoc]
    exact congrArg (· ++ lits) (List.take_append_drop b.head b.written).symm
  rw [hsplit, Lz.copyMatch_append hpos (by rw [List.length_append]; exact hle),
    List.drop_left' (List.length_take_of_le hb)]

instance : LawfulBackend UserSliceBackend where
  Wf b := b.head ≤ b.written.length
  Fits _ _ := True
  Room b n := b.written.length + n ≤ b.sequenceCap
  Extends := Extends
  ceiling b := b.sequenceCap - b.head
  asSlices_eq b := List.append_nil _
  wf_new := Nat.le_refl _
  bytes_new := rfl
  wf_setGrowthLimit _ _ h := h
  bytes_setGrowthLimit _ _ := rfl
  extends_refl b := ⟨List.prefix_rfl, rfl, rfl⟩
  extends_trans hab hbc := ⟨hab.written.trans hbc.written, hbc.head.trans hab.head,
    hbc.sequenceCap.trans hab.sequenceCap⟩
  extends_bytes {b b'} he := by
    change b.written.drop b.head <+: b'.written.drop b'.head
    rw [he.head]
    exact List.IsPrefix.drop he.written b.head
  extends_ceiling he := by rw [he.sequenceCap, he.head]
  room_mono hle hroom := (Nat.add_le_add_left hle _).trans hroom
  room_fits _ _ := trivial
  fits_of_content _ _ _ := trivial
  setTail_spec {b b'} hb _ he _ := by
    have htake : b'.written.take b.written.length = b.written :=
      (List.prefix_iff_eq_take.mp he.written).symm
    refine ⟨?_, ?_⟩
    · change b'.head ≤ (b'.written.take b.written.length).length
      rwa [htake, he.head]
    · change (b'.written.take b.written.length).drop b'.head = b.written.drop b.head
      rw [htake, he.head]
  dropFirstN_spec {b n} hb hn := by
    replace hn : n ≤ (b.written.drop b.head).length := hn
    rw [List.length_drop] at hn
    refine ⟨?_, ?_⟩
    · change b.head + n ≤ b.written.length
      omega
    · change b.written.drop (b.head + n) = (b.written.drop b.head).drop n
      rw [List.drop_drop]
  setMaxCapacity_spec _ hb := ⟨hb, rfl⟩
  reserve_spec _ hb := ⟨hb, ⟨List.prefix_rfl, rfl, rfl⟩, rfl⟩
  reserveExact_spec _ hb := ⟨hb, ⟨List.prefix_rfl, rfl, rfl⟩, rfl⟩
  tryReserve_spec {b b' n} hb h := by
    have hlen : (bytes b).length = b.written.length - b.head := List.length_drop
    replace h : b.tryReserve n = .ok b' := h
    simp only [UserSliceBackend.tryReserve] at h
    split at h
    · rename_i hroom
      cases h
      refine ⟨?_, hb, ⟨List.prefix_rfl, rfl, rfl⟩, rfl, fun _ _ => trivial, fun _ => hroom⟩
      omega
    · cases h
  extend_spec data hb := by
    obtain ⟨hb', he, hdata, hroom⟩ := append_lawful hb data
    exact ⟨hb', he, .inl hdata, hroom⟩
  tryExtend_spec {b b' data} h := by
    replace h : b.tryExtend data = .ok b' := h
    simp only [UserSliceBackend.tryExtend] at h
    split at h
    · cases h
    · exact (Except.ok.inj h).symm
  extendAndFill_spec _ _ _ := rfl
  tryExtendAndFill_spec {b b' fillWith n} h := by
    replace h : b.tryExtend (List.replicate n fillWith) = .ok b' := h
    simp only [UserSliceBackend.tryExtend] at h
    split at h
    · cases h
    · exact (Except.ok.inj h).symm
  extendFromWithin_spec {b start len} hb hin _ := by
    have hbytes : (bytes b).length = b.written.length - b.head := List.length_drop
    have hlen : ((b.written.drop (b.head + start)).take len).length = len := by
      rw [List.length_take, List.length_drop]
      omega
    obtain ⟨hb', he, hdata, hroom⟩ :=
      append_lawful hb ((b.written.drop (b.head + start)).take len)
    rw [hlen] at hroom
    refine ⟨hb', he, hdata.trans ?_, hroom⟩
    rw [← List.drop_drop]
    rfl
  inline_spec hb _ hpos hle h := inline_lawful hb hpos hle h
  inlineDict_spec {b b' lits dictSrc matchLength} hb _ h := by
    replace h : b.execSequenceInlineDict lits dictSrc matchLength = .ok b' := h
    simp only [UserSliceBackend.execSequenceInlineDict] at h
    split at h
    · cases h
    · cases h
      obtain ⟨hb', he, hdata, -⟩ := append_lawful hb (lits ++ dictSrc.take matchLength)
      exact ⟨hb', he, hdata.trans (List.append_assoc ..).symm⟩

end UserSliceBackend

end Decoding
