import StructuredZstd.Bits.Bytes

namespace BitIo

open Bits

/-- The reader of `bit_reader_reverse.rs`, on a 64-bit x86 target: `bitContainer` holds the
eight bytes at `index`, of which the top `bitsConsumed` bits are used up; `extraBits` counts the
zeros read past the front of `source`. -/
structure BitReaderReversed where
  index : Nat
  bitsConsumed : Nat
  extraBits : Nat
  source : List UInt8
  bitContainer : Nat
deriving Repr, DecidableEq

namespace BitReaderReversed

def new (source : List UInt8) : BitReaderReversed where
  index := source.length
  bitsConsumed := 64
  extraBits := 0
  source := source
  bitContainer := 0

def bitsRemaining (r : BitReaderReversed) : Int :=
  r.index * 8 + (64 - r.bitsConsumed) - r.extraBits

/-- The eight bytes of the source at `index`. -/
def loadWord (source : List UInt8) (index : Nat) : Nat :=
  le ((source.drop index).take 8)

/-- The cold refill: fewer bytes are left than the container has used up. -/
def refillSlow (r : BitReaderReversed) : BitReaderReversed :=
  if 0 < r.index then
    let consumed := r.bitsConsumed - 8 * r.index
    { r with
      bitContainer := loadWord r.source 0 <<< consumed % 2 ^ 64
      extraBits := r.extraBits + consumed
      index := 0
      bitsConsumed := 0 }
  else
    { r with
      bitContainer := r.bitContainer <<< r.bitsConsumed % 2 ^ 64
      extraBits := r.extraBits + r.bitsConsumed
      bitsConsumed := 0 }

/-- Shared by the direct refills: step back over the used-up bytes and load again. -/
def reload (r : BitReaderReversed) : BitReaderReversed :=
  { r with
    index := r.index - r.bitsConsumed / 8
    bitsConsumed := r.bitsConsumed % 8
    bitContainer := loadWord r.source (r.index - r.bitsConsumed / 8) }

def refill (r : BitReaderReversed) : BitReaderReversed :=
  if 8 ≤ r.index then r.reload
  else if r.bitsConsumed / 8 = 0 then r
  else if r.bitsConsumed / 8 ≤ r.index then r.reload
  else r.refillSlow

/-- The refill of the sequence loop, which skips the reload when no byte is used up. -/
def refillSequence (r : BitReaderReversed) : BitReaderReversed :=
  if r.bitsConsumed / 8 = 0 then r
  else if 8 ≤ r.index then r.reload
  else r.refill

/-- The shift that brings the next `n` bits down; the source wraps it in a `u8` and shifts
modulo the word width. -/
def shiftBy (r : BitReaderReversed) (n : Nat) : Nat :=
  (256 + (64 - r.bitsConsumed) - n) % 256 % 64

def peekBits (r : BitReaderReversed) (n : Nat) : Nat :=
  r.bitContainer >>> r.shiftBy n % 2 ^ n

def consume (r : BitReaderReversed) (n : Nat) : BitReaderReversed :=
  { r with bitsConsumed := r.bitsConsumed + n }

def ensureBits (r : BitReaderReversed) (n : Nat) : BitReaderReversed :=
  if 64 < r.bitsConsumed + n then r.refill else r

def getBits (r : BitReaderReversed) (n : Nat) : Nat × BitReaderReversed :=
  let r := if 64 < r.bitsConsumed + n then r.refill else r
  (r.peekBits n, r.consume n)

def getBitsUnchecked (r : BitReaderReversed) (n : Nat) : Nat × BitReaderReversed :=
  (r.peekBits n, r.consume n)

/-- The scalar kernel's split of one wide read into three fields. -/
def extractTriple (all n1 n2 n3 : Nat) : Nat × Nat × Nat :=
  (all >>> (n2 + n3) % 2 ^ n1, all >>> n3 % 2 ^ n2, all % 2 ^ n3)

def getBitsTriple (r : BitReaderReversed) (n1 n2 n3 : Nat) :
    (Nat × Nat × Nat) × BitReaderReversed :=
  let sum := n1 + n2 + n3
  if sum ≤ 56 then
    let r := r.ensureBits sum
    (extractTriple (r.bitContainer >>> r.shiftBy sum) n1 n2 n3, r.consume sum)
  else
    let (v1, r) := r.getBits n1
    let (v2, r) := r.getBits n2
    let (v3, r) := r.getBits n3
    ((v1, v2, v3), r)

/-- The loop that looks for the end mark. -/
def skipPaddingLoop : Nat → Nat → BitReaderReversed → Nat × BitReaderReversed
  | 0, skippedBits, r => (skippedBits, r)
  | fuel + 1, skippedBits, r =>
    let (val, r) := r.getBits 1
    if val = 1 ∨ 8 < skippedBits + 1 then (skippedBits + 1, r)
    else skipPaddingLoop fuel (skippedBits + 1) r

/-- Skip the padding and the end mark; every caller rejects more than eight skipped bits. -/
def skipPadding (r : BitReaderReversed) : Nat × BitReaderReversed := skipPaddingLoop 9 0 r

/-- How many bits have been taken off the top of the source. -/
def pos (r : BitReaderReversed) : Nat :=
  8 * r.source.length + r.bitsConsumed + r.extraBits - 8 * r.index - 64

/-- The bits still to be read, the next one on top. -/
def toStack (r : BitReaderReversed) : Stack :=
  (Stack.ofBytes r.source).rest r.pos

/-- What every operation keeps: the reader is fresh, inside the source or at its front, and the
unused part of the container shows the next bits of the stack. -/
structure Sound (r : BitReaderReversed) : Prop where
  consumed_le : r.bitsConsumed ≤ 64
  shape : (r.index = r.source.length ∧ r.bitsConsumed = 64 ∧ r.extraBits = 0) ∨
    (r.index + 8 ≤ r.source.length ∧ r.extraBits = 0) ∨
    (r.index = 0 ∧ 64 ≤ 8 * r.source.length + r.extraBits)
  window : r.bitContainer % 2 ^ (64 - r.bitsConsumed) = r.toStack.top (64 - r.bitsConsumed)

theorem new_sound (source : List UInt8) : (new source).Sound where
  consumed_le := Nat.le_refl _
  shape := .inl ⟨rfl, rfl, rfl⟩
  window := by simp [new, Nat.mod_one]

@[simp] theorem new_toStack (source : List UInt8) : (new source).toStack = Stack.ofBytes source := by
  have : (new source).pos = 0 := by simp [pos, new]
  rw [toStack, this, Stack.rest_zero]
  rfl

@[simp] theorem new_bitsRemaining (source : List UInt8) :
    (new source).bitsRemaining = 8 * source.length := by
  simp [bitsRemaining, new]
  omega

theorem bitsRemaining_eq {r : BitReaderReversed} (h : r.Sound) :
    r.bitsRemaining = 8 * r.source.length - r.pos := by
  have hc := h.consumed_le
  unfold bitsRemaining pos
  rcases h.shape with ⟨a, b, c⟩ | ⟨a, b⟩ | ⟨a, b⟩ <;> omega

/-- Eight whole bytes of the source are the top word of what lies below them. -/
theorem loadWord_eq {source : List UInt8} {index : Nat} (h : index + 8 ≤ source.length) :
    loadWord source index =
      ((Stack.ofBytes source).rest (8 * source.length - 8 * index - 64)).top 64 := by
  rw [Stack.top_of_le _ (by simp; omega)]
  have hl : 8 * source.length - (8 * source.length - 8 * index - 64) = 8 * index + 64 := by omega
  simp only [Stack.rest, Stack.ofBytes_len, Stack.ofBytes_value, hl]
  rw [Nat.add_sub_cancel, Nat.pow_add, Nat.mod_mul_right_div_self, loadWord, le_take, le_drop]

/-- Two readers over one source at one position face the same bits. -/
theorem toStack_congr {r r' : BitReaderReversed} (hs : r'.source = r.source)
    (hp : r'.pos = r.pos) : r'.toStack = r.toStack := by
  rw [toStack, toStack, hs, hp]

theorem reload_spec {r : BitReaderReversed} (h : r.Sound)
    (hi : r.bitsConsumed / 8 ≤ r.index) (h0 : 0 < r.index) :
    r.reload.Sound ∧ r.reload.toStack = r.toStack ∧ r.reload.pos = r.pos ∧
      r.reload.bitsConsumed < 8 := by
  have hc := h.consumed_le
  have ⟨hx, hl⟩ : r.extraBits = 0 ∧ r.index - r.bitsConsumed / 8 + 8 ≤ r.source.length := by
    rcases h.shape with ⟨a, b, c⟩ | ⟨a, b⟩ | ⟨a, b⟩ <;> omega
  have hp : r.reload.pos = r.pos := by
    simp only [reload, pos, hx]
    omega
  refine ⟨⟨?_, ?_, ?_⟩, toStack_congr rfl hp, hp, Nat.mod_lt _ (by decide)⟩
  · simp only [reload]
    omega
  · exact .inr (.inl ⟨hl, hx⟩)
  · have he : (r.bitsConsumed % 8) + (64 - r.bitsConsumed % 8) = 64 := by omega
    have hs : r.reload.toStack = ((Stack.ofBytes r.source).rest
        (8 * r.source.length - 8 * (r.index - r.bitsConsumed / 8) - 64)).rest
          (r.bitsConsumed % 8) := by
      rw [Stack.rest_rest, toStack]
      congr 1
      simp only [reload, pos, hx]
      omega
    rw [hs]
    simp only [reload]
    rw [Stack.top_rest, he, ← loadWord_eq hl]

theorem refillSlow_spec {r : BitReaderReversed} (h : r.Sound)
    (hi : r.index < r.bitsConsumed / 8) :
    r.refillSlow.Sound ∧ r.refillSlow.toStack = r.toStack ∧ r.refillSlow.pos = r.pos ∧
      r.refillSlow.bitsConsumed < 8 := by
  have hc := h.consumed_le
  have hp : r.refillSlow.pos = r.pos := by
    unfold refillSlow
    split <;> simp only [pos] <;> omega
  have hsrc : r.refillSlow.source = r.source := by unfold refillSlow; split <;> rfl
  have hbc : r.refillSlow.bitsConsumed = 0 := by unfold refillSlow; split <;> rfl
  have hidx : r.refillSlow.index = 0 := by unfold refillSlow; split <;> [rfl; (simp only; omega)]
  have hst := toStack_congr hsrc hp
  refine ⟨⟨by omega, .inr (.inr ⟨hidx, ?_⟩), ?_⟩, hst, hp, by omega⟩
  · rw [hsrc]
    unfold refillSlow
    split <;> simp only <;>
      rcases h.shape with ⟨a, b, c⟩ | ⟨a, b⟩ | ⟨a, b⟩ <;> omega
  · rw [hst, hbc]
    unfold refillSlow
    split
    · rename_i h0
      -- bytes are left: the front word moves up over the bits used of the old container
      have hx : r.extraBits = 0 := by
        rcases h.shape with ⟨a, b, c⟩ | ⟨a, b⟩ | ⟨a, b⟩ <;> omega
      have hlen : r.toStack.len = 64 - (r.bitsConsumed - 8 * r.index) := by
        simp only [toStack, Stack.rest_len, Stack.ofBytes_len, pos]
        rcases h.shape with ⟨a, b, c⟩ | ⟨a, b⟩ | ⟨a, b⟩ <;> omega
      have hval : r.toStack.value = le r.source % 2 ^ (64 - (r.bitsConsumed - 8 * r.index)) := by
        rw [← hlen]
        rfl
      rw [Stack.top_of_ge _ (by omega), hlen, hval, Nat.mod_mod, loadWord, List.drop_zero, le_take,
        Nat.shiftLeft_eq]
      have he : 2 ^ 64 =
          2 ^ (64 - (r.bitsConsumed - 8 * r.index)) * 2 ^ (r.bitsConsumed - 8 * r.index) := by
        rw [← Nat.pow_add]
        congr 1
        omega
      have hk : 64 - (64 - (r.bitsConsumed - 8 * r.index)) = r.bitsConsumed - 8 * r.index := by
        omega
      conv_lhs => rw [he, Nat.mul_mod_mul_right, Nat.mod_mul_right_mod]
      rw [Nat.sub_zero, hk]
    · rename_i h0
      have hlen : r.toStack.len ≤ 64 - r.bitsConsumed := by
        simp only [toStack, Stack.rest_len, Stack.ofBytes_len, pos]
        rcases h.shape with ⟨a, b, c⟩ | ⟨a, b⟩ | ⟨a, b⟩ <;> omega
      have he : 64 - r.bitsConsumed + r.bitsConsumed = 64 := by omega
      have ht := r.toStack.top_add (64 - r.bitsConsumed) r.bitsConsumed
      rw [he, Stack.rest_eq_empty _ hlen, Stack.empty_top, Nat.add_zero, ← h.window] at ht
      simp only [Nat.sub_zero, Nat.mod_mod, ht, Nat.shiftLeft_eq]
      rw [← Nat.mul_mod_mul_right, ← Nat.pow_add, he]

/-- A refill changes the view of the source and nothing else. -/
theorem refill_spec {r : BitReaderReversed} (h : r.Sound) :
    r.refill.Sound ∧ r.refill.toStack = r.toStack ∧ r.refill.pos = r.pos ∧
      r.refill.bitsConsumed < 8 := by
  have hc := h.consumed_le
  unfold refill
  split_ifs with h1 h2 h3
  · exact reload_spec h (by omega) (by omega)
  · exact ⟨h, rfl, rfl, by omega⟩
  · exact reload_spec h h3 (by omega)
  · exact refillSlow_spec h (by omega)

theorem refillSequence_spec {r : BitReaderReversed} (h : r.Sound) :
    r.refillSequence.Sound ∧ r.refillSequence.toStack = r.toStack ∧
      r.refillSequence.pos = r.pos ∧ r.refillSequence.bitsConsumed < 8 := by
  have hc := h.consumed_le
  unfold refillSequence
  split_ifs with h1 h2
  · exact ⟨h, rfl, rfl, by omega⟩
  · exact reload_spec h (by omega) (by omega)
  · exact refill_spec h

/-- `r'` is `r` with the top `n` bits read, and these bits are `v`. -/
structure Reads (r : BitReaderReversed) (n v : Nat) (r' : BitReaderReversed) : Prop where
  sound : r'.Sound
  value : v = r.toStack.top n
  stack : r'.toStack = r.toStack.rest n
  remaining : r'.bitsRemaining = r.bitsRemaining - n

theorem Reads.trans {r r₁ r₂ : BitReaderReversed} {m n v w : Nat} (h₁ : Reads r m v r₁)
    (h₂ : Reads r₁ n w r₂) : Reads r (m + n) (v * 2 ^ n + w) r₂ where
  sound := h₂.sound
  value := by rw [Stack.top_add, h₁.value, h₂.value, h₁.stack]
  stack := by rw [h₂.stack, h₁.stack, Stack.rest_rest]
  remaining := by rw [h₂.remaining, h₁.remaining]; push_cast; ring

/-- The bits already in the container are read without touching the source. -/
theorem container_div {r : BitReaderReversed} (h : r.Sound) {n : Nat}
    (hn : r.bitsConsumed + n ≤ 64) :
    r.bitContainer >>> r.shiftBy n % 2 ^ n = r.toStack.top n := by
  rcases Nat.eq_zero_or_pos n with h0 | h0
  · subst h0
    simp [Nat.mod_one]
  · have hs : r.shiftBy n = 64 - r.bitsConsumed - n := by unfold shiftBy; omega
    have he : n + (64 - r.bitsConsumed - n) = 64 - r.bitsConsumed := by omega
    rw [hs, Nat.shiftRight_eq_div_pow, Stack.top_eq_div _ n (64 - r.bitsConsumed - n), he,
      ← h.window, ← Nat.mod_mul_right_div_self, ← Nat.pow_add, Nat.add_comm _ n, he]

theorem consume_spec {r : BitReaderReversed} (h : r.Sound) {n : Nat}
    (hn : r.bitsConsumed + n ≤ 64) : Reads r n (r.toStack.top n) (r.consume n) := by
  have hp : (r.consume n).pos = r.pos + n := by
    simp only [consume, pos]
    rcases h.shape with ⟨a, b, c⟩ | ⟨a, b⟩ | ⟨a, b⟩ <;> omega
  have hst : (r.consume n).toStack = r.toStack.rest n := by
    rw [toStack, toStack, Stack.rest_rest, hp]
    rfl
  refine ⟨⟨hn, ?_, ?_⟩, rfl, hst, ?_⟩
  · rcases h.shape with ⟨a, b, c⟩ | ⟨a, b⟩ | ⟨a, b⟩
    · exact .inl ⟨a, by simp only [consume]; omega, c⟩
    · exact .inr (.inl ⟨a, b⟩)
    · exact .inr (.inr ⟨a, b⟩)
  · have he : n + (64 - (r.bitsConsumed + n)) = 64 - r.bitsConsumed := by omega
    rw [hst, Stack.top_rest]
    simp only [consume]
    rw [he, ← h.window, Nat.mod_mod_of_dvd _ (Nat.pow_dvd_pow 2 (by omega))]
  · simp only [bitsRemaining, consume]
    omega

/-- A refill before the read does not change what is read. -/
theorem Reads.of_congr {r r₁ r₂ : BitReaderReversed} {n v : Nat} (h : Reads r₁ n v r₂)
    (hst : r₁.toStack = r.toStack) (hrem : r₁.bitsRemaining = r.bitsRemaining) :
    Reads r n v r₂ :=
  ⟨h.sound, hst ▸ h.value, hst ▸ h.stack, hrem ▸ h.remaining⟩

theorem getBitsUnchecked_spec {r : BitReaderReversed} (h : r.Sound) {n : Nat}
    (hn : r.bitsConsumed + n ≤ 64) :
    Reads r n (r.getBitsUnchecked n).1 (r.getBitsUnchecked n).2 := by
  have := consume_spec h hn
  rwa [← container_div h hn] at this

theorem ensureBits_spec {r : BitReaderReversed} (h : r.Sound) {n : Nat} (hn : n ≤ 56) :
    (r.ensureBits n).Sound ∧ (r.ensureBits n).toStack = r.toStack ∧
      (r.ensureBits n).bitsRemaining = r.bitsRemaining ∧ (r.ensureBits n).bitsConsumed + n ≤ 64 := by
  unfold ensureBits
  split_ifs with hc
  · obtain ⟨hs, ht, hp, hb⟩ := refill_spec h
    refine ⟨hs, ht, ?_, by omega⟩
    have hl := congrArg Stack.len ht
    have hsrc : r.refill.source = r.source := by
      unfold refill reload refillSlow
      split_ifs <;> rfl
    rw [bitsRemaining_eq hs, bitsRemaining_eq h, hp, hsrc]
  · exact ⟨h, rfl, rfl, by omega⟩

theorem getBits_eq (r : BitReaderReversed) (n : Nat) :
    r.getBits n = (r.ensureBits n).getBitsUnchecked n := rfl

/-- A read of at most 56 bits takes exactly the next bits off the stack. -/
theorem getBits_spec {r : BitReaderReversed} (h : r.Sound) {n : Nat} (hn : n ≤ 56) :
    Reads r n (r.getBits n).1 (r.getBits n).2 := by
  obtain ⟨hs, ht, hr, hb⟩ := ensureBits_spec h hn
  rw [getBits_eq]
  exact (getBitsUnchecked_spec hs hb).of_congr ht hr

/-- The reader faces the stack `s` and counts `m` bits to its bottom, perhaps from below it. -/
structure Tracks (r : BitReaderReversed) (s : Stack) (m : Int) : Prop where
  sound : r.Sound
  stack : r.toStack = s
  remaining : r.bitsRemaining = m

theorem Sound.tracks {r : BitReaderReversed} (h : r.Sound) :
    r.Tracks r.toStack r.bitsRemaining := ⟨h, rfl, rfl⟩

section Tracks

variable {r : BitReaderReversed} {s : Stack} {m : Int}

theorem Tracks.cast {s' : Stack} {m' : Int} (h : r.Tracks s m) (hs : s = s') (hm : m' = m) :
    r.Tracks s' m' := ⟨h.sound, h.stack.trans hs, h.remaining.trans hm.symm⟩

theorem Tracks.read {r' : BitReaderReversed} {n v : Nat} (h : r.Tracks s m) (hr : Reads r n v r') :
    v = s.top n ∧ r'.Tracks (s.rest n) (m - n) := by
  refine ⟨h.stack ▸ hr.value, hr.sound, h.stack ▸ hr.stack, ?_⟩
  rw [hr.remaining, h.remaining]

theorem Tracks.refillSequence (h : r.Tracks s m) :
    r.refillSequence.Tracks s m ∧ r.refillSequence.bitsConsumed < 8 := by
  obtain ⟨hs, ht, hp, hb⟩ := refillSequence_spec h.sound
  refine ⟨⟨hs, ht.trans h.stack, ?_⟩, hb⟩
  have hsrc : r.refillSequence.source = r.source := by
    unfold BitReaderReversed.refillSequence refill reload refillSlow
    split_ifs <;> rfl
  rw [← h.remaining, bitsRemaining_eq hs, bitsRemaining_eq h.sound, hp, hsrc]

theorem Tracks.ensureBits {n : Nat} (h : r.Tracks s m) (hn : n ≤ 56) :
    (r.ensureBits n).Tracks s m ∧ (r.ensureBits n).bitsConsumed + n ≤ 64 := by
  obtain ⟨hs, ht, hr, hb⟩ := ensureBits_spec h.sound hn
  exact ⟨⟨hs, ht.trans h.stack, hr.trans h.remaining⟩, hb⟩

theorem Tracks.getBits {n : Nat} (h : r.Tracks s m) (hn : n ≤ 56) :
    (r.getBits n).1 = s.top n ∧ (r.getBits n).2.Tracks (s.rest n) (m - n) :=
  h.read (getBits_spec h.sound hn)

theorem Tracks.getBitsUnchecked {n : Nat} (h : r.Tracks s m) (hn : r.bitsConsumed + n ≤ 64) :
    (r.getBitsUnchecked n).1 = s.top n ∧
      (r.getBitsUnchecked n).2.Tracks (s.rest n) (m - n) :=
  h.read (getBitsUnchecked_spec h.sound hn)

end Tracks

/-- One wide read split into three fields is three reads in a row. -/
theorem extractTriple_eq {r : BitReaderReversed} {s : Stack} (hs : r.Sound) (ht : r.toStack = s)
    {n₁ n₂ n₃ : Nat} (hn : r.bitsConsumed + (n₁ + n₂ + n₃) ≤ 64) :
    extractTriple (r.bitContainer >>> r.shiftBy (n₁ + n₂ + n₃)) n₁ n₂ n₃ =
      (s.top n₁, (s.rest n₁).top n₂, (s.rest (n₁ + n₂)).top n₃) := by
  have hw := container_div hs hn
  rw [ht, Stack.top_add, Stack.top_add] at hw
  have h2 : (s.rest n₁).top n₂ < 2 ^ n₂ := Stack.top_lt _ _
  have h3 : (s.rest (n₁ + n₂)).top n₃ < 2 ^ n₃ := Stack.top_lt _ _
  have h1 : s.top n₁ < 2 ^ n₁ := Stack.top_lt _ _
  generalize r.bitContainer >>> r.shiftBy (n₁ + n₂ + n₃) = w at hw ⊢
  simp only [extractTriple, Prod.mk.injEq, Nat.shiftRight_eq_div_pow]
  have e3 : w % 2 ^ n₃ = (s.rest (n₁ + n₂)).top n₃ := by
    rw [← Nat.mod_mod_of_dvd w (Nat.pow_dvd_pow 2 (show n₃ ≤ n₁ + n₂ + n₃ by omega)), hw,
      Nat.mul_add_mod_self_right, Nat.mod_eq_of_lt h3]
  have e2 : w / 2 ^ n₃ % 2 ^ (n₁ + n₂) = s.top n₁ * 2 ^ n₂ + (s.rest n₁).top n₂ := by
    rw [← Nat.mod_mul_right_div_self, ← Nat.pow_add, Nat.add_comm n₃, hw,
      Nat.mul_comm _ (2 ^ n₃), Nat.mul_add_div (by positivity), Nat.div_eq_of_lt h3, Nat.add_zero]
  refine ⟨?_, ?_, e3⟩
  · rw [Nat.add_comm n₂ n₃, Nat.pow_add, ← Nat.div_div_eq_div_mul,
      ← Nat.mod_mul_right_div_self, ← Nat.pow_add, Nat.add_comm n₂ n₁, e2,
      Nat.mul_comm _ (2 ^ n₂), Nat.mul_add_div (by positivity), Nat.div_eq_of_lt h2, Nat.add_zero]
  · rw [← Nat.mod_mod_of_dvd (w / 2 ^ n₃) (Nat.pow_dvd_pow 2 (show n₂ ≤ n₁ + n₂ by omega)), e2,
      Nat.mul_add_mod_self_right, Nat.mod_eq_of_lt h2]

/-- A triple read is three reads in a row, whichever way its widths send it. -/
theorem Tracks.getBitsTriple {r : BitReaderReversed} {s : Stack} {m : Int} (h : r.Tracks s m)
    {n₁ n₂ n₃ : Nat} (h₁ : n₁ ≤ 56) (h₂ : n₂ ≤ 56) (h₃ : n₃ ≤ 56) :
    (r.getBitsTriple n₁ n₂ n₃).1 = (s.top n₁, (s.rest n₁).top n₂, (s.rest (n₁ + n₂)).top n₃) ∧
      (r.getBitsTriple n₁ n₂ n₃).2.Tracks (s.rest (n₁ + n₂ + n₃)) (m - (n₁ + n₂ + n₃ : Nat)) := by
  unfold BitReaderReversed.getBitsTriple
  by_cases hn : n₁ + n₂ + n₃ ≤ 56
  · obtain ⟨ht, hb⟩ := h.ensureBits hn
    simp only [hn, if_true]
    exact ⟨extractTriple_eq ht.sound ht.stack hb, (ht.read (consume_spec ht.sound hb)).2⟩
  · obtain ⟨v₁, t₁⟩ := h.getBits h₁
    obtain ⟨v₂, t₂⟩ := t₁.getBits h₂
    obtain ⟨v₃, t₃⟩ := t₂.getBits h₃
    rw [Stack.rest_rest] at v₃
    rw [Stack.rest_rest, Stack.rest_rest] at t₃
    simp only [hn, if_false]
    refine ⟨by rw [v₁, v₂, v₃], t₃.cast (by rw [Nat.add_assoc]) ?_⟩
    push_cast
    ring

theorem skipPaddingLoop_spec {r : BitReaderReversed} (h : r.Sound) {s : Stack} {k n f : Nat}
    (hk : 1 ≤ k) (hn : n + k ≤ 8) (hf : k ≤ f) (hs : r.toStack = s.push 1 k) :
    ∃ r', skipPaddingLoop f n r = (n + k, r') ∧ Reads r k 1 r' ∧ r'.toStack = s := by
  induction k generalizing r n f with
  | zero => omega
  | succ k ih =>
    obtain ⟨fuel, rfl⟩ : ∃ g, f = g + 1 := ⟨f - 1, by omega⟩
    have hread := getBits_spec h (show 1 ≤ 56 by decide)
    rw [skipPaddingLoop]
    rcases k with _ | k
    · have hv : (r.getBits 1).1 = 1 := by
        rw [hread.value, hs, Stack.top_push]
        rfl
      rw [hv] at hread
      refine ⟨(r.getBits 1).2, ?_, hread, by rw [hread.stack, hs, Stack.rest_push]⟩
      simp only [hv, true_or, if_true]
    · rw [Stack.push_one_succ] at hs
      have hv : (r.getBits 1).1 = 0 := by
        rw [hread.value, hs, Stack.top_push]
        rfl
      rw [hv] at hread
      obtain ⟨r', hr, hreads, hst⟩ := ih hread.sound (n := n + 1) (f := fuel) (by omega)
        (by omega) (by omega) (by rw [hread.stack, hs, Stack.rest_push])
      refine ⟨r', ?_, ?_, hst⟩
      · simp only [hv]
        rw [if_neg (by omega), hr]
        congr 1
        omega
      · have := hread.trans hreads
        rwa [Nat.zero_mul, Nat.zero_add, Nat.add_comm] at this

/-- The search for the end mark leaves a sound reader, whatever it finds. -/
theorem skipPaddingLoop_tracks (fuel n : Nat) {r : BitReaderReversed} {st : Stack} {m : Int}
    (h : r.Tracks st m) : ∃ st' m', (skipPaddingLoop fuel n r).2.Tracks st' m' := by
  induction fuel generalizing n r st m with
  | zero => exact ⟨st, m, h⟩
  | succ fuel ih =>
    obtain ⟨_, ht⟩ := h.getBits (n := 1) (by decide)
    rw [skipPaddingLoop]
    simp only
    split_ifs
    · exact ⟨_, _, ht⟩
    · exact ih _ ht

/-- An end mark of at most eight bits is skipped exactly. -/
theorem skipPadding_spec {r : BitReaderReversed} (h : r.Sound) {s : Stack} {k : Nat}
    (hk : 1 ≤ k) (h8 : k ≤ 8) (hs : r.toStack = s.push 1 k) :
    ∃ r', r.skipPadding = (k, r') ∧ Reads r k 1 r' ∧ r'.toStack = s := by
  have := skipPaddingLoop_spec h hk (n := 0) (f := 9) (by omega) (by omega) hs
  rwa [Nat.zero_add] at this

/-- The reader faces exactly the stack `s`, nothing having been read past its bottom. -/
structure At (r : BitReaderReversed) (s : Stack) : Prop where
  sound : r.Sound
  stack : r.toStack = s
  remaining : r.bitsRemaining = s.len

theorem new_at (source : List UInt8) : (new source).At (Stack.ofBytes source) :=
  ⟨new_sound source, new_toStack source, by simp⟩

theorem At.of_reads {r r' : BitReaderReversed} {s : Stack} {b n v : Nat} (h : r.At (s.push b n))
    (hr : Reads r n v r') : v = b % 2 ^ n ∧ r'.At s := by
  refine ⟨by rw [hr.value, h.stack, Stack.top_push], hr.sound, ?_, ?_⟩
  · rw [hr.stack, h.stack, Stack.rest_push]
  · rw [hr.remaining, h.remaining, Stack.push_len]
    omega

/-- The field on top is read and uncovers what lies below. -/
theorem At.getBits {r : BitReaderReversed} {s : Stack} {b n : Nat} (h : r.At (s.push b n))
    (hn : n ≤ 56) : ∃ r', r.getBits n = (b % 2 ^ n, r') ∧ r'.At s := by
  obtain ⟨hv, ha⟩ := h.of_reads (getBits_spec h.sound hn)
  exact ⟨_, by rw [← hv], ha⟩

theorem At.skipPadding {r : BitReaderReversed} {s : Stack} {k : Nat} (h : r.At (s.push 1 k))
    (hk : 1 ≤ k) (h8 : k ≤ 8) : ∃ r', r.skipPadding = (k, r') ∧ r'.At s := by
  obtain ⟨r', hr, hreads, _⟩ := skipPadding_spec h.sound hk h8 h.stack
  exact ⟨r', hr, (h.of_reads hreads).2⟩

end BitReaderReversed

end BitIo
