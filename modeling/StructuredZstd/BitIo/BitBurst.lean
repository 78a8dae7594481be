import StructuredZstd.BitIo.BitWriter

namespace BitIo

open Bits

/-- A run of unchecked writes: the accumulator of the writer and a cursor into room reserved
ahead. `output` ends at the cursor, `limit` is the end of the room. Every flush stores a whole
word, but what lies past the cursor is stored again by the next one. -/
structure BitBurst where
  output : List UInt8
  held : Nat
  bitsInPartial : Nat
  limit : Nat
  bits_lt : bitsInPartial < 64
  held_lt : held < 2 ^ bitsInPartial

namespace BitBurst

def toStack (b : BitBurst) : Stack :=
  (Stack.ofBytes b.output).push b.held b.bitsInPartial

theorem toStack_len (b : BitBurst) :
    b.toStack.len = 8 * b.output.length + b.bitsInPartial := rfl

theorem toStack_value (b : BitBurst) :
    b.toStack.value = le b.output + b.held * 2 ^ (8 * b.output.length) := by
  simp [toStack, Stack.push_value_of_lt _ b.held_lt]

/-- Put `bits` above what is held. The accumulator has to keep a bit free and the field has to be
clean; the source leaves both to its caller. -/
def add (b : BitBurst) (bits numBits : Nat) : Option BitBurst :=
  if h : b.bitsInPartial + numBits < 64 ∧ bits >>> numBits = 0 then
    some { b with
      held := b.held ||| bits <<< b.bitsInPartial
      bitsInPartial := b.bitsInPartial + numBits
      bits_lt := h.1
      held_lt := by
        have hb : bits < 2 ^ numBits := lt_of_shiftRight_eq_zero h.2
        rw [lor_shiftLeft bits b.held_lt, ← Stack.push_value_of_lt ⟨_, _, b.held_lt⟩ hb]
        exact (Stack.push ⟨_, _, b.held_lt⟩ bits numBits).lt }
  else none

/-- Move the whole bytes of the accumulator behind the cursor; the stored word has to lie inside
the room. -/
def flush (b : BitBurst) : Option BitBurst :=
  let nbBytes := b.bitsInPartial >>> 3
  if b.output.length + 8 ≤ b.limit then
    some
      { output := b.output ++ toLeBytes nbBytes b.held
        held := b.held >>> (nbBytes * 8)
        bitsInPartial := b.bitsInPartial &&& 7
        limit := b.limit
        bits_lt := Nat.lt_of_le_of_lt Nat.and_le_right (by decide)
        held_lt := by
          have he : b.bitsInPartial = (b.bitsInPartial &&& 7) + nbBytes * 8 := by
            change _ = (b.bitsInPartial &&& (2 ^ 3 - 1)) + b.bitsInPartial >>> 3 * 8
            rw [Nat.and_two_pow_sub_one_eq_mod, Nat.shiftRight_eq_div_pow]
            omega
          rw [Nat.shiftRight_eq_div_pow, Nat.div_lt_iff_lt_mul (by positivity), ← Nat.pow_add,
            ← he]
          exact b.held_lt }
  else none

/-- Hand the bits back to the writer. -/
def finish (b : BitBurst) : BitWriter where
  output := b.output
  held := b.held
  bitsInPartial := b.bitsInPartial
  bitIdx := 8 * b.output.length
  bits_lt := b.bits_lt
  held_lt := b.held_lt
  idx_eq := rfl

@[simp] theorem finish_toStack (b : BitBurst) : b.finish.toStack = b.toStack := rfl

end BitBurst

/-- Start a burst that commits at most `maxBytes` bytes, those of the accumulator included. -/
def BitWriter.burst (w : BitWriter) (maxBytes : Nat) : Option BitBurst :=
  BitBurst.flush
    { output := w.output
      held := w.held
      bitsInPartial := w.bitsInPartial
      limit := w.output.length + (maxBytes + 8)
      bits_lt := w.bits_lt
      held_lt := w.held_lt }

namespace BitBurst

theorem add_spec (b : BitBurst) {bits n : Nat} (hb : bits < 2 ^ n)
    (hn : b.bitsInPartial + n < 64) :
    ∃ b', b.add bits n = some b' ∧ b'.toStack = b.toStack.push bits n ∧
      b'.bitsInPartial = b.bitsInPartial + n ∧ b'.output = b.output ∧ b'.limit = b.limit := by
  have hc : bits >>> n = 0 := by
    rw [Nat.shiftRight_eq_div_pow, Nat.div_eq_of_lt hb]
  refine ⟨_, dif_pos ⟨hn, hc⟩, ?_, rfl, rfl, rfl⟩
  ext
  · rw [Stack.push_value_of_lt _ hb, toStack_value, toStack_value, toStack_len]
    simp only [lor_shiftLeft bits b.held_lt, Nat.pow_add]
    ring
  · simp [toStack_len]
    omega

theorem flush_spec (b : BitBurst) (hroom : b.output.length + 8 ≤ b.limit) :
    ∃ b', b.flush = some b' ∧ b'.toStack = b.toStack ∧ b'.bitsInPartial < 8 ∧
      b'.limit = b.limit := by
  have h7 : b.bitsInPartial &&& 7 = b.bitsInPartial % 8 := Nat.and_two_pow_sub_one_eq_mod _ 3
  have h3 : b.bitsInPartial >>> 3 = b.bitsInPartial / 8 := Nat.shiftRight_eq_div_pow _ 3
  refine ⟨_, if_pos hroom, ?_, ?_, rfl⟩
  · ext
    · rw [toStack_value, toStack_value]
      simp only [le_append, le_toLeBytes, List.length_append, toLeBytes_length,
        Nat.shiftRight_eq_div_pow, Nat.mul_add, Nat.pow_add, h3, Nat.mul_comm _ 8]
      have := Nat.mod_add_div b.held (2 ^ (8 * (b.bitsInPartial / 8)))
      conv_rhs => rw [← this]
      ring
    · simp only [toStack_len, List.length_append, toLeBytes_length, h3, h7]
      omega
  · change b.bitsInPartial &&& 7 < 8
    rw [h7]
    omega

end BitBurst

theorem BitWriter.burst_spec (w : BitWriter) (maxBytes : Nat) :
    ∃ b, w.burst maxBytes = some b ∧ b.toStack = w.toStack ∧ b.bitsInPartial < 8 ∧
      b.limit = w.output.length + (maxBytes + 8) := by
  refine BitBurst.flush_spec _ ?_
  change w.output.length + 8 ≤ w.output.length + (maxBytes + 8)
  omega

end BitIo
