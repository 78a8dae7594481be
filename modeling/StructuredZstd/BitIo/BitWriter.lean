import StructuredZstd.Bits.Bytes

namespace BitIo

open Bits

/-- The writer of `bit_writer.rs`: whole bytes in `output`, the bits of an unfinished word held
back in the accumulator the source calls `partial`. -/
structure BitWriter where
  output : List UInt8
  held : Nat
  bitsInPartial : Nat
  bitIdx : Nat
  bits_lt : bitsInPartial < 64
  held_lt : held < 2 ^ bitsInPartial
  idx_eq : bitIdx = 8 * output.length

namespace BitWriter

/-- Write after the bytes already in `output`. -/
def ofOutput (output : List UInt8) : BitWriter where
  output := output
  held := 0
  bitsInPartial := 0
  bitIdx := 8 * output.length
  bits_lt := by decide
  held_lt := Stack.empty.lt
  idx_eq := rfl

def index (w : BitWriter) : Nat := w.bitIdx + w.bitsInPartial

/-- How many bits are missing for a whole byte. -/
def misaligned (w : BitWriter) : Nat :=
  if w.index % 8 = 0 then 0 else 8 - w.index % 8

/-- Everything written so far, the newest bit on top. -/
def toStack (w : BitWriter) : Stack :=
  (Stack.ofBytes w.output).push w.held w.bitsInPartial

@[simp] theorem ofOutput_toStack (output : List UInt8) :
    (ofOutput output).toStack = Stack.ofBytes output := by
  simp [toStack, ofOutput]

theorem toStack_len (w : BitWriter) :
    w.toStack.len = 8 * w.output.length + w.bitsInPartial := rfl

theorem index_eq (w : BitWriter) : w.index = w.toStack.len := by
  rw [index, w.idx_eq, toStack_len]

theorem toStack_value (w : BitWriter) :
    w.toStack.value = le w.output + w.held * 2 ^ (8 * w.output.length) := by
  simp [toStack, Stack.push_value_of_lt _ w.held_lt]

/-- The accumulator goes out as whole bytes; the source asserts that it holds nothing else. -/
def flush (w : BitWriter) : Option BitWriter :=
  if h : w.bitsInPartial % 8 = 0 then
    some
      { output := w.output ++ toLeBytes (w.bitsInPartial / 8) w.held
        held := w.held >>> (w.bitsInPartial / 8 * 8)
        bitsInPartial := w.bitsInPartial - w.bitsInPartial / 8 * 8
        bitIdx := w.bitIdx + w.bitsInPartial / 8 * 8
        bits_lt := by omega
        held_lt := by
          have he : w.bitsInPartial / 8 * 8 = w.bitsInPartial := by omega
          rw [he, Nat.shiftRight_eq_div_pow, Nat.div_eq_of_lt w.held_lt]
          simp
        idx_eq := by simp [w.idx_eq]; omega }
  else none

theorem flush_spec (w : BitWriter) (h : w.bitsInPartial % 8 = 0) :
    ∃ w', w.flush = some w' ∧ w'.toStack = w.toStack ∧ w'.bitsInPartial = 0 := by
  have he : 8 * (w.bitsInPartial / 8) = w.bitsInPartial := by omega
  have hm : w.held % 2 ^ w.bitsInPartial = w.held := Nat.mod_eq_of_lt w.held_lt
  refine ⟨_, dif_pos h, ?_, ?_⟩
  · ext
    · rw [toStack_value, toStack_value]
      simp only [le_append, le_toLeBytes, he, hm, List.length_append, toLeBytes_length]
      rw [Nat.mul_comm _ 8, he, Nat.shiftRight_eq_div_pow, Nat.div_eq_of_lt w.held_lt,
        Nat.zero_mul, Nat.add_zero]
    · simp only [toStack_len, List.length_append, toLeBytes_length]
      omega
  · change w.bitsInPartial - w.bitsInPartial / 8 * 8 = 0
    omega

theorem toStack_of_empty (w : BitWriter) (h : w.bitsInPartial = 0) :
    w.toStack = Stack.ofBytes w.output := by
  simp [toStack, h]

theorem idx_eq_append (w : BitWriter) (data : List UInt8) :
    w.bitIdx + data.length * 8 = 8 * (w.output ++ data).length := by
  rw [w.idx_eq, List.length_append, Nat.mul_add, Nat.mul_comm data.length]

/-- Append whole bytes to an aligned writer. -/
def appendBytes (w : BitWriter) (data : List UInt8) : Option BitWriter := do
  if w.misaligned ≠ 0 then none
  let w' ← w.flush
  some { w' with
    output := w'.output ++ data
    bitIdx := w'.bitIdx + data.length * 8
    idx_eq := w'.idx_eq_append data }

/-- The loop that moves whole bytes of `bits` straight into the output. -/
def pushWholeBytes : Nat → List UInt8 → Nat → List UInt8 × Nat
  | 0, output, bits => (output, bits)
  | k + 1, output, bits => pushWholeBytes k (output ++ [UInt8.ofNat bits]) (bits >>> 8)

theorem pushWholeBytes_eq (k : Nat) (output : List UInt8) (bits : Nat) :
    pushWholeBytes k output bits = (output ++ toLeBytes k bits, bits / 2 ^ (8 * k)) := by
  induction k generalizing output bits with
  | zero => simp [pushWholeBytes, toLeBytes]
  | succ k ih =>
    rw [pushWholeBytes, ih, two_pow_eight_mul_succ, ← Nat.div_div_eq_div_mul]
    simp [toLeBytes, Nat.shiftRight_eq_div_pow]

/-- The path taken when the field does not fit beside the held bits. -/
def writeBits64Cold (w : BitWriter) (bits numBits : Nat) : Option BitWriter :=
  if w.bitsInPartial + numBits < 64 then none
  else
    let free := 64 - w.bitsInPartial
    let part := bits <<< (64 - free) % 2 ^ 64
    let left := numBits - free
    let whole := pushWholeBytes (left / 8) (w.output ++ toLeBytes 8 (w.held ||| part)) (bits >>> free)
    some
      { output := whole.1
        held := if 0 < left % 8 then whole.2 &&& (1 <<< (left % 8) - 1) else 0
        bitsInPartial := left % 8
        bitIdx := w.bitIdx + 64 + 8 * (left / 8)
        bits_lt := by omega
        held_lt := by
          split
          · rw [Nat.one_shiftLeft, Nat.and_two_pow_sub_one_eq_mod]
            exact Nat.mod_lt _ (by positivity)
          · positivity
        idx_eq := by
          simp only [whole, pushWholeBytes_eq, List.length_append, toLeBytes_length, w.idx_eq]
          omega }

/-- Write the low `numBits` bits of `bits`; a dirty field or one wider than a word panics. -/
def writeBits64 (w : BitWriter) (bits numBits : Nat) : Option BitWriter :=
  if numBits = 0 then some w
  else if 64 < numBits then none
  else if numBits = 64 ∧ w.bitsInPartial = 0 then
    some { w with
      output := w.output ++ toLeBytes 8 bits
      bitIdx := w.bitIdx + 64
      idx_eq := by simp [w.idx_eq]; omega }
  else if hc : numBits = 64 ∨ bits >>> numBits = 0 then
    if h : numBits + w.bitsInPartial < 64 then
      some { w with
        held := w.held ||| bits <<< w.bitsInPartial
        bitsInPartial := w.bitsInPartial + numBits
        bits_lt := by omega
        held_lt := by
          have hb : bits < 2 ^ numBits := lt_of_shiftRight_eq_zero (hc.resolve_left (by omega))
          rw [lor_shiftLeft bits w.held_lt, ← Stack.push_value_of_lt ⟨_, _, w.held_lt⟩ hb]
          exact (Stack.push ⟨_, _, w.held_lt⟩ bits numBits).lt }
    else w.writeBits64Cold bits numBits
  else none

/-- `write_bits` widens its argument and delegates. -/
def writeBits (w : BitWriter) (bits numBits : Nat) : Option BitWriter :=
  w.writeBits64 bits numBits

theorem writeBits64Cold_spec (w : BitWriter) {bits n : Nat} (hb : bits < 2 ^ n)
    (hn : 64 ≤ w.bitsInPartial + n) :
    ∃ w', w.writeBits64Cold bits n = some w' ∧ w'.toStack = w.toStack.push bits n := by
  have hlt := w.bits_lt
  obtain ⟨free, hfree⟩ : ∃ free, w.bitsInPartial + free = 64 := ⟨64 - w.bitsInPartial, by omega⟩
  obtain ⟨left, rfl⟩ : ∃ left, n = free + left := ⟨n - free, by omega⟩
  have e1 : 64 - w.bitsInPartial = free := by omega
  have e2 : 64 - free = w.bitsInPartial := by omega
  have e3 : free + left - free = left := by omega
  -- the field splits into the part that completes the word and the part above it
  have hpart : bits <<< w.bitsInPartial % 2 ^ 64 = (bits % 2 ^ free) <<< w.bitsInPartial := by
    rw [Nat.shiftLeft_eq, Nat.shiftLeft_eq, ← hfree, Nat.pow_add, Nat.mul_comm (2 ^ _),
      Nat.mul_mod_mul_right]
  have hword : w.held + bits % 2 ^ free * 2 ^ w.bitsInPartial < 2 ^ 64 := by
    have := (Stack.push ⟨_, _, w.held_lt⟩ bits free).lt
    rwa [Stack.push_len, hfree] at this
  have hrest : bits / 2 ^ free < 2 ^ left := by
    rw [Nat.div_lt_iff_lt_mul (by positivity), ← Nat.pow_add, Nat.add_comm]
    exact hb
  refine ⟨_, if_neg (by omega), ?_⟩
  ext
  · rw [Stack.push_value_of_lt _ hb, toStack_value, toStack_value, toStack_len]
    simp only [e1, e2, e3, pushWholeBytes_eq, hpart, lor_shiftLeft _ w.held_lt, le_append,
      le_toLeBytes, List.length_append, toLeBytes_length, Nat.shiftRight_eq_div_pow]
    rw [Nat.mod_eq_of_lt hword]
    have hheld : (if 0 < left % 8 then
          bits / 2 ^ free / 2 ^ (8 * (left / 8)) &&& (1 <<< (left % 8) - 1) else 0) =
        bits / 2 ^ free / 2 ^ (8 * (left / 8)) := by
      have hl : bits / 2 ^ free / 2 ^ (8 * (left / 8)) < 2 ^ (left % 8) := by
        rw [Nat.div_lt_iff_lt_mul (by positivity), ← Nat.pow_add]
        exact Nat.lt_of_lt_of_eq hrest (by congr 1; omega)
      split
      · rw [Nat.one_shiftLeft, Nat.and_two_pow_sub_one_eq_mod, Nat.mod_eq_of_lt hl]
      · rename_i h0
        have : left % 8 = 0 := by omega
        rw [this, Nat.pow_zero] at hl
        exact (Nat.lt_one_iff.mp hl).symm
    rw [hheld]
    have hd1 := Nat.div_add_mod' bits (2 ^ free)
    have hd2 := Nat.div_add_mod' (bits / 2 ^ free) (2 ^ (8 * (left / 8)))
    generalize bits / 2 ^ free / 2 ^ (8 * (left / 8)) = q2 at hd2 ⊢
    generalize bits / 2 ^ free % 2 ^ (8 * (left / 8)) = r2 at hd2 ⊢
    generalize bits % 2 ^ free = r1 at hd1 ⊢
    generalize bits / 2 ^ free = q1 at hd1 hd2
    have hp : 2 ^ (8 * 8) = 2 ^ w.bitsInPartial * 2 ^ free := by rw [← Nat.pow_add, hfree]
    subst hd1 hd2
    rw [show 8 * (w.output.length + 8 + left / 8) =
        8 * w.output.length + 8 * 8 + 8 * (left / 8) by ring,
      show 8 * (w.output.length + 8) = 8 * w.output.length + 8 * 8 by ring, Nat.pow_add,
      Nat.pow_add, Nat.pow_add, hp]
    ring
  · simp only [toStack_len, Stack.push_len, e1, e3, pushWholeBytes_eq, List.length_append,
      toLeBytes_length]
    omega

/-- A clean field of at most a word is pushed on the bits written so far. -/
theorem writeBits_spec (w : BitWriter) {b n : Nat} (hb : b < 2 ^ n) (hn : n ≤ 64) :
    ∃ w', w.writeBits b n = some w' ∧ w'.toStack = w.toStack.push b n := by
  unfold writeBits writeBits64
  split_ifs with h0 h1 h2 hc h3
  · subst h0
    exact ⟨w, rfl, by simp⟩
  · omega
  · refine ⟨_, rfl, ?_⟩
    obtain ⟨rfl, hp⟩ := h2
    have hheld : w.held = 0 := by have := w.held_lt; rw [hp] at this; omega
    ext
    · rw [Stack.push_value_of_lt _ hb, toStack_value, toStack_value, toStack_len]
      simpa [le_append, le_toLeBytes, hp, hheld] using hb
    · simp [toStack_len]
      omega
  · refine ⟨_, rfl, ?_⟩
    ext
    · rw [Stack.push_value_of_lt _ hb, toStack_value, toStack_value, toStack_len]
      simp only [lor_shiftLeft b w.held_lt, Nat.pow_add]
      ring
    · simp [toStack_len]
      omega
  · exact w.writeBits64Cold_spec hb (by omega)
  · rcases not_or.mp hc with ⟨_, hd⟩
    rw [Nat.shiftRight_eq_div_pow, Nat.div_eq_of_lt hb] at hd
    exact absurd rfl hd

/-- `r` is `w` with the fields written after what it holds. -/
def Writes (w : BitWriter) (fields : List (Nat × Nat)) (r : Option BitWriter) : Prop :=
  ∃ w', r = some w' ∧ w'.toStack = w.toStack.pushAll fields

theorem Writes.nil (w : BitWriter) : Writes w [] (some w) := ⟨w, rfl, rfl⟩

theorem Writes.field (w : BitWriter) {bits n : Nat} (hb : bits < 2 ^ n) (hn : n ≤ 64) :
    Writes w [(bits, n)] (w.writeBits bits n) := w.writeBits_spec hb hn

/-- Fields written one after the other. -/
theorem Writes.bind {w : BitWriter} {fs gs : List (Nat × Nat)} {r : Option BitWriter}
    {f : BitWriter → Option BitWriter} (h : Writes w fs r) (hf : ∀ w', Writes w' gs (f w')) :
    Writes w (fs ++ gs) (r >>= f) := by
  obtain ⟨w', rfl, hw'⟩ := h
  obtain ⟨w'', hr, hw''⟩ := hf w'
  exact ⟨w'', hr, by rw [hw'', hw', Stack.pushAll_append]⟩

theorem Writes.bind_cons {w : BitWriter} {f : Nat × Nat} {gs : List (Nat × Nat)}
    {r : Option BitWriter} {k : BitWriter → Option BitWriter} (h : Writes w [f] r)
    (hk : ∀ w', Writes w' gs (k w')) : Writes w (f :: gs) (r >>= k) := h.bind hk

theorem misaligned_lt (w : BitWriter) : w.misaligned < 8 := by
  unfold misaligned
  split_ifs <;> omega

/-- Filling up to a byte aligns the writer. -/
theorem fill_aligned {w w' : BitWriter} {bits : Nat}
    (h : w'.toStack = w.toStack.push bits w.misaligned) : w'.index % 8 = 0 := by
  rw [index_eq, h, Stack.push_len, ← index_eq, misaligned]
  split_ifs <;> omega

/-- An aligned writer flushes to bytes that hold exactly what was written. -/
theorem flush_aligned {w : BitWriter} (h : w.index % 8 = 0) :
    ∃ w', w.flush = some w' ∧ Stack.ofBytes w'.output = w.toStack ∧ w'.bitsInPartial = 0 := by
  have h8 : w.bitsInPartial % 8 = 0 := by
    rw [index, w.idx_eq] at h
    omega
  obtain ⟨w', hw, ht, h0⟩ := w.flush_spec h8
  exact ⟨w', hw, by rw [← ht, toStack_of_empty w' h0], h0⟩

end BitWriter

end BitIo
