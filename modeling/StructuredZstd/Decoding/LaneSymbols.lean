import StructuredZstd.Decoding.LiteralsSection
import StructuredZstd.Huff0.BuildGuards

namespace Huff0.Decoder.HuffmanTable

/-- A decode table with a slot for every state and no code longer than a state. -/
structure WellFormed (t : HuffmanTable) : Prop extends t.Filled where
  numBits_le : ∀ e ∈ t.packedDecode, e.numBits ≤ t.maxNumBits
  mask : t.stateMask = 2 ^ t.maxNumBits - 1

theorem WellFormed.slot_le {t : HuffmanTable} (h : t.WellFormed) (state : Nat) :
    (t.packedDecode.getD state {}).numBits ≤ t.maxNumBits := by
  rw [List.getD_eq_getElem?_getD]
  cases hslot : t.packedDecode[state]? with
  | none => exact Nat.zero_le _
  | some e => exact h.numBits_le e (List.mem_of_getElem? hslot)

/-- A table that was built is well formed. -/
theorem buildDecoder_wellFormed {t t' : HuffmanTable} {source : List UInt8} {n : Nat}
    (h : t.buildDecoder source = (.ok n, t')) : t'.WellFormed := by
  have hpart := buildDecoder_partitioned h
  refine ⟨buildDecoder_ok h, fun e he => (hpart.entry e he).2.1, ?_⟩
  simp only [buildDecoder] at h
  split at h
  · cases h
  · rename_i n₁ t₁ hread
    cases hc : t₁.computeHuffmanBits with
    | mk result t₂ =>
      cases result with
      | error e =>
        simp only [buildTableFromWeights, hc] at h
        cases h
      | ok maxBits =>
        obtain ⟨lastWeight, -, -, -, -, -, rfl⟩ := computeHuffmanBits_ok hc
        simp only [buildTableFromWeights, hc] at h
        cases h
        exact congrArg (· - 1) (Nat.one_shiftLeft _)

end Huff0.Decoder.HuffmanTable

namespace Decoding

open Bits BitIo Huff0.Decoder

section Symbols

variable (t : HuffmanTable)

/-- The slot the bits on top of a stream lead to. -/
def slotAt (s : Stack) : PackedEntry := t.packedDecode.getD (s.top t.maxNumBits) {}

/-- The first `n` symbols of a stream. -/
def symbolsAt : Nat → Stack → List UInt8
  | 0, _ => []
  | n + 1, s => (slotAt t s).symbol :: symbolsAt n (s.rest (slotAt t s).numBits)

/-- How many bits they take. -/
def widthAt : Nat → Stack → Nat
  | 0, _ => 0
  | n + 1, s => (slotAt t s).numBits + widthAt n (s.rest (slotAt t s).numBits)

@[simp] theorem symbolsAt_length (n : Nat) (s : Stack) : (symbolsAt t n s).length = n := by
  induction n generalizing s with
  | zero => rfl
  | succ n ih => simp [symbolsAt, ih]

theorem widthAt_succ (n : Nat) (s : Stack) :
    widthAt t (n + 1) s = widthAt t n s + (slotAt t (s.rest (widthAt t n s))).numBits := by
  induction n generalizing s with
  | zero => simp [widthAt]
  | succ n ih =>
    rw [widthAt, ih, widthAt, Stack.rest_rest]
    omega

theorem symbolsAt_succ (n : Nat) (s : Stack) :
    symbolsAt t (n + 1) s = symbolsAt t n s ++ [(slotAt t (s.rest (widthAt t n s))).symbol] := by
  induction n generalizing s with
  | zero => simp [widthAt, symbolsAt]
  | succ n ih =>
    rw [symbolsAt, ih, symbolsAt, widthAt, Stack.rest_rest]
    rfl

end Symbols

variable {t : HuffmanTable}

/-- The state holds the bits on top; a code gone, the next ones move up. -/
theorem nextState_top (h : t.WellFormed) (s : Stack) {n : Nat} (hn : n ≤ t.maxNumBits) :
    nextState t (s.top t.maxNumBits) n ((s.rest t.maxNumBits).top n) =
      (s.rest n).top t.maxNumBits := by
  have hnew : (s.rest t.maxNumBits).top n < 2 ^ n := Stack.top_lt _ _
  have hwidth : 2 ^ t.maxNumBits = 2 ^ (t.maxNumBits - n) * 2 ^ n := by
    rw [← Nat.pow_add, Nat.sub_add_cancel hn]
  have hmoved : (s.rest n).top t.maxNumBits =
      (s.top t.maxNumBits * 2 ^ n + (s.rest t.maxNumBits).top n) % 2 ^ t.maxNumBits := by
    rw [Stack.top_rest, Nat.add_comm n, Stack.top_add]
  rw [nextState, h.mask, Nat.and_two_pow_sub_one_eq_mod, Nat.shiftLeft_eq, Nat.or_comm, hmoved]
  generalize s.top t.maxNumBits = state
  generalize (s.rest t.maxNumBits).top n = fresh at hnew ⊢
  calc fresh ||| state * 2 ^ n % 2 ^ t.maxNumBits
      = fresh + state % 2 ^ (t.maxNumBits - n) * 2 ^ n := by
        rw [hwidth, Nat.mul_mod_mul_right, ← Nat.shiftLeft_eq, lor_shiftLeft _ hnew,
          Nat.shiftLeft_eq]
    _ = (state * 2 ^ n + fresh) % (2 ^ n * 2 ^ (t.maxNumBits - n)) := by
        rw [Nat.mod_mul, Nat.mul_add_mod_self_right, Nat.mod_eq_of_lt hnew,
          Nat.mul_comm state, Nat.mul_add_div (Nat.two_pow_pos n), Nat.div_eq_of_lt hnew,
          Nat.add_zero, Nat.mul_comm (2 ^ n)]
    _ = (state * 2 ^ n + fresh) % 2 ^ t.maxNumBits := by rw [hwidth, Nat.mul_comm (2 ^ n)]

/-- A stream and how many bits its padding takes. -/
structure Opened where
  source : List UInt8
  skipped : Nat

namespace Opened

def bits (o : Opened) : Stack := (Stack.ofBytes o.source).rest o.skipped

/-- What is left of it after `n` symbols. -/
def after (t : HuffmanTable) (o : Opened) (n : Nat) : Stack := o.bits.rest (widthAt t n o.bits)

/-- What a reader still counts then, a state ahead. -/
def left (t : HuffmanTable) (o : Opened) (n : Nat) : Int :=
  8 * o.source.length - (o.skipped + widthAt t n o.bits + t.maxNumBits : Nat)

theorem after_eq (o : Opened) (n : Nat) :
    o.after t n = (Stack.ofBytes o.source).rest (o.skipped + widthAt t n o.bits) :=
  Stack.rest_rest ..

@[simp] theorem after_zero (o : Opened) : o.after t 0 = o.bits := Stack.rest_zero _

theorem after_succ (o : Opened) (n : Nat) :
    o.after t (n + 1) = (o.after t n).rest (slotAt t (o.after t n)).numBits := by
  rw [after, widthAt_succ, ← Stack.rest_rest]
  rfl

theorem left_succ (o : Opened) (n : Nat) :
    o.left t (n + 1) = o.left t n - (slotAt t (o.after t n)).numBits := by
  rw [left, left, widthAt_succ, after]
  push_cast
  ring

end Opened

/-- Symbol by symbol, the reader refilled before each. -/
def Lane.steps (t : HuffmanTable) : Nat → Lane → Lane
  | 0, lane => lane
  | n + 1, lane => Lane.steps t n (lane.step t)

/-- A lane `n` symbols into its stream. -/
structure Lane.After (t : HuffmanTable) (o : Opened) (n : Nat) (lane : Lane) : Prop where
  tracks : lane.br.Tracks ((o.after t n).rest t.maxNumBits) (o.left t n)
  state : lane.state = (o.after t n).top t.maxNumBits
  out : lane.out = symbolsAt t n o.bits

namespace Lane.After

variable {o : Opened} {n : Nat} {lane : Lane}

theorem out_succ (h : lane.After t o n) :
    lane.out ++ [(slotAt t (o.after t n)).symbol] = symbolsAt t (n + 1) o.bits := by
  rw [symbolsAt_succ, h.out]
  rfl

/-- One symbol, the reader refilled when it has to be. -/
theorem step (ht : t.WellFormed) (h : lane.After t o n) : (lane.step t).After t o (n + 1) := by
  have hslot : t.packedDecode.getD lane.state {} = slotAt t (o.after t n) := by
    rw [h.state]
    rfl
  have hle : (slotAt t (o.after t n)).numBits ≤ t.maxNumBits := ht.slot_le _
  have hmax : t.maxNumBits ≤ 12 := ht.le
  obtain ⟨hvalue, htracks⟩ :=
    h.tracks.getBits (n := (slotAt t (o.after t n)).numBits) (by omega)
  simp only [Lane.step, decodeSymbolAndAdvance, hslot]
  refine ⟨?_, ?_, h.out_succ⟩
  · apply htracks.cast _ (Opened.left_succ o n)
    rw [Opened.after_succ, Stack.rest_rest, Stack.rest_rest, Nat.add_comm]
  · simp only [hvalue, h.state]
    rw [nextState_top ht _ hle, ← Opened.after_succ]

/-- One symbol out of what the container still holds. -/
theorem stepNoRefill (ht : t.WellFormed) (h : lane.After t o n)
    (hroom : lane.br.bitsConsumed + t.maxNumBits ≤ 64) :
    (lane.stepNoRefill t).After t o (n + 1) ∧
      (lane.stepNoRefill t).br.bitsConsumed ≤ lane.br.bitsConsumed + t.maxNumBits := by
  have hslot : t.packedDecode.getD lane.state {} = slotAt t (o.after t n) := by
    rw [h.state]
    rfl
  have hle : (slotAt t (o.after t n)).numBits ≤ t.maxNumBits := ht.slot_le _
  obtain ⟨hvalue, htracks⟩ :=
    h.tracks.getBitsUnchecked (n := (slotAt t (o.after t n)).numBits) (by omega)
  simp only [Lane.stepNoRefill, decodeSymbolAndAdvanceNoRefill, hslot]
  refine ⟨⟨?_, ?_, h.out_succ⟩, ?_⟩
  · apply htracks.cast _ (Opened.left_succ o n)
    rw [Opened.after_succ, Stack.rest_rest, Stack.rest_rest, Nat.add_comm]
  · simp only [hvalue, h.state]
    rw [nextState_top ht _ hle, ← Opened.after_succ]
  · exact Nat.add_le_add_left hle _

/-- A whole lane, symbol by symbol. -/
theorem steps (ht : t.WellFormed) (h : lane.After t o n) (k : Nat) :
    (Lane.steps t k lane).After t o (n + k) := by
  induction k generalizing lane n with
  | zero => exact h
  | succ k ih =>
    rw [← Nat.add_assoc, Nat.add_right_comm]
    exact ih (h.step ht)

/-- A few symbols to one refill. -/
theorem stepsNoRefill (ht : t.WellFormed) (h : lane.After t o n) {k : Nat}
    (hroom : lane.br.bitsConsumed + k * t.maxNumBits ≤ 64) :
    (Lane.stepsNoRefill t k lane).After t o (n + k) := by
  induction k generalizing lane n with
  | zero => exact h
  | succ k ih =>
    rw [Nat.succ_mul] at hroom
    obtain ⟨hnext, hconsumed⟩ := h.stepNoRefill ht (by omega)
    rw [← Nat.add_assoc, Nat.add_right_comm]
    exact ih hnext (by omega)

theorem ensureBits (h : lane.After t o n) {k : Nat} (hk : k ≤ 56) :
    ({ lane with br := lane.br.ensureBits k } : Lane).After t o n ∧
      (lane.br.ensureBits k).bitsConsumed + k ≤ 64 := by
  obtain ⟨htracks, hroom⟩ := h.tracks.ensureBits hk
  exact ⟨⟨htracks, h.state, h.out⟩, hroom⟩

/-- The drain decodes what is owed. -/
theorem drain (ht : t.WellFormed) {fuel owed : Nat} (h : lane.After t o n)
    (hfuel : owed < fuel) :
    (drainLane t (4 * t.maxNumBits) fuel owed lane).After t o (n + owed) := by
  have hmax : t.maxNumBits ≤ 12 := ht.le
  obtain ⟨hready, hroom⟩ := h.ensureBits (k := 4 * t.maxNumBits) (by omega)
  induction fuel generalizing lane n owed with
  | zero => cases hfuel
  | succ fuel ih =>
    rw [drainLane]
    split
    · rename_i hgroup
      have hnext := hready.stepsNoRefill ht (k := 4) hroom
      obtain ⟨hready', hroom'⟩ := hnext.ensureBits (k := 4 * t.maxNumBits) (by omega)
      have hrest := ih hnext (show owed - 4 < fuel by omega) hready' hroom'
      rwa [Nat.add_assoc, Nat.add_sub_cancel' hgroup] at hrest
    · split
      · rename_i hshort _
        apply hready.stepsNoRefill ht
        have hle : owed * t.maxNumBits ≤ 4 * t.maxNumBits := Nat.mul_le_mul_right _ (by omega)
        change (lane.br.ensureBits (4 * t.maxNumBits)).bitsConsumed + _ ≤ 64
        omega
      · rename_i hnone
        rw [Nat.eq_zero_of_not_pos hnone]
        exact h

end Lane.After

section Start

open BitReaderReversed

theorem getBits_of_le {r : BitReaderReversed} {n : Nat} (h : r.bitsConsumed + n ≤ 64) :
    r.getBits n = (r.peekBits n, r.consume n) := by
  rw [getBits, if_neg (Nat.not_lt.mpr h)]

theorem consume_consume (r : BitReaderReversed) (m n : Nat) :
    (r.consume m).consume n = r.consume (m + n) := by
  simp only [consume, Nat.add_assoc]

/-- The search for the end mark stays within one container. -/
theorem skipPaddingLoop_consume (fuel n : Nat) {r : BitReaderReversed}
    (h : r.bitsConsumed + fuel ≤ 64) :
    ∃ j, j ≤ fuel ∧ skipPaddingLoop fuel n r = (n + j, r.consume j) := by
  induction fuel generalizing n r with
  | zero => exact ⟨0, Nat.le_refl 0, rfl⟩
  | succ fuel ih =>
    rw [skipPaddingLoop, getBits_of_le (show r.bitsConsumed + 1 ≤ 64 by omega)]
    simp only
    split
    · exact ⟨1, by omega, rfl⟩
    · obtain ⟨j, hj, hloop⟩ := ih (n + 1) (r := r.consume 1) (by simp only [consume]; omega)
      refine ⟨j + 1, by omega, ?_⟩
      rw [hloop, consume_consume, Nat.add_assoc, Nat.add_comm 1]

/-- The first refill of a stream. -/
theorem new_refill (stream : List UInt8) :
    (new stream).refill.bitsConsumed = 0 ∧ (new stream).refill.source = stream ∧
      (0 < (new stream).refill.index → (new stream).refill.index + 8 = stream.length ∧
        (new stream).refill.extraBits = 0 ∧
        (new stream).refill.bitContainer = loadWord stream (new stream).refill.index) := by
  have hbytes : (new stream).bitsConsumed / 8 = 8 := by
    change 64 / 8 = 8
    rfl
  have hindex : (new stream).index = stream.length := rfl
  unfold refill
  rw [hbytes, hindex]
  split
  · rename_i hlong
    have hindex : (new stream).reload.index + 8 = stream.length := by
      simp [reload, new, Nat.sub_add_cancel hlong]
    exact ⟨by simp [reload, new], rfl, fun _ => ⟨hindex, rfl, rfl⟩⟩
  · rw [if_neg (by decide)]
    unfold refillSlow
    split
    · exact ⟨rfl, rfl, fun h => absurd h (Nat.lt_irrefl 0)⟩
    · rename_i hempty
      exact ⟨rfl, rfl, fun h => absurd h hempty⟩

/-- A lane that has just been started, its container not yet moved. -/
structure Lane.Fresh (t : HuffmanTable) (o : Opened) (lane : Lane) : Prop where
  source : lane.br.source = o.source
  skipped_le : o.skipped ≤ 8
  consumed : lane.br.bitsConsumed = o.skipped + t.maxNumBits
  container : 0 < lane.br.index → lane.br.index + 8 = o.source.length ∧ lane.br.extraBits = 0 ∧
    lane.br.bitContainer = loadWord o.source lane.br.index

theorem Lane.start_spec (ht : t.WellFormed) {stream : List UInt8} {lane : Lane}
    (h : Lane.start t stream = .ok lane) :
    ∃ o : Opened, o.source = stream ∧ lane.After t o 0 ∧ lane.Fresh t o := by
  have hmax : t.maxNumBits ≤ 12 := ht.le
  obtain ⟨hconsumed, hsource, hcontainer⟩ := new_refill stream
  obtain ⟨hsound, hstack, hpos, -⟩ := refill_spec (new_sound stream)
  have htracks : (new stream).refill.Tracks (Stack.ofBytes stream) (8 * stream.length) := by
    refine ⟨hsound, hstack.trans (new_toStack stream), ?_⟩
    rw [bitsRemaining_eq hsound, hsource, hpos]
    simp [pos, new]
  have hfirst : (new stream).skipPadding = skipPaddingLoop 9 0 (new stream).refill := by
    have hget : (new stream).getBits 1 = (new stream).refill.getBits 1 := by
      rw [getBits_of_le (r := (new stream).refill) (by omega)]
      rfl
    rw [skipPadding, skipPaddingLoop, skipPaddingLoop, hget]
  obtain ⟨j, -, hskip⟩ := skipPaddingLoop_consume 9 0
    (show (new stream).refill.bitsConsumed + 9 ≤ 64 by omega)
  simp only [Lane.start, hfirst, hskip, Nat.zero_add] at h
  split at h
  · cases h
  · rename_i hj
    have hpadded := (htracks.read (consume_spec hsound
      (show (new stream).refill.bitsConsumed + j ≤ 64 by omega))).2
    have hbr : ((new stream).refill.consume j).bitsConsumed = j := by
      simp only [consume, hconsumed, Nat.zero_add]
    have hinit := getBits_of_le (r := (new stream).refill.consume j) (n := t.maxNumBits) (by omega)
    obtain ⟨hvalue, hready⟩ := hpadded.getBits (n := t.maxNumBits) (by omega)
    rw [hinit] at hvalue hready
    simp only [initState, hinit] at h
    cases h
    refine ⟨⟨stream, j⟩, rfl, ⟨?_, ?_, rfl⟩, ⟨hsource, Nat.le_of_not_lt hj, ?_, hcontainer⟩⟩
    · apply hready.cast
      · rw [Opened.after_zero]
        rfl
      · simp only [Opened.left, widthAt]
        push_cast
        ring
    · rw [Opened.after_zero]
      exact hvalue
    · simp only [consume, hconsumed, Nat.zero_add]

end Start

end Decoding
