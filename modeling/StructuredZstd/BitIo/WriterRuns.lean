import StructuredZstd.BitIo.BitBurst
import StructuredZstd.BitIo.ChangeBits
import StructuredZstd.Bits.BitList

namespace BitIo

open Bits

namespace BitWriter

/-- Everything written so far as a list, the oldest bit first. -/
def bits (w : BitWriter) : List Bool := bytesBits w.output ++ bitList w.bitsInPartial w.held

theorem bits_eq (w : BitWriter) : w.bits = w.toStack.bits := by
  rw [toStack, Stack.bits_push, Stack.bits_ofBytes, bits]

@[simp] theorem length_bits (w : BitWriter) : w.bits.length = w.index := by
  rw [bits_eq, Stack.length_bits, index_eq]

theorem bits_of_flushed {w : BitWriter} {output : List UInt8} (h : w.bitsInPartial = 0)
    (hout : w.output = output) : w.bits = bytesBits output := by
  rw [bits, h, hout]
  exact List.append_nil _

theorem bits_ofOutput (output : List UInt8) : (ofOutput output).bits = bytesBits output := by
  rw [bits_eq, ofOutput_toStack, Stack.bits_ofBytes]

section Patch

variable {i r n bits : Nat}

theorem testBit_ofNat {x : Nat} (hi : i < 8) : (UInt8.ofNat x).toNat.testBit i = x.testBit i := by
  rw [UInt8.toNat_ofNat', Nat.testBit_mod_two_pow, decide_eq_true hi, Bool.true_and]

/-- The byte a field ends in keeps its high bits. -/
theorem testBit_last {b : Nat} (hbits : bits < 2 ^ n) (hi : i < 8) :
    ((b &&& 0xFF <<< n % 256) ||| bits % 256).testBit i =
      if i < n then bits.testBit i else b.testBit i := by
  have hmask : (0xFF <<< n % 2 ^ 8).testBit i = decide (n ≤ i) := by
    have hones : (2 ^ 8 - 1).testBit (i - n) = true := by
      rw [Nat.testBit_two_pow_sub_one]
      exact decide_eq_true (by omega)
    rw [Nat.testBit_mod_two_pow, Nat.testBit_shiftLeft, decide_eq_true hi, Bool.true_and]
    exact (congrArg (decide (n ≤ i) && ·) hones).trans (Bool.and_true _)
  have hlow : (bits % 2 ^ 8).testBit i = bits.testBit i := by
    rw [Nat.testBit_mod_two_pow, decide_eq_true hi, Bool.true_and]
  change ((b &&& 0xFF <<< n % 2 ^ 8) ||| bits % 2 ^ 8).testBit i = _
  rw [Nat.testBit_or, Nat.testBit_and, hmask, hlow]
  split
  · rename_i hin
    rw [decide_eq_false (Nat.not_le.mpr hin), Bool.and_false, Bool.false_or]
  · rename_i hout
    have hpow : 2 ^ n ≤ 2 ^ i := Nat.pow_le_pow_right (by decide) (Nat.le_of_not_lt hout)
    rw [decide_eq_true (Nat.le_of_not_lt hout), Nat.testBit_lt_two_pow (hbits.trans_le hpow),
      Bool.and_true, Bool.or_false]

/-- The byte a field starts in keeps its low bits. -/
theorem testBit_first {b : Nat} (hr : r ≤ 8) (hi : i < 8) :
    ((b &&& 0xFF >>> (8 - r)) ||| bits <<< r % 256).testBit i =
      if i < r then b.testBit i else bits.testBit (i - r) := by
  have hmask : (0xFF >>> (8 - r)).testBit i = decide (i < r) := by
    have hpow : 0xFF >>> (8 - r) = 2 ^ r - 1 := by
      interval_cases r <;> rfl
    rw [hpow, Nat.testBit_two_pow_sub_one]
  have hfield : (bits <<< r % 2 ^ 8).testBit i = (decide (r ≤ i) && bits.testBit (i - r)) := by
    rw [Nat.testBit_mod_two_pow, Nat.testBit_shiftLeft, decide_eq_true hi, Bool.true_and]
  change ((b &&& 0xFF >>> (8 - r)) ||| bits <<< r % 2 ^ 8).testBit i = _
  rw [Nat.testBit_or, Nat.testBit_and, hmask, hfield]
  split
  · rename_i hin
    rw [decide_eq_true hin, decide_eq_false (Nat.not_le.mpr hin), Bool.and_true, Bool.false_and,
      Bool.or_false]
  · rename_i hout
    rw [decide_eq_false hout, decide_eq_true (Nat.le_of_not_lt hout), Bool.and_false,
      Bool.false_or, Bool.true_and]

/-- Whole bytes and the low bits of one more are those of the field. -/
theorem bitAt_patchBytes (k : Nat) {output : List UInt8} {idx numBits : Nat}
    (hk : numBits / 8 = k) (hbits : bits < 2 ^ numBits)
    (hend : 8 * idx + numBits ≤ 8 * output.length) (i : Nat) :
    Bits.bitAt (patchBytes k output idx bits numBits) i =
      if 8 * idx ≤ i ∧ i < 8 * idx + numBits then bits.testBit (i - 8 * idx)
      else Bits.bitAt output i := by
  induction k generalizing output idx bits numBits with
  | zero =>
    rw [patchBytes]
    split
    · rename_i hsome
      rw [bitAt_set (by omega), testBit_ofNat (Nat.mod_lt i (by decide)),
        testBit_last hbits (Nat.mod_lt i (by decide))]
      split
      · rename_i hbyte
        have hplace : i - 8 * idx = i % 8 := by omega
        have hin : (8 * idx ≤ i ∧ i < 8 * idx + numBits) ↔ i % 8 < numBits := by omega
        simp only [hin, hplace, Bits.bitAt, hbyte]
      · rw [if_neg (by omega)]
    · rw [if_neg (by omega)]
  | succ k ih =>
    have hrest : bits >>> 8 < 2 ^ (numBits - 8) := by
      rw [Nat.shiftRight_eq_div_pow, Nat.div_lt_iff_lt_mul (by positivity), ← Nat.pow_add,
        Nat.sub_add_cancel (by omega)]
      exact hbits
    rw [patchBytes, ih (by omega) hrest (by rw [List.length_set]; omega),
      bitAt_set (by omega), testBit_ofNat (Nat.mod_lt i (by decide))]
    split_ifs with habove hall hbyte hin hin
    · rw [Nat.testBit_shiftRight]
      congr 1
      omega
    · omega
    · congr 1
      omega
    · omega
    · omega
    · rfl

/-- A field that does not start and end inside one byte replaces the bits in its place. -/
theorem patchBits_overwrites {output : List UInt8} {idx numBits : Nat} (hbits : bits < 2 ^ numBits)
    (hend : idx + numBits ≤ 8 * output.length) (hbyte : idx % 8 = 0 ∨ 8 ≤ idx % 8 + numBits) :
    ∃ patched, patchBits output idx bits numBits = some patched ∧
      bytesBits patched = Circular.overwrite (bytesBits output) idx (bitList numBits bits) := by
  unfold patchBits
  split
  · rename_i hmid
    have hshort : ¬numBits < 8 - idx % 8 := by omega
    have hback : 8 - (8 - idx % 8) = idx % 8 := by omega
    simp only [if_neg hshort, hback]
    refine ⟨_, rfl, ?_⟩
    have hrest : bits >>> (8 - idx % 8) < 2 ^ (numBits - (8 - idx % 8)) := by
      rw [Nat.shiftRight_eq_div_pow, Nat.div_lt_iff_lt_mul (by positivity), ← Nat.pow_add,
        Nat.sub_add_cancel (Nat.le_of_not_lt hshort)]
      exact hbits
    apply bytesBits_overwrite
    · rw [patchBytes_length, List.length_set]
    · exact hend
    · intro i _
      rw [bitAt_patchBytes _ rfl hrest (by rw [List.length_set]; omega),
        bitAt_set (by omega), testBit_ofNat (Nat.mod_lt i (by decide)),
        testBit_first (by omega) (Nat.mod_lt i (by decide))]
      split_ifs with habove hin hfirst hlow hin hin hin
      · rw [Nat.testBit_shiftRight]
        congr 1
        omega
      · omega
      · omega
      · simp only [Bits.bitAt, hfirst]
      · congr 1
        omega
      · omega
      · omega
      · rfl
  · rename_i haligned
    have hzero : idx % 8 = 0 := by omega
    refine ⟨_, rfl, ?_⟩
    apply bytesBits_overwrite
    · exact patchBytes_length ..
    · exact hend
    · intro i _
      rw [bitAt_patchBytes _ rfl hbits (by omega), show 8 * (idx / 8) = idx by omega]

end Patch

/-- A flushed writer holds the bits it held, all of them in its output. -/
theorem flush_bits {w : BitWriter} (h : w.index % 8 = 0) :
    ∃ w', w.flush = some w' ∧ w'.bitsInPartial = 0 ∧ w'.bits = w.bits ∧
      bytesBits w'.output = w.bits := by
  obtain ⟨w', hflush, hbytes, hzero⟩ := flush_aligned h
  have hout : bytesBits w'.output = w.bits := by
    rw [← Stack.bits_ofBytes, hbytes, bits_eq]
  exact ⟨w', hflush, hzero, (bits_of_flushed hzero rfl).trans hout, hout⟩

/-- Writers that hold the same whole bytes flush to the same writer. -/
theorem flush_eq {w w' : BitWriter} (h : w.index % 8 = 0) (hbits : w.bits = w'.bits) :
    w.flush = w'.flush := by
  have h' : w'.index % 8 = 0 := by
    rw [← length_bits, ← hbits, length_bits]
    exact h
  obtain ⟨v, hv, hzero, -, hout⟩ := flush_bits h
  obtain ⟨v', hv', hzero', -, hout'⟩ := flush_bits h'
  rw [hv, hv', eq_ofOutput hzero, eq_ofOutput hzero',
    bytesBits_injective (hout.trans (hbits.trans hout'.symm))]

theorem changeBits_bits {w : BitWriter} {idx value n : Nat} (hvalue : value < 2 ^ n)
    (h : w.index % 8 = 0) (hend : idx + n < w.index) (hbyte : idx % 8 = 0 ∨ 8 ≤ idx % 8 + n) :
    ∃ w', w.changeBits idx value n = some w' ∧
      w'.bits = Circular.overwrite w.bits idx (bitList n value) := by
  obtain ⟨v, hflush, hzero, hv, hout⟩ := flush_bits h
  have hindex : v.index = w.index := by
    rw [← length_bits, hv, length_bits]
  have hlen : 8 * v.output.length = w.index := by
    rw [← hindex, index, hzero, v.idx_eq, Nat.add_zero]
  obtain ⟨patched, hpatch, hbits⟩ := patchBits_overwrites hvalue
    (show idx + n ≤ 8 * v.output.length by omega) hbyte
  simp only [changeBits, hflush, Option.bind_eq_bind, Option.bind_some]
  rw [if_neg (by omega), if_neg (by omega)]
  split
  · rename_i hnone
    cases hpatch.symm.trans hnone
  · rename_i output hsome
    cases hpatch.symm.trans hsome
    refine ⟨_, rfl, ?_⟩
    rw [← hout, ← hbits]
    exact bits_of_flushed hzero rfl

theorem appendBytes_bits {w : BitWriter} (h : w.index % 8 = 0) (data : List UInt8) :
    ∃ w', w.appendBytes data = some w' ∧ w'.bits = w.bits ++ bytesBits data := by
  obtain ⟨v, hflush, hzero, -, hout⟩ := flush_bits h
  have haligned : w.misaligned = 0 := if_pos h
  simp only [appendBytes, haligned, hflush, ne_eq, not_true_eq_false, if_false,
    Option.bind_eq_bind, Option.bind_some]
  refine ⟨_, rfl, ?_⟩
  rw [← hout, ← bytesBits_append]
  exact bits_of_flushed hzero rfl

theorem writeBits_bits (w : BitWriter) {value n : Nat} (hvalue : value < 2 ^ n) (hn : n ≤ 64) :
    ∃ w', w.writeBits value n = some w' ∧ w'.bits = w.bits ++ bitList n value := by
  obtain ⟨w', hwrite, hstack⟩ := w.writeBits_spec hvalue hn
  refine ⟨w', hwrite, ?_⟩
  rw [bits_eq, hstack, Stack.bits_push, ← bits_eq]

end BitWriter

/-- A step of a burst. -/
inductive BurstOp where
  | add (value n : Nat)
  | flush
deriving Repr, DecidableEq

/-- A step of a writer, a burst being one that is started and finished. -/
inductive WriterOp where
  | writeBits (value n : Nat)
  | appendBytes (data : List UInt8)
  | flush
  | burst (maxBytes : Nat) (ops : List BurstOp)
  | changeBits (idx value n : Nat)
deriving Repr, DecidableEq

namespace BurstOp

def exec : BurstOp → BitBurst → Option BitBurst
  | add value n, b => b.add value n
  | flush, b => b.flush

def run : List BurstOp → BitBurst → Option BitBurst
  | [], b => some b
  | op :: ops, b => (op.exec b).bind (run ops)

/-- The steps keep to the budget: what is added leaves a bit of the accumulator free, and a flush
starts within the bytes that may be committed. -/
def Within (maxBytes : Nat) : Nat → Nat → List BurstOp → Prop
  | _, _, [] => True
  | committed, held, add value n :: ops =>
    value < 2 ^ n ∧ held + n < 64 ∧ Within maxBytes committed (held + n) ops
  | committed, held, flush :: ops =>
    committed ≤ maxBytes ∧ Within maxBytes (committed + held / 8) (held % 8) ops

/-- The fields of a burst. -/
def fields : List BurstOp → List (Nat × Nat)
  | [] => []
  | add value n :: ops => (value, n) :: fields ops
  | flush :: ops => fields ops

theorem Within.fields {maxBytes committed held : Nat} {ops : List BurstOp}
    (h : Within maxBytes committed held ops) : ∀ f ∈ fields ops, f.1 < 2 ^ f.2 ∧ f.2 ≤ 64 := by
  induction ops generalizing committed held with
  | nil =>
    intro f hf
    cases hf
  | cons op ops ih =>
    cases op with
    | add value n =>
      obtain ⟨hvalue, hroom, hrest⟩ := h
      intro f hf
      rcases List.mem_cons.mp hf with rfl | hf
      · exact ⟨hvalue, by omega⟩
      · exact ih hrest f hf
    | flush => exact ih h.2

/-- Within its budget a burst pushes its fields. -/
theorem run_spec (ops : List BurstOp) (b : BitBurst) {start maxBytes committed held : Nat}
    (hlimit : b.limit = start + (maxBytes + 8)) (hout : b.output.length = start + committed)
    (hheld : b.bitsInPartial = held) (h : Within maxBytes committed held ops) :
    ∃ b', run ops b = some b' ∧ b'.toStack = b.toStack.pushAll (fields ops) := by
  induction ops generalizing b committed held with
  | nil => exact ⟨b, rfl, rfl⟩
  | cons op ops ih =>
    cases op with
    | add value n =>
      obtain ⟨hvalue, hroom, hrest⟩ := h
      obtain ⟨b₁, hadd, hstack, hbits, houtput, hlimit₁⟩ := b.add_spec hvalue (by rwa [hheld])
      obtain ⟨b', hrun, hpushed⟩ := ih b₁ (hlimit₁.trans hlimit) (by rw [houtput, hout])
        (by rw [hbits, hheld]) hrest
      refine ⟨b', ?_, ?_⟩
      · rw [run, exec, hadd]
        exact hrun
      · rw [hpushed, hstack]
        rfl
    | flush =>
      obtain ⟨hroom, hrest⟩ := h
      obtain ⟨b₁, hflush, hstack, hbits, hlimit₁⟩ := b.flush_spec (by omega)
      have hlen : 8 * b₁.output.length + b₁.bitsInPartial =
          8 * b.output.length + b.bitsInPartial := congrArg Stack.len hstack
      obtain ⟨b', hrun, hpushed⟩ := ih b₁ (hlimit₁.trans hlimit) (by omega) (by omega) hrest
      refine ⟨b', ?_, ?_⟩
      · rw [run, exec, hflush]
        exact hrun
      · rw [hpushed, hstack]
        rfl

end BurstOp

/-- The bits of fields, one after the other. -/
def fieldBits (fields : List (Nat × Nat)) : List Bool := fields.flatMap fun f => bitList f.2 f.1

theorem bits_pushAll (s : Stack) (fields : List (Nat × Nat)) :
    (s.pushAll fields).bits = s.bits ++ fieldBits fields := by
  induction fields generalizing s with
  | nil => exact (List.append_nil _).symm
  | cons f fields ih =>
    rw [Stack.pushAll_cons, ih, Stack.bits_push, List.append_assoc]
    rfl

namespace WriterOp

def exec : WriterOp → BitWriter → Option BitWriter
  | writeBits value n, w => w.writeBits value n
  | appendBytes data, w => w.appendBytes data
  | flush, w => w.flush
  | burst maxBytes ops, w =>
    (w.burst maxBytes).bind fun b => (BurstOp.run ops b).map BitBurst.finish
  | changeBits idx value n, w => w.changeBits idx value n

/-- What the step asks of its caller: clean fields, whole bytes before a flush, a burst within its
budget, and a change that ends before the last bit and not in the byte it starts in the middle of. -/
def Allowed : WriterOp → BitWriter → Prop
  | writeBits value n, _ => n ≤ 64 ∧ value < 2 ^ n
  | appendBytes _, w => w.index % 8 = 0
  | flush, w => w.index % 8 = 0
  | burst maxBytes ops, w =>
    BurstOp.Within maxBytes (w.bitsInPartial / 8) (w.bitsInPartial % 8) ops
  | changeBits idx value n, w =>
    value < 2 ^ n ∧ w.index % 8 = 0 ∧ idx + n < w.index ∧ (idx % 8 = 0 ∨ 8 ≤ idx % 8 + n)

/-- What the step does to the list of bits. -/
def effect : WriterOp → List Bool → List Bool
  | writeBits value n, bits => bits ++ bitList n value
  | appendBytes data, bits => bits ++ bytesBits data
  | flush, bits => bits
  | burst _ ops, bits => bits ++ fieldBits (BurstOp.fields ops)
  | changeBits idx value n, bits => Circular.overwrite bits idx (bitList n value)

theorem exec_spec {op : WriterOp} {w : BitWriter} (h : op.Allowed w) :
    ∃ w', op.exec w = some w' ∧ w'.bits = op.effect w.bits := by
  cases op with
  | writeBits value n => exact w.writeBits_bits h.2 h.1
  | appendBytes data => exact BitWriter.appendBytes_bits h data
  | flush =>
    obtain ⟨w', hflush, -, hbits, -⟩ := BitWriter.flush_bits h
    exact ⟨w', hflush, hbits⟩
  | burst maxBytes ops =>
    obtain ⟨b, hburst, hstack, hheld, hlimit⟩ := w.burst_spec maxBytes
    have hlen : 8 * b.output.length + b.bitsInPartial = 8 * w.output.length + w.bitsInPartial :=
      congrArg Stack.len hstack
    obtain ⟨b', hrun, hpushed⟩ := BurstOp.run_spec ops b hlimit
      (show b.output.length = w.output.length + w.bitsInPartial / 8 by omega)
      (show b.bitsInPartial = w.bitsInPartial % 8 by omega) h
    refine ⟨b'.finish, ?_, ?_⟩
    · simp only [exec, hburst, Option.bind_some, hrun, Option.map_some]
    · rw [BitWriter.bits_eq, BitBurst.finish_toStack, hpushed, hstack, bits_pushAll,
        ← BitWriter.bits_eq]
      rfl
  | changeBits idx value n =>
    obtain ⟨hvalue, haligned, hend, hbyte⟩ := h
    exact BitWriter.changeBits_bits hvalue haligned hend hbyte

def run : List WriterOp → BitWriter → Option BitWriter
  | [], w => some w
  | op :: ops, w => (op.exec w).bind (run ops)

/-- Every step of the run is allowed where it is taken. -/
def AllowedRun : List WriterOp → BitWriter → Prop
  | [], _ => True
  | op :: ops, w => op.Allowed w ∧ ∀ w', op.exec w = some w' → AllowedRun ops w'

theorem run_bits (ops : List WriterOp) {w : BitWriter} (h : AllowedRun ops w) :
    ∃ w', run ops w = some w' ∧ w'.bits = ops.foldl (fun bits op => op.effect bits) w.bits := by
  induction ops generalizing w with
  | nil => exact ⟨w, rfl, rfl⟩
  | cons op ops ih =>
    obtain ⟨hop, hrest⟩ := h
    obtain ⟨w₁, hexec, hbits⟩ := exec_spec hop
    obtain ⟨w', hrun, hbits'⟩ := ih (hrest w₁ hexec)
    refine ⟨w', ?_, ?_⟩
    · rw [run, hexec]
      exact hrun
    · rw [hbits', hbits, List.foldl_cons]

theorem run_writes (fields : List (Nat × Nat)) (w : BitWriter)
    (h : ∀ f ∈ fields, f.1 < 2 ^ f.2 ∧ f.2 ≤ 64) :
    ∃ w', run (fields.map fun f => writeBits f.1 f.2) w = some w' ∧
      w'.bits = w.bits ++ fieldBits fields := by
  induction fields generalizing w with
  | nil => exact ⟨w, rfl, (List.append_nil _).symm⟩
  | cons f fields ih =>
    obtain ⟨hvalue, hn⟩ := h f List.mem_cons_self
    obtain ⟨w₁, hwrite, hbits⟩ := w.writeBits_bits hvalue hn
    obtain ⟨w', hrun, hbits'⟩ := ih w₁ fun g hg => h g (List.mem_cons_of_mem f hg)
    refine ⟨w', ?_, ?_⟩
    · rw [List.map_cons, run, exec, hwrite]
      exact hrun
    · rw [hbits', hbits, List.append_assoc]
      rfl

/-- The writer is the list of its bits, the oldest in the low bit of the first byte: whatever is
written in whichever way goes behind it, a change replaces the bits in its place, and a burst leaves
the bytes its fields leave one by one. -/
theorem writer_is_bit_list (start : List UInt8) (ops : List WriterOp)
    (h : AllowedRun ops (BitWriter.ofOutput start)) :
    ∃ w, run ops (BitWriter.ofOutput start) = some w ∧
      w.bits = ops.foldl (fun bits op => op.effect bits) (bytesBits start) ∧
      (w.index % 8 = 0 → ∃ w', w.flush = some w' ∧ w'.bitsInPartial = 0 ∧
        bytesBits w'.output = ops.foldl (fun bits op => op.effect bits) (bytesBits start)) ∧
      ∀ maxBytes burstOps, Allowed (burst maxBytes burstOps) w →
        ∃ w₁ w₂, exec (burst maxBytes burstOps) w = some w₁ ∧
          run ((BurstOp.fields burstOps).map fun f => writeBits f.1 f.2) w = some w₂ ∧
          w₁.bits = w₂.bits ∧ (w₁.index % 8 = 0 → w₁.flush = w₂.flush) := by
  obtain ⟨w, hrun, hbits⟩ := run_bits ops h
  rw [BitWriter.bits_ofOutput] at hbits
  refine ⟨w, hrun, hbits, ?_, ?_⟩
  · intro haligned
    obtain ⟨w', hflush, hzero, -, hout⟩ := BitWriter.flush_bits haligned
    exact ⟨w', hflush, hzero, hout.trans hbits⟩
  · intro maxBytes burstOps hburst
    obtain ⟨w₁, hexec, hbits₁⟩ := exec_spec hburst
    obtain ⟨w₂, hwrites, hbits₂⟩ := run_writes (BurstOp.fields burstOps) w hburst.fields
    have hsame : w₁.bits = w₂.bits := hbits₁.trans hbits₂.symm
    exact ⟨w₁, w₂, hexec, hwrites, hsame, fun haligned => BitWriter.flush_eq haligned hsame⟩

/-- Three bits, a burst, a byte boundary, a change across it and two bytes behind. -/
theorem writer_is_bit_list_mixed :
    ∃ w, run [writeBits 5 3, burst 2 [.add 9 4, .add 300 9, .flush], flush, changeBits 6 31 9,
        appendBytes [7, 8]] (BitWriter.ofOutput []) = some w ∧
      w.bits = [true, false, true, true, false, false, true, true, true, true, true, false, false,
        false, false, true] ++ bytesBits [7, 8] := by
  have hallowed : AllowedRun [writeBits 5 3, burst 2 [.add 9 4, .add 300 9, .flush], flush,
      changeBits 6 31 9, appendBytes [7, 8]] (BitWriter.ofOutput []) := by
    refine ⟨⟨by decide, by decide⟩, ?_⟩
    rintro w ⟨⟩
    refine ⟨⟨by decide, by decide, by decide, by decide, by decide, trivial⟩, ?_⟩
    rintro w ⟨⟩
    refine ⟨show _ % 8 = 0 from rfl, ?_⟩
    rintro w ⟨⟩
    refine ⟨⟨by decide, rfl, by decide, .inr (by decide)⟩, ?_⟩
    rintro w ⟨⟩
    exact ⟨show _ % 8 = 0 from rfl, fun _ _ => trivial⟩
  obtain ⟨w, hrun, hbits, -, -⟩ := writer_is_bit_list [] _ hallowed
  exact ⟨w, hrun, hbits.trans (by decide)⟩

/-- Bits that were written, and cannot be changed: some inside one byte, and the last of all. -/
theorem changeBits_refuses :
    (BitWriter.ofOutput [255, 255]).changeBits 1 0 3 = none ∧
      (BitWriter.ofOutput [255, 255]).changeBits 8 0 8 = none := by
  constructor <;> rfl

end WriterOp

end BitIo
