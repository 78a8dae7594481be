import Mathlib.Tactic.IntervalCases
import StructuredZstd.BitIo.BitWriter

namespace BitIo.BitWriter

open Bits

/-- Overwrite whole bytes, then the low bits of one more that the field ends in. -/
def patchBytes : Nat → List UInt8 → Nat → Nat → Nat → List UInt8
  | 0, output, idx, bits, numBits =>
    if 0 < numBits then
      let kept := (output.getD idx 0).toNat &&& 0xFF <<< numBits % 256
      output.set idx (UInt8.ofNat (kept ||| bits % 256))
    else output
  | k + 1, output, idx, bits, numBits =>
    patchBytes k (output.set idx (UInt8.ofNat bits)) (idx + 1) (bits >>> 8) (numBits - 8)

/-- Overwrite a field from a bit index on; one inside a single byte panics. -/
def patchBits (output : List UInt8) (idx bits numBits : Nat) : Option (List UInt8) :=
  if idx % 8 ≠ 0 then
    let bitsInFirstByte := 8 - idx % 8
    if numBits < bitsInFirstByte then none
    else
      let kept := (output.getD (idx / 8) 0).toNat &&& 0xFF >>> bitsInFirstByte
      let newBits := bits <<< (8 - bitsInFirstByte) % 256
      let output := output.set (idx / 8) (UInt8.ofNat (kept ||| newBits))
      let left := numBits - bitsInFirstByte
      some (patchBytes (left / 8) output (idx / 8 + 1) (bits >>> bitsInFirstByte) left)
  else some (patchBytes (numBits / 8) output (idx / 8) bits numBits)

theorem patchBytes_length (k : Nat) (output : List UInt8) (idx bits numBits : Nat) :
    (patchBytes k output idx bits numBits).length = output.length := by
  induction k generalizing output idx bits numBits with
  | zero =>
    simp only [patchBytes]
    split
    · exact List.length_set
    · rfl
  | succ k ih => rw [patchBytes, ih, List.length_set]

theorem patchBits_length {output patched : List UInt8} {idx bits numBits : Nat}
    (h : patchBits output idx bits numBits = some patched) : patched.length = output.length := by
  simp only [patchBits] at h
  split at h
  · split at h
    · cases h
    · cases h
      rw [patchBytes_length, List.length_set]
  · cases h
    exact patchBytes_length _ _ _ _ _

/-- Change a field that was written before; it must end below what is written. -/
def changeBits (w : BitWriter) (idx bits numBits : Nat) : Option BitWriter := do
  let w ← w.flush
  if w.index ≤ idx + numBits then none
  if w.index - (idx + numBits) ≤ w.bitsInPartial then none
  match h : patchBits w.output idx bits numBits with
  | none => none
  | some output =>
    some { w with
      output := output
      idx_eq := by rw [patchBits_length h, w.idx_eq] }

/-- Forget what was written from a byte on. -/
def resetTo (index : Nat) (w : BitWriter) : Option BitWriter :=
  if index % 8 = 0 then
    some (ofOutput (w.output.take (index / 8) ++
      List.replicate (index / 8 - w.output.length) 0))
  else none

/-- Bytes that a stream of its own appends behind whole bytes. -/
def withAlignedOutput (w : BitWriter) (data : List UInt8) : Option BitWriter := do
  let w' ← w.flush
  some { w' with
    output := w'.output ++ data
    bitIdx := w'.bitIdx + data.length * 8
    idx_eq := w'.idx_eq_append data }

/-- The writer holds these bytes, the last of them perhaps still in its accumulator. -/
def Full (w : BitWriter) (bytes : List UInt8) : Prop := w.toStack = Stack.ofBytes bytes

variable {w : BitWriter} {bytes : List UInt8}

theorem full_ofOutput (bytes : List UInt8) : (ofOutput bytes).Full bytes := ofOutput_toStack bytes

theorem Full.index_eq (h : w.Full bytes) : w.index = 8 * bytes.length := by
  rw [BitWriter.index_eq, h, Stack.ofBytes_len]

theorem Full.aligned (h : w.Full bytes) : w.index % 8 = 0 := by
  rw [h.index_eq, Nat.mul_mod_right]

theorem Full.misaligned (h : w.Full bytes) : w.misaligned = 0 := if_pos h.aligned

/-- A flushed writer is the writer of its output. -/
theorem eq_ofOutput {w : BitWriter} (h : w.bitsInPartial = 0) : w = ofOutput w.output := by
  obtain ⟨output, held, bitsInPartial, bitIdx, _, hheld, hidx⟩ := w
  cases h
  have : held = 0 := Nat.lt_one_iff.mp hheld
  cases this
  cases hidx
  rfl

theorem Full.flush (h : w.Full bytes) : w.flush = some (ofOutput bytes) := by
  obtain ⟨w', hw', hst, h0⟩ := flush_aligned h.aligned
  have hlen : w'.output.length = bytes.length := by
    have := congrArg Stack.len (hst.trans h)
    simp only [Stack.ofBytes_len] at this
    exact Nat.eq_of_mul_eq_mul_left (by decide) this
  have hout : w'.output = bytes := le_injective hlen (congrArg Stack.value (hst.trans h))
  rw [hw', eq_ofOutput h0, hout]

theorem Full.appendBytes (h : w.Full bytes) (data : List UInt8) :
    ∃ w', w.appendBytes data = some w' ∧ w'.Full (bytes ++ data) := by
  refine ⟨_, ?_, full_ofOutput _⟩
  simp only [BitWriter.appendBytes, h.misaligned, h.flush, ne_eq, not_true_eq_false, if_false]
  exact congrArg some (eq_ofOutput rfl)

theorem Full.withAlignedOutput (h : w.Full bytes) (data : List UInt8) :
    ∃ w', w.withAlignedOutput data = some w' ∧ w'.Full (bytes ++ data) := by
  refine ⟨_, ?_, full_ofOutput _⟩
  simp only [BitWriter.withAlignedOutput, h.flush]
  exact congrArg some (eq_ofOutput rfl)

theorem resetTo_ofOutput (before after : List UInt8) :
    (ofOutput (before ++ after)).resetTo (8 * before.length) = some (ofOutput before) := by
  simp [resetTo, ofOutput]

/-- Clean fields that end on a byte boundary are whole bytes. -/
theorem Full.writes {fields : List (Nat × Nat)} {r : Option BitWriter} (h : w.Full bytes)
    (hw : w.Writes fields r) (h8 : (fields.map Prod.snd).sum % 8 = 0) :
    ∃ w' more, r = some w' ∧ w'.Full (bytes ++ more) ∧
      Stack.ofBytes more = Stack.empty.pushAll fields := by
  obtain ⟨w', hr, hst⟩ := hw
  have hal : w'.index % 8 = 0 := by
    rw [BitWriter.index_eq, hst, Stack.pushAll_len, ← BitWriter.index_eq]
    have := h.aligned
    omega
  obtain ⟨w'', -, hst'', -⟩ := flush_aligned hal
  have hon : Stack.ofBytes w''.output = (Stack.ofBytes bytes).on (Stack.empty.pushAll fields) := by
    rw [hst'', hst, h, Stack.on_pushAll, Stack.on_empty]
  obtain ⟨more, hmore, hfields⟩ := Stack.ofBytes_eq_on hon
  refine ⟨w', more, hr, ?_, hfields⟩
  rw [Full, ← hst'', hmore]

/-- Bytes in the low part of a list are told by their value. -/
theorem eq_toLeBytes {more : List UInt8} {k v : Nat} (hlen : more.length = k)
    (hval : le more = v) (hv : v < 2 ^ (8 * k)) : more = toLeBytes k v := by
  apply le_injective
  · rw [hlen, toLeBytes_length]
  · rw [hval, le_toLeBytes, Nat.mod_eq_of_lt hv]

section Patch

/-- Whole bytes are replaced by those of the field. -/
theorem patchBytes_whole (before old after : List UInt8) (bits : Nat) :
    patchBytes old.length (before ++ old ++ after) before.length bits (8 * old.length) =
      before ++ toLeBytes old.length bits ++ after := by
  induction old generalizing before bits with
  | nil => simp [patchBytes, toLeBytes]
  | cons b old ih =>
    have hset : (before ++ b :: old ++ after).set before.length (UInt8.ofNat bits) =
        (before ++ [UInt8.ofNat bits]) ++ old ++ after := by simp
    have hlen : before.length + 1 = (before ++ [UInt8.ofNat bits]).length := by simp
    have hbits : 8 * (old.length + 1) - 8 = 8 * old.length := by omega
    rw [List.length_cons, patchBytes, hset, hlen, hbits, ih, Nat.shiftRight_eq_div_pow]
    simp [toLeBytes]

/-- The byte a field starts in keeps its low bits. -/
theorem patch_first {b r bits : Nat} (hb : b < 2 ^ r) (hr : r ≤ 8) :
    (b &&& 0xFF >>> (8 - r)) ||| bits <<< r % 256 = b + bits % 2 ^ (8 - r) * 2 ^ r := by
  have hmask : 0xFF >>> (8 - r) = 2 ^ r - 1 := by
    interval_cases r <;> rfl
  have hpow : 256 = 2 ^ (8 - r) * 2 ^ r := by
    rw [← Nat.pow_add, Nat.sub_add_cancel hr]
  have hnew : bits <<< r % 256 = (bits % 2 ^ (8 - r)) <<< r := by
    rw [Nat.shiftLeft_eq, Nat.shiftLeft_eq, hpow, Nat.mul_mod_mul_right]
  rw [hmask, Nat.and_two_pow_sub_one_eq_mod, Nat.mod_eq_of_lt hb, hnew, lor_shiftLeft _ hb]

theorem getD_middle (lead : List UInt8) (b : UInt8) (mid after : List UInt8) :
    (lead ++ b :: mid ++ after).getD lead.length 0 = b := by simp

theorem set_middle (lead : List UInt8) (b c : UInt8) (mid after : List UInt8) :
    (lead ++ b :: mid ++ after).set lead.length c = lead ++ [c] ++ mid ++ after := by simp

/-- A field at the end of some bytes, nothing but zeros above it, is filled in; an oversized value
changes no byte outside the field's. -/
theorem patchBits_spec {before bytes after : List UInt8} {idx numBits : Nat} (bits : Nat)
    (hend : idx + numBits = 8 * bytes.length) (h8 : 8 ≤ numBits) (hzero : le bytes < 2 ^ idx) :
    ∃ patched, patchBits (before ++ bytes ++ after) (8 * before.length + idx) bits numBits =
        some (before ++ patched ++ after) ∧ patched.length = bytes.length ∧
      (bits < 2 ^ numBits → le patched = le bytes + bits * 2 ^ idx) := by
  obtain ⟨q, r, hidx, hr⟩ : ∃ q r, idx = 8 * q + r ∧ r < 8 :=
    ⟨idx / 8, idx % 8, (Nat.div_add_mod idx 8).symm, Nat.mod_lt _ (by decide)⟩
  have hq : (bytes.take q).length = q := by
    rw [List.length_take]
    omega
  have hmod : (8 * before.length + idx) % 8 = r := by omega
  have hdiv : (8 * before.length + idx) / 8 = before.length + q := by omega
  have hlow : le bytes = le (bytes.take q) + le (bytes.drop q) * 2 ^ (8 * q) := by
    conv_lhs => rw [← List.take_append_drop q bytes, le_append, hq]
  have hhigh : le (bytes.drop q) < 2 ^ r := by
    rw [le_drop, Nat.div_lt_iff_lt_mul (by positivity), ← Nat.pow_add, Nat.add_comm r, ← hidx]
    exact hzero
  have hsplit : before ++ bytes ++ after = (before ++ bytes.take q) ++ bytes.drop q ++ after := by
    rw [List.append_assoc before (bytes.take q), List.take_append_drop]
  have hplace : before.length + q = (before ++ bytes.take q).length := by
    rw [List.length_append, hq]
  have hdroplen : (bytes.drop q).length = bytes.length - q := List.length_drop
  rw [patchBits, hmod, hdiv, hsplit]
  rcases Nat.eq_zero_or_pos r with hr0 | hrpos
  · have hlen : numBits = 8 * (bytes.drop q).length := by omega
    have hk : numBits / 8 = (bytes.drop q).length := by omega
    have hold : le (bytes.drop q) = 0 := by
      rw [hr0] at hhigh
      omega
    refine ⟨bytes.take q ++ toLeBytes (bytes.drop q).length bits, ?_, ?_, ?_⟩
    · rw [if_neg (not_not_intro hr0), hk, hplace, hlen, patchBytes_whole]
      simp
    · rw [List.length_append, toLeBytes_length, hq]
      omega
    · intro hbits
      rw [le_append, hq, le_toLeBytes, ← hlen, Nat.mod_eq_of_lt hbits, hlow, hold, hidx, hr0]
      simp
  · obtain ⟨b, mid, hbmid⟩ : ∃ b mid, bytes.drop q = b :: mid := by
      cases hd : bytes.drop q with
      | nil =>
        rw [hd] at hdroplen
        simp only [List.length_nil] at hdroplen
        omega
      | cons b mid => exact ⟨b, mid, rfl⟩
    rw [hbmid] at hhigh hdroplen hlow ⊢
    rw [List.length_cons] at hdroplen
    rw [le] at hhigh hlow
    have hmid : le mid = 0 := by
      have : 2 ^ r ≤ 2 ^ 7 := Nat.pow_le_pow_right (by decide) (by omega)
      omega
    have hb : b.toNat < 2 ^ r := by omega
    have hfirst : 8 - (8 - r) = r := by omega
    have hleft : numBits - (8 - r) = 8 * mid.length := by omega
    have hnext : ∀ c : UInt8, (before ++ bytes.take q).length + 1 =
        ((before ++ bytes.take q) ++ [c]).length := fun c => by
      rw [List.length_append, List.length_append, List.length_append, List.length_singleton]
    have hk : 8 * mid.length / 8 = mid.length := by omega
    rw [if_pos (by omega), if_neg (by omega)]
    simp only [hplace, getD_middle, set_middle, hfirst, hleft, hk, patch_first hb hr.le]
    rw [hnext, patchBytes_whole]
    refine ⟨bytes.take q ++ [UInt8.ofNat (b.toNat + bits % 2 ^ (8 - r) * 2 ^ r)] ++
      toLeBytes mid.length (bits >>> (8 - r)), ?_, ?_, ?_⟩
    · simp
    · simp only [List.length_append, List.length_singleton, toLeBytes_length, hq]
      omega
    · intro hbits
      have hbyte : b.toNat + bits % 2 ^ (8 - r) * 2 ^ r < 256 := by
        have h256 : 256 = 2 ^ (8 - r) * 2 ^ r := by
          rw [← Nat.pow_add, Nat.sub_add_cancel hr.le]
        have hlt : bits % 2 ^ (8 - r) < 2 ^ (8 - r) := Nat.mod_lt _ (by positivity)
        calc b.toNat + bits % 2 ^ (8 - r) * 2 ^ r
            < 2 ^ r + bits % 2 ^ (8 - r) * 2 ^ r := Nat.add_lt_add_right hb _
          _ = (bits % 2 ^ (8 - r) + 1) * 2 ^ r := by ring
          _ ≤ 2 ^ (8 - r) * 2 ^ r := Nat.mul_le_mul_right _ hlt
          _ = 256 := h256.symm
      have hhi : bits >>> (8 - r) < 2 ^ (8 * mid.length) := by
        rw [Nat.shiftRight_eq_div_pow, Nat.div_lt_iff_lt_mul (by positivity), ← Nat.pow_add]
        exact Nat.lt_of_lt_of_eq hbits (by congr 1; omega)
      have hof : (UInt8.ofNat (b.toNat + bits % 2 ^ (8 - r) * 2 ^ r)).toNat =
          b.toNat + bits % 2 ^ (8 - r) * 2 ^ r := by
        rw [UInt8.toNat_ofNat']
        exact Nat.mod_eq_of_lt hbyte
      have hsum := Nat.div_add_mod bits (2 ^ (8 - r))
      have h8r : 2 ^ (8 * (q + 1)) = 2 ^ (8 * q) * (2 ^ (8 - r) * 2 ^ r) := by
        rw [← Nat.pow_add, ← Nat.pow_add]
        congr 1
        omega
      rw [le_append, le_append, le_singleton, hof, le_toLeBytes, Nat.mod_eq_of_lt hhi,
        Nat.shiftRight_eq_div_pow, List.length_append, hq, List.length_singleton, hlow, hmid,
        h8r, hidx, Nat.pow_add]
      generalize bits / 2 ^ (8 - r) = hi at hsum
      generalize bits % 2 ^ (8 - r) = lo at hsum
      rw [← hsum]
      ring

end Patch

/-- What a change of such a field leaves. -/
theorem Full.changeBits {before field after : List UInt8} {idx numBits : Nat} (bits : Nat)
    (h : w.Full (before ++ field ++ after)) (hend : idx + numBits = 8 * field.length)
    (h8 : 8 ≤ numBits) (hzero : le field < 2 ^ idx) (hafter : after ≠ []) :
    ∃ patched, w.changeBits (8 * before.length + idx) bits numBits =
        some (ofOutput (before ++ patched ++ after)) ∧ patched.length = field.length ∧
      (bits < 2 ^ numBits → le patched = le field + bits * 2 ^ idx) := by
  obtain ⟨patched, hp, hlen, hval⟩ := @patchBits_spec before field after idx numBits bits hend
    h8 hzero
  refine ⟨patched, ?_, hlen, hval⟩
  have hpos : 0 < after.length := List.length_pos_iff.mpr hafter
  have hindex : (ofOutput (before ++ field ++ after)).index =
      8 * (before.length + field.length + after.length) := by
    simp [index, ofOutput]
    omega
  simp only [BitWriter.changeBits, h.flush, Option.bind_eq_bind, Option.bind_some]
  rw [if_neg (by omega), if_neg (by simp only [ofOutput] at hindex ⊢; omega)]
  split
  · rename_i hnone
    cases hp.symm.trans hnone
  · rename_i output hsome
    cases hp.symm.trans hsome
    exact congrArg some (eq_ofOutput rfl)

end BitIo.BitWriter
