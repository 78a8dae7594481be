import StructuredZstd.BitIo.ReverseReads
import StructuredZstd.Runs.Guarded

namespace BitIo.BitReaderReversed

open Bits Runs Guarded

variable {ε : Type}

def reloadGuarded (r : BitReaderReversed) : Guarded ε BitReaderReversed := do
  let index ← sub r.index (r.bitsConsumed / 8)
  let _ ← slice r.source index (index + 8)
  pure r.reload

def refillSlowGuarded (r : BitReaderReversed) : Guarded ε BitReaderReversed :=
  if 0 < r.index then do
    let bytes ← unsigned 8 (8 * (r.index % 2 ^ 8))
    let consumed ← sub r.bitsConsumed bytes
    -- A shift by the whole width is an overflow.
    if 64 ≤ consumed then stop
    else
      let _ ← unsigned 64 (r.extraBits + consumed)
      pure r.refillSlow
  else do
    let _ ← unsigned 64 (r.extraBits + r.bitsConsumed)
    pure r.refillSlow

/-- The refill up to its last assertion. -/
def refillPath (r : BitReaderReversed) : Guarded ε BitReaderReversed :=
  if 8 ≤ r.index then r.reloadGuarded
  else if r.bitsConsumed / 8 = 0 then pure r
  else if r.bitsConsumed / 8 ≤ r.index then r.reloadGuarded
  else r.refillSlowGuarded

def refillGuarded (r : BitReaderReversed) : Guarded ε BitReaderReversed := do
  let r ← r.refillPath
  if 8 ≤ r.bitsConsumed then stop else pure r

def ensureBitsGuarded (r : BitReaderReversed) (n : Nat) : Guarded ε BitReaderReversed := do
  let sum ← unsigned 8 (r.bitsConsumed + n)
  if 64 < sum then r.refillGuarded else pure r

def peekBitsGuarded (r : BitReaderReversed) (n : Nat) : Guarded ε Nat :=
  if n = 0 ∨ r.bitsConsumed + n ≤ 64 then do
    let _ ← sub 64 r.bitsConsumed
    pure (r.peekBits n)
  else stop

def consumeGuarded (r : BitReaderReversed) (n : Nat) : Guarded ε BitReaderReversed :=
  if r.bitsConsumed + n ≤ 64 then pure (r.consume n) else stop

def getBitsGuarded (r : BitReaderReversed) (n : Nat) : Guarded ε (Nat × BitReaderReversed) := do
  let r ← r.ensureBitsGuarded n
  let value ← r.peekBitsGuarded n
  let r ← r.consumeGuarded n
  pure (value, r)

def bitsRemainingGuarded (r : BitReaderReversed) : Guarded ε Int := do
  let bits ← isize (r.index * 8)
  let bits ← isize (bits + (64 - r.bitsConsumed))
  isize (bits - r.extraBits)

section Spec

variable {r : BitReaderReversed} {source : List UInt8} {pos : Nat}

theorem Faces.index_le (h : r.Faces source pos) : r.index ≤ source.length := by
  have hsrc := h.source_eq
  rcases h.tracks.sound.shape with ⟨hi, -⟩ | ⟨hi, -⟩ | ⟨hi, -⟩
  · rw [hi, hsrc]
  · rw [hsrc] at hi
    omega
  · omega

/-- The zeros read past the front are no more than what was read. -/
theorem Faces.extraBits_le (h : r.Faces source pos) : r.extraBits ≤ pos + 64 := by
  have hrem := h.tracks.remaining
  have hi := h.index_le
  unfold bitsRemaining at hrem
  omega

theorem reloadGuarded_eq (h : r.Sound) (hi : r.bitsConsumed / 8 ≤ r.index) (h0 : 0 < r.index) :
    reloadGuarded (ε := ε) r = pure r.reload := by
  have hroom : r.index - r.bitsConsumed / 8 + 8 ≤ r.source.length := by
    rcases h.shape with ⟨hidx, hc, -⟩ | ⟨hidx, -⟩ | ⟨hidx, -⟩ <;> omega
  unfold reloadGuarded
  rw [sub_eq hi, pure_bind, slice_eq (Nat.le_add_right _ _) hroom, pure_bind]

theorem refillSlowGuarded_eq (h : r.Faces source pos) (hi : r.index < r.bitsConsumed / 8)
    (hpos : pos < 2 ^ 62) : refillSlowGuarded (ε := ε) r = pure r.refillSlow := by
  have hc := h.tracks.sound.consumed_le
  have hextra := h.extraBits_le
  unfold refillSlowGuarded
  split
  · rw [Nat.mod_eq_of_lt (show r.index < 2 ^ 8 by omega), unsigned_eq (by omega), pure_bind,
      sub_eq (by omega), pure_bind, if_neg (by omega), unsigned_eq (by omega), pure_bind]
  · rw [unsigned_eq (by omega), pure_bind]

theorem refillGuarded_eq (h : r.Faces source pos) (hpos : pos < 2 ^ 62) :
    refillGuarded (ε := ε) r = pure r.refill := by
  have hc := h.tracks.sound.consumed_le
  have hsmall := (refill_spec h.tracks.sound).2.2.2
  have hpath : refillPath (ε := ε) r = pure r.refill := by
    unfold refillPath refill
    split
    · exact reloadGuarded_eq h.tracks.sound (by omega) (by omega)
    · split
      · rfl
      · split
        · exact reloadGuarded_eq h.tracks.sound (by omega) (by omega)
        · exact refillSlowGuarded_eq h (by omega) hpos
  unfold refillGuarded
  rw [hpath, pure_bind, if_neg (by omega)]

theorem ensureBitsGuarded_eq (h : r.Faces source pos) (hpos : pos < 2 ^ 62) {n : Nat}
    (hn : n ≤ 56) : ensureBitsGuarded (ε := ε) r n = pure (r.ensureBits n) := by
  have hc := h.tracks.sound.consumed_le
  unfold ensureBitsGuarded ensureBits
  rw [unsigned_eq (by omega), pure_bind]
  split
  · exact refillGuarded_eq h hpos
  · rfl

theorem peekBitsGuarded_eq {n : Nat} (hn : r.bitsConsumed + n ≤ 64) :
    peekBitsGuarded (ε := ε) r n = pure (r.peekBits n) := by
  unfold peekBitsGuarded
  rw [if_pos (.inr hn), sub_eq (by omega), pure_bind]

theorem consumeGuarded_eq {n : Nat} (hn : r.bitsConsumed + n ≤ 64) :
    consumeGuarded (ε := ε) r n = pure (r.consume n) := if_pos hn

theorem getBitsGuarded_eq (h : r.Faces source pos) (hpos : pos < 2 ^ 62) {n : Nat} (hn : n ≤ 56) :
    getBitsGuarded (ε := ε) r n = pure (r.getBits n) := by
  have hroom := (h.tracks.ensureBits hn).2
  unfold getBitsGuarded
  rw [ensureBitsGuarded_eq h hpos hn, pure_bind, peekBitsGuarded_eq hroom, pure_bind,
    consumeGuarded_eq hroom, pure_bind]
  rfl

theorem bitsRemainingGuarded_eq (h : r.Faces source pos) (hpos : pos < 2 ^ 62)
    (hlen : source.length < 2 ^ 58) :
    bitsRemainingGuarded (ε := ε) r = pure r.bitsRemaining := by
  have hc := h.tracks.sound.consumed_le
  have hi := h.index_le
  have hextra := h.extraBits_le
  unfold bitsRemainingGuarded
  rw [isize_eq (by omega) (by omega), pure_bind, isize_eq (by omega) (by omega), pure_bind]
  exact isize_eq (by omega) (by omega)

/-- What a number of bits spells is under the power of their number. -/
theorem bitsFrom_lt (source : List UInt8) (pos n : Nat) : bitsFrom source pos n < 2 ^ n := by
  rw [← top_eq_bitsFrom]
  exact Stack.top_lt _ _

theorem Faces.meets_getBits (h : r.Faces source pos) (hpos : pos < 2 ^ 62) {n : Nat}
    (hn : n ≤ 56) : Meets (getBitsGuarded (ε := ε) r n) fun x =>
      x.1 < 2 ^ n ∧ x.2.Faces source (pos + n) := by
  obtain ⟨hv, hf⟩ := h.getBits hn
  rw [getBitsGuarded_eq h hpos hn]
  apply meets_pure
  rw [hv]
  exact ⟨bitsFrom_lt source pos n, hf⟩

theorem Faces.meets_bitsRemaining (h : r.Faces source pos) (hpos : pos < 2 ^ 62)
    (hlen : source.length < 2 ^ 58) :
    Meets (bitsRemainingGuarded (ε := ε) r) fun m => m = 8 * source.length - pos := by
  rw [bitsRemainingGuarded_eq h hpos hlen]
  exact meets_pure h.tracks.remaining

end Spec

end BitIo.BitReaderReversed
