import StructuredZstd.Decoding.LaneSymbols

namespace Decoding

open Bits BitIo BitReaderReversed Huff0.Decoder

theorem trailingZeros_odd {y c fuel : Nat} (hy : y % 2 = 1) (hc : c < fuel) :
    trailingZeros fuel (y * 2 ^ c) = c := by
  induction fuel generalizing c with
  | zero => cases hc
  | succ fuel ih =>
    rw [trailingZeros]
    cases c with
    | zero => rw [Nat.pow_zero, Nat.mul_one, if_pos hy]
    | succ c =>
      have hdouble : y * 2 ^ (c + 1) = 2 * (y * 2 ^ c) := by
        rw [Nat.pow_succ]
        ring
      have heven : y * 2 ^ (c + 1) % 2 ≠ 1 := by omega
      have hhalf : y * 2 ^ (c + 1) / 2 = y * 2 ^ c := by omega
      rw [if_neg heven, hhalf, ih (by omega)]

theorem trailingZeros_marked (word : Nat) {c : Nat} (hc : c < 64) :
    trailingZeros 64 (marked 64 word c) = c := by
  obtain ⟨y, hy, hword⟩ := marked_eq_odd word hc
  rw [hword, trailingZeros_odd hy hc]

/-- A burst reads nothing but the word. -/
@[simp] theorem BurstLane.burst_ip (packed : List PackedEntry) (tableShift n : Nat) (l : BurstLane) :
    (l.burst packed tableShift n).ip = l.ip := by
  induction n generalizing l with
  | zero => rfl
  | succ n ih => exact ih _

variable {t : HuffmanTable}

/-- A burst lane `n` symbols into its stream: the eight bytes at its pointer, moved up by `c`. -/
structure BurstLane.After (t : HuffmanTable) (o : Opened) (n c : Nat) (l : BurstLane) : Prop where
  source : l.source = o.source
  inside : l.ip + 8 ≤ o.source.length
  word : l.b = marked 64 (loadWord o.source l.ip) c
  place : o.skipped + widthAt t n o.bits = 8 * o.source.length - 8 * l.ip - 64 + c
  out : l.out = symbolsAt t n o.bits

namespace BurstLane.After

variable {o : Opened} {n c : Nat} {l : BurstLane}

/-- The word shows what is left of the stream. -/
theorem top (h : l.After t o n c) {m : Nat} (hm : c + m < 64) :
    l.b >>> (64 - m) = (o.after t n).top m := by
  have hplace : o.after t n =
      ((Stack.ofBytes o.source).rest (8 * o.source.length - 8 * l.ip - 64)).rest c := by
    rw [Opened.after_eq, Stack.rest_rest, h.place]
  rw [h.word, marked_top _ hm, loadWord_eq h.inside, hplace]
  generalize (Stack.ofBytes o.source).rest (8 * o.source.length - 8 * l.ip - 64) = s
  rw [Stack.top_rest, Stack.top_eq_div _ (c + m) (64 - (c + m)), Nat.add_sub_cancel' hm.le]

theorem decode1 (h : l.After t o n c) (hc : c + t.maxNumBits < 64) :
    (l.decode1 t.packedDecode (64 - t.maxNumBits)).After t o (n + 1)
      (c + (slotAt t (o.after t n)).numBits) := by
  have hslot : t.packedDecode.getD (l.b >>> (64 - t.maxNumBits)) {} = slotAt t (o.after t n) := by
    rw [h.top hc]
    rfl
  simp only [BurstLane.decode1, hslot]
  refine ⟨h.source, h.inside, ?_, ?_, ?_⟩
  · simp only [h.word, marked_shift]
  · have hplace := h.place
    rw [widthAt_succ]
    change _ + (_ + (slotAt t (o.after t n)).numBits) = 8 * o.source.length - 8 * l.ip - 64 + _
    omega
  · rw [symbolsAt_succ]
    simp only [h.out]
    rfl

/-- A burst keeps the mark inside the word. -/
theorem burst (ht : t.WellFormed) (h : l.After t o n c) {k : Nat}
    (hc : c + k * t.maxNumBits < 64) :
    ∃ c', c' ≤ c + k * t.maxNumBits ∧
      (l.burst t.packedDecode (64 - t.maxNumBits) k).After t o (n + k) c' := by
  induction k generalizing l n c with
  | zero => exact ⟨c, Nat.le_add_right _ _, h⟩
  | succ k ih =>
    have hle : (slotAt t (o.after t n)).numBits ≤ t.maxNumBits := ht.slot_le _
    rw [Nat.succ_mul] at hc ⊢
    obtain ⟨c', hc', hrest⟩ := ih (h.decode1 (by omega)) (by omega)
    refine ⟨c', by omega, ?_⟩
    rwa [Nat.add_right_comm, Nat.add_assoc] at hrest

/-- A reload moves the pointer past the bytes that are used up. -/
theorem reload1 (h : l.After t o n c) (hc : c < 64) (hip : c / 8 ≤ l.ip) :
    l.reload1.After t o n (c % 8) := by
  have hctz : trailingZeros 64 l.b = c := by rw [h.word, trailingZeros_marked _ hc]
  have hbytes : c >>> 3 = c / 8 := Nat.shiftRight_eq_div_pow c 3
  have hbits : c &&& 7 = c % 8 := Nat.and_two_pow_sub_one_eq_mod c 3
  have hplace := h.place
  have hinside := h.inside
  simp only [BurstLane.reload1, hctz, hbytes, hbits]
  refine ⟨h.source, ?_, ?_, ?_, h.out⟩
  · change l.ip - c / 8 + 8 ≤ _
    omega
  · simp only [h.source]
    rfl
  · change _ = 8 * o.source.length - 8 * (l.ip - c / 8) - 64 + c % 8
    omega

/-- The lane goes on behind the burst where the burst left it. -/
theorem writeback (ht : t.WellFormed) (h : l.After t o n c) (hc : c ≤ 8) {lane : Lane}
    (hsource : lane.br.source = o.source) (hextra : lane.br.extraBits = 0) :
    (BurstLane.writeback lane l t.maxNumBits (64 - t.maxNumBits)).After t o n := by
  have hmax : t.maxNumBits ≤ 12 := ht.le
  have hinside := h.inside
  have hplace := h.place
  have hctz : trailingZeros 64 l.b = c := by rw [h.word, trailingZeros_marked _ (by omega)]
  obtain ⟨br, hbr⟩ : ∃ br : BitReaderReversed, br = { lane.br with
    index := l.ip
    bitContainer := loadWord l.source l.ip
    bitsConsumed := c + t.maxNumBits } := ⟨_, rfl⟩
  have hpos : br.pos =
      8 * o.source.length - 8 * l.ip - 64 + (c + t.maxNumBits) := by
    simp only [hbr, pos, hsource, hextra]
    omega
  have hstack : br.toStack = (o.after t n).rest t.maxNumBits := by
    have hbrsource : br.source = o.source := by rw [hbr, ← hsource]
    rw [toStack, hpos, hbrsource, Opened.after_eq, Stack.rest_rest, hplace, Nat.add_assoc]
  have hsound : br.Sound := by
    refine ⟨?_, .inr (.inl ⟨?_, ?_⟩), ?_⟩
    · simp only [hbr]
      omega
    · simp only [hbr, hsource]
      exact hinside
    · simp only [hbr, hextra]
    · have hwhole : c + t.maxNumBits + (64 - (c + t.maxNumBits)) = 64 := by omega
      rw [toStack, hpos, ← Stack.rest_rest]
      simp only [hbr, hsource, h.source]
      rw [Stack.top_rest, hwhole, loadWord_eq hinside]
  simp only [BurstLane.writeback, hctz, ← hbr]
  refine ⟨⟨hsound, hstack, ?_⟩, h.top (by omega), h.out⟩
  simp only [bitsRemaining, hbr, hextra, Opened.left]
  omega

end BurstLane.After

/-- The word of a lane that has just been started. -/
theorem Lane.Fresh.load {o : Opened} {lane : Lane} (h : lane.Fresh t o) (hout : lane.out = [])
    (hindex : 0 < lane.br.index) :
    (BurstLane.load lane t.maxNumBits).After t o 0 o.skipped := by
  obtain ⟨hinside, -, hword⟩ := h.container hindex
  have hconsumed := h.consumed
  refine ⟨h.source, hinside.le, ?_, ?_, hout⟩
  · simp only [BurstLane.load, hword, hconsumed, Nat.add_sub_cancel]
    rfl
  · simp only [BurstLane.load, widthAt]
    omega

end Decoding
