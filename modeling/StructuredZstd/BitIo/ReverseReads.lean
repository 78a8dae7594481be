import StructuredZstd.BitIo.BitReaderReversed

namespace BitIo

open Bits

/-- Bit `i` of a source read from its last byte down, the high bit of a byte first; past the front
there are only zeros. -/
def bitAt (source : List UInt8) (i : Nat) : Nat :=
  if i < 8 * source.length then
    (source.getD (source.length - 1 - i / 8) 0).toNat / 2 ^ (7 - i % 8) % 2
  else 0

/-- The number the `n` bits from `pos` on spell, the first one on top. -/
def bitsFrom (source : List UInt8) (pos : Nat) : Nat → Nat
  | 0 => 0
  | n + 1 => 2 * bitsFrom source pos n + bitAt source (pos + n)

/-- A bit of a little-endian number is a bit of one of its bytes. -/
theorem le_bit (source : List UInt8) (k : Nat) :
    le source / 2 ^ k % 2 = (source.getD (k / 8) 0).toNat / 2 ^ (k % 8) % 2 := by
  have hk : 2 ^ k = 2 ^ (8 * (k / 8)) * 2 ^ (k % 8) := by
    rw [← Nat.pow_add]
    congr 1
    omega
  rw [hk, ← Nat.div_div_eq_div_mul, ← le_drop, List.getD_eq_getElem?_getD]
  have hget : source[k / 8]? = (source.drop (k / 8))[0]? := by simp
  rw [hget]
  cases source.drop (k / 8) with
  | nil => simp
  | cons b bs =>
    have hlt : k % 8 < 8 := Nat.mod_lt _ (by decide)
    have h256 : 256 * le bs = 2 ^ (k % 8) * (2 * (2 ^ (7 - k % 8) * le bs)) := by
      have : (256 : Nat) = 2 ^ (k % 8) * (2 * 2 ^ (7 - k % 8)) := by
        rw [← Nat.pow_succ', ← Nat.pow_add]
        have : k % 8 + (7 - k % 8).succ = 8 := by omega
        rw [this]
      rw [this]
      ring
    rw [le, h256, Nat.add_mul_div_left _ _ (Nat.two_pow_pos _), Nat.add_mul_mod_self_left]
    simp

/-- The top of what is left of a source is the specified bit. -/
theorem top_one (source : List UInt8) (pos : Nat) :
    ((Stack.ofBytes source).rest pos).top 1 = bitAt source pos := by
  unfold bitAt
  split
  · rename_i hin
    have hlen : 1 ≤ ((Stack.ofBytes source).rest pos).len := by
      rw [Stack.rest_len, Stack.ofBytes_len]
      omega
    rw [Stack.top_of_le _ hlen, Stack.rest_len, Stack.ofBytes_len]
    have hsplit : 2 ^ (8 * source.length - pos) = 2 ^ (8 * source.length - pos - 1) * 2 := by
      rw [← Nat.pow_succ]
      congr 1
      omega
    have hvalue : ((Stack.ofBytes source).rest pos).value =
        le source % 2 ^ (8 * source.length - pos) := rfl
    rw [hvalue, hsplit, Nat.mod_mul_right_div_self, le_bit]
    have hbyte : (8 * source.length - pos - 1) / 8 = source.length - 1 - pos / 8 := by omega
    have hshift : (8 * source.length - pos - 1) % 8 = 7 - pos % 8 := by omega
    rw [hbyte, hshift]
  · rename_i hout
    rw [Stack.rest_eq_empty _ (by rw [Stack.ofBytes_len]; omega), Stack.empty_top]

/-- What a reader takes off the top is what the source spells from there on. -/
theorem top_eq_bitsFrom (source : List UInt8) (pos n : Nat) :
    ((Stack.ofBytes source).rest pos).top n = bitsFrom source pos n := by
  induction n with
  | zero => exact Stack.top_zero _
  | succ n ih =>
    rw [Stack.top_add, ih, Stack.rest_rest, top_one, bitsFrom, Nat.pow_one, Nat.mul_comm]

namespace BitReaderReversed

/-- `peek_bits_triple`. -/
def peekBitsTriple (r : BitReaderReversed) (n1 n2 n3 : Nat) : Nat × Nat × Nat :=
  extractTriple (r.bitContainer >>> r.shiftBy (n1 + n2 + n3)) n1 n2 n3

/-- The refill of the targets without the direct window. -/
def refillChecked (r : BitReaderReversed) : BitReaderReversed :=
  if r.bitsConsumed / 8 = 0 then r
  else if r.bitsConsumed / 8 ≤ r.index then r.reload
  else r.refillSlow

/-- What a caller can ask of a reader. -/
inductive Request where
  | getBits (n : Nat)
  | ensureBits (n : Nat)
  | getBitsUnchecked (n : Nat)
  | peekBits (n : Nat)
  | peekBitsTriple (n1 n2 n3 : Nat)
  | consume (n : Nat)
  | getBitsTriple (n1 n2 n3 : Nat)
  | refill
  | refillChecked
  | refillSequence
  | refillSlow

namespace Request

/-- The documented widths: reads of at most 56 bits, and unchecked ones of what the container
holds. The sequence refill asks for its window, the cold one for the bytes to have run out. -/
def Allowed (r : BitReaderReversed) : Request → Prop
  | getBits n | ensureBits n => n ≤ 56
  | getBitsUnchecked n => n ≤ 56 ∧ r.bitsConsumed + n ≤ 64
  | peekBits n | consume n => r.bitsConsumed + n ≤ 64
  | peekBitsTriple n1 n2 n3 => r.bitsConsumed + (n1 + n2 + n3) ≤ 64
  | getBitsTriple n1 n2 n3 => n1 ≤ 56 ∧ n2 ≤ 56 ∧ n3 ≤ 56
  | refill | refillChecked => True
  | refillSequence => 8 ≤ r.index → r.index + 8 ≤ r.source.length
  | refillSlow => r.index < r.bitsConsumed / 8

/-- The values a request returns, and the reader after it. -/
def apply (r : BitReaderReversed) : Request → List Nat × BitReaderReversed
  | getBits n => ([(r.getBits n).1], (r.getBits n).2)
  | ensureBits n => ([], r.ensureBits n)
  | getBitsUnchecked n => ([(r.getBitsUnchecked n).1], (r.getBitsUnchecked n).2)
  | peekBits n => ([r.peekBits n], r)
  | peekBitsTriple n1 n2 n3 =>
    let (v1, v2, v3) := r.peekBitsTriple n1 n2 n3
    ([v1, v2, v3], r)
  | consume n => ([], r.consume n)
  | getBitsTriple n1 n2 n3 =>
    let ((v1, v2, v3), r) := r.getBitsTriple n1 n2 n3
    ([v1, v2, v3], r)
  | refill => ([], r.refill)
  | refillChecked => ([], r.refillChecked)
  | refillSequence => ([], r.refillSequence)
  | refillSlow => ([], r.refillSlow)

/-- How many bits a request takes. -/
def width : Request → Nat
  | getBits n | getBitsUnchecked n | consume n => n
  | getBitsTriple n1 n2 n3 => n1 + n2 + n3
  | ensureBits _ | peekBits _ | peekBitsTriple _ _ _ => 0
  | refill | refillChecked | refillSequence | refillSlow => 0

/-- What a request finds in the source. -/
def spec (source : List UInt8) (pos : Nat) : Request → List Nat
  | getBits n | getBitsUnchecked n | peekBits n => [bitsFrom source pos n]
  | peekBitsTriple n1 n2 n3 | getBitsTriple n1 n2 n3 =>
    [bitsFrom source pos n1, bitsFrom source (pos + n1) n2, bitsFrom source (pos + n1 + n2) n3]
  | ensureBits _ | consume _ | refill | refillChecked | refillSequence | refillSlow => []

end Request

/-- All requests of a list, one after the other. -/
def run (r : BitReaderReversed) : List Request → List Nat × BitReaderReversed
  | [] => ([], r)
  | q :: qs =>
    let (vs, r) := q.apply r
    let (ws, r) := run r qs
    (vs ++ ws, r)

/-- Every request of a list comes within the documented widths. -/
def AllowedRun (r : BitReaderReversed) : List Request → Prop
  | [] => True
  | q :: qs => q.Allowed r ∧ AllowedRun (q.apply r).2 qs

/-- What a list of requests finds in the source from `pos` on. -/
def specRun (source : List UInt8) (pos : Nat) : List Request → List Nat
  | [] => []
  | q :: qs => q.spec source pos ++ specRun source (pos + q.width) qs

/-- A reader `pos` bits into its source. -/
structure Faces (r : BitReaderReversed) (source : List UInt8) (pos : Nat) : Prop where
  source_eq : r.source = source
  tracks : r.Tracks ((Stack.ofBytes source).rest pos) (8 * source.length - pos)
  loaded : 8 ≤ r.index → r.index = source.length ∨ r.bitContainer = loadWord source r.index

namespace Faces

variable {r : BitReaderReversed} {source : List UInt8} {pos : Nat}

theorem new_faces (source : List UInt8) : (new source).Faces source 0 where
  source_eq := rfl
  tracks := ⟨new_sound source, by rw [new_toStack, Stack.rest_zero], by rw [new_bitsRemaining]; rfl⟩
  loaded _ := .inl rfl

/-- A refill that keeps the source, the position and the view faces the same bits. -/
theorem of_refill {r' : BitReaderReversed} (h : r.Faces source pos) (hs : r'.source = r.source)
    (hspec : r'.Sound ∧ r'.toStack = r.toStack ∧ r'.pos = r.pos ∧ r'.bitsConsumed < 8)
    (hl : 8 ≤ r'.index → r'.index = source.length ∨ r'.bitContainer = loadWord source r'.index) :
    r'.Faces source pos where
  source_eq := hs.trans h.source_eq
  tracks := by
    obtain ⟨hsound, hstack, hpos, -⟩ := hspec
    refine ⟨hsound, hstack.trans h.tracks.stack, ?_⟩
    rw [← h.tracks.remaining, bitsRemaining_eq hsound, bitsRemaining_eq h.tracks.sound, hpos, hs]
  loaded := hl

theorem reload (h : r.Faces source pos) (hi : r.bitsConsumed / 8 ≤ r.index) (h0 : 0 < r.index) :
    r.reload.Faces source pos :=
  h.of_refill rfl (reload_spec h.tracks.sound hi h0) fun _ =>
    .inr (by rw [← h.source_eq]; rfl)

theorem refillSlow (h : r.Faces source pos) (hi : r.index < r.bitsConsumed / 8) :
    r.refillSlow.Faces source pos := by
  have hsrc : r.refillSlow.source = r.source := by
    unfold BitReaderReversed.refillSlow
    split <;> rfl
  have hidx : r.refillSlow.index = 0 := by
    unfold BitReaderReversed.refillSlow
    split
    · rfl
    · simp only
      omega
  refine h.of_refill hsrc (refillSlow_spec h.tracks.sound hi) fun h8 => ?_
  omega

theorem refillChecked (h : r.Faces source pos) : r.refillChecked.Faces source pos := by
  unfold BitReaderReversed.refillChecked
  split
  · exact h
  · split
    · rename_i hc hi
      exact h.reload hi (by omega)
    · exact h.refillSlow (by omega)

theorem refill (h : r.Faces source pos) : r.refill.Faces source pos := by
  have hc := h.tracks.sound.consumed_le
  rw [BitReaderReversed.refill]
  split
  · exact h.reload (by omega) (by omega)
  · exact h.refillChecked

theorem refillSequence (h : r.Faces source pos) : r.refillSequence.Faces source pos := by
  have hc := h.tracks.sound.consumed_le
  unfold BitReaderReversed.refillSequence
  split
  · exact h
  · split
    · exact h.reload (by omega) (by omega)
    · exact h.refill

theorem ensureBits (h : r.Faces source pos) (n : Nat) : (r.ensureBits n).Faces source pos := by
  unfold BitReaderReversed.ensureBits
  split
  · exact h.refill
  · exact h

theorem consume (h : r.Faces source pos) {n : Nat} (hn : r.bitsConsumed + n ≤ 64) :
    (r.consume n).Faces source (pos + n) where
  source_eq := h.source_eq
  tracks := by
    refine (h.tracks.read (consume_spec h.tracks.sound hn)).2.cast (Stack.rest_rest _ _ _) ?_
    push_cast
    ring
  loaded := h.loaded

theorem peekBits (h : r.Faces source pos) {n : Nat} (hn : r.bitsConsumed + n ≤ 64) :
    r.peekBits n = bitsFrom source pos n := by
  rw [← top_eq_bitsFrom, ← h.tracks.stack, ← container_div h.tracks.sound hn]
  rfl

theorem peekBitsTriple (h : r.Faces source pos) {n1 n2 n3 : Nat}
    (hn : r.bitsConsumed + (n1 + n2 + n3) ≤ 64) : r.peekBitsTriple n1 n2 n3 =
      (bitsFrom source pos n1, bitsFrom source (pos + n1) n2,
        bitsFrom source (pos + n1 + n2) n3) := by
  rw [BitReaderReversed.peekBitsTriple, extractTriple_eq h.tracks.sound h.tracks.stack hn,
    Stack.rest_rest, Stack.rest_rest, top_eq_bitsFrom, top_eq_bitsFrom, top_eq_bitsFrom,
    Nat.add_assoc]

theorem getBits (h : r.Faces source pos) {n : Nat} (hn : n ≤ 56) :
    (r.getBits n).1 = bitsFrom source pos n ∧ (r.getBits n).2.Faces source (pos + n) := by
  have hroom := (h.tracks.ensureBits hn).2
  exact ⟨(h.ensureBits n).peekBits hroom, (h.ensureBits n).consume hroom⟩

theorem getBitsTriple (h : r.Faces source pos) {n1 n2 n3 : Nat} (h1 : n1 ≤ 56) (h2 : n2 ≤ 56)
    (h3 : n3 ≤ 56) : (r.getBitsTriple n1 n2 n3).1 =
        (bitsFrom source pos n1, bitsFrom source (pos + n1) n2,
          bitsFrom source (pos + n1 + n2) n3) ∧
      (r.getBitsTriple n1 n2 n3).2.Faces source (pos + (n1 + n2 + n3)) := by
  unfold BitReaderReversed.getBitsTriple
  by_cases hn : n1 + n2 + n3 ≤ 56
  · have hroom := (h.tracks.ensureBits hn).2
    simp only [hn, if_true]
    exact ⟨(h.ensureBits _).peekBitsTriple hroom, (h.ensureBits _).consume hroom⟩
  · obtain ⟨v1, f1⟩ := h.getBits h1
    obtain ⟨v2, f2⟩ := f1.getBits h2
    obtain ⟨v3, f3⟩ := f2.getBits h3
    simp only [hn, if_false, v1, v2, v3]
    exact ⟨trivial, by rwa [← Nat.add_assoc, ← Nat.add_assoc]⟩

/-- One request returns what the source holds and moves on by its width. -/
theorem apply (h : r.Faces source pos) {q : Request} (hq : q.Allowed r) :
    (q.apply r).1 = q.spec source pos ∧ (q.apply r).2.Faces source (pos + q.width) := by
  cases q with
  | getBits n =>
    obtain ⟨hv, hf⟩ := h.getBits hq
    exact ⟨congrArg (fun v => [v]) hv, hf⟩
  | ensureBits n => exact ⟨rfl, h.ensureBits n⟩
  | getBitsUnchecked n => exact ⟨congrArg (fun v => [v]) (h.peekBits hq.2), h.consume hq.2⟩
  | peekBits n => exact ⟨congrArg (fun v => [v]) (h.peekBits hq), h⟩
  | peekBitsTriple n1 n2 n3 =>
    refine ⟨?_, h⟩
    simp only [Request.apply, h.peekBitsTriple hq, Request.spec]
  | consume n => exact ⟨rfl, h.consume hq⟩
  | getBitsTriple n1 n2 n3 =>
    obtain ⟨hv, hf⟩ := h.getBitsTriple hq.1 hq.2.1 hq.2.2
    refine ⟨?_, hf⟩
    simp only [Request.apply, hv, Request.spec]
  | refill => exact ⟨rfl, h.refill⟩
  | refillChecked => exact ⟨rfl, h.refillChecked⟩
  | refillSequence => exact ⟨rfl, h.refillSequence⟩
  | refillSlow => exact ⟨rfl, h.refillSlow hq⟩

/-- The run lemma. -/
theorem run {qs : List Request} (h : r.Faces source pos) (hqs : AllowedRun r qs) :
    (BitReaderReversed.run r qs).1 = specRun source pos qs ∧
      (BitReaderReversed.run r qs).2.Faces source (pos + (qs.map Request.width).sum) := by
  induction qs generalizing r pos with
  | nil => exact ⟨rfl, h⟩
  | cons q qs ih =>
    obtain ⟨hv, hf⟩ := h.apply hqs.1
    obtain ⟨hvs, hfs⟩ := ih hf hqs.2
    rw [List.map_cons, List.sum_cons, ← Nat.add_assoc]
    refine ⟨?_, hfs⟩
    simp only [BitReaderReversed.run, specRun, hv, hvs]

/-- The refills agree to the last field wherever each of them may be called. -/
theorem refills_eq (h : r.Faces source pos) : r.refillChecked = r.refill ∧
    r.refillSequence = r.refill ∧ (r.index < r.bitsConsumed / 8 → r.refillSlow = r.refill) := by
  have hc := h.tracks.sound.consumed_le
  have hreload : 8 ≤ r.index → r.bitsConsumed / 8 = 0 → r.reload = r := by
    intro h8 h0
    have hword : loadWord r.source r.index = r.bitContainer := by
      rcases h.loaded h8 with hfresh | hword
      · rcases h.tracks.sound.shape with ⟨-, hb, -⟩ | ⟨hlen, -⟩ | ⟨hzero, -⟩
        · omega
        · rw [h.source_eq] at hlen
          omega
        · omega
      · rw [h.source_eq, hword]
    have hmod : r.bitsConsumed % 8 = r.bitsConsumed := Nat.mod_eq_of_lt (by omega)
    rw [BitReaderReversed.reload, h0, Nat.sub_zero, hmod, hword]
  refine ⟨?_, ?_, fun hi => ?_⟩
  · unfold BitReaderReversed.refillChecked BitReaderReversed.refill
    split_ifs with h0 h8 hi h8 h8
    · exact (hreload h8 h0).symm
    all_goals first | rfl | omega
  · unfold BitReaderReversed.refillSequence
    split_ifs with h0 h8
    · unfold BitReaderReversed.refill
      split_ifs with h8
      · exact (hreload h8 h0).symm
      · rfl
    · rw [BitReaderReversed.refill, if_pos h8]
    · rfl
  · rw [BitReaderReversed.refill, if_neg (by omega), if_neg (by omega), if_neg (by omega)]

end Faces

/-- Over every run of requests within the documented widths: the values are those the source spells
from its last byte down, followed by zeros, the remaining bits are counted exactly, a triple is
three reads in a row, and the refills are interchangeable. -/
theorem reads_source {source : List UInt8} {qs : List Request}
    (hqs : AllowedRun (new source) qs) :
    (run (new source) qs).1 = specRun source 0 qs ∧
      (run (new source) qs).2.bitsRemaining =
        8 * source.length - ((qs.map Request.width).sum : Nat) ∧
      (∀ n1 n2 n3, n1 ≤ 56 → n2 ≤ 56 → n3 ≤ 56 →
        (run (run (new source) qs).2 [.getBitsTriple n1 n2 n3]).1 =
            (run (run (new source) qs).2 [.getBits n1, .getBits n2, .getBits n3]).1 ∧
          ∀ after,
            AllowedRun (run (run (new source) qs).2 [.getBitsTriple n1 n2 n3]).2 after →
            AllowedRun (run (run (new source) qs).2 [.getBits n1, .getBits n2, .getBits n3]).2
              after →
            (run (run (run (new source) qs).2 [.getBitsTriple n1 n2 n3]).2 after).1 =
              (run (run (run (new source) qs).2 [.getBits n1, .getBits n2, .getBits n3]).2
                after).1) ∧
      (run (new source) qs).2.refillChecked = (run (new source) qs).2.refill ∧
      (run (new source) qs).2.refillSequence = (run (new source) qs).2.refill ∧
      ((run (new source) qs).2.index < (run (new source) qs).2.bitsConsumed / 8 →
        (run (new source) qs).2.refillSlow = (run (new source) qs).2.refill) := by
  obtain ⟨hv, hf⟩ := (Faces.new_faces source).run hqs
  rw [Nat.zero_add] at hf
  refine ⟨hv, hf.tracks.remaining, fun n1 n2 n3 h1 h2 h3 => ?_, hf.refills_eq⟩
  have htriple : AllowedRun (run (new source) qs).2 [.getBitsTriple n1 n2 n3] :=
    ⟨⟨h1, h2, h3⟩, trivial⟩
  have hsingle : AllowedRun (run (new source) qs).2 [.getBits n1, .getBits n2, .getBits n3] :=
    ⟨h1, h2, h3, trivial⟩
  obtain ⟨vt, ft⟩ := hf.run htriple
  obtain ⟨vs, fs⟩ := hf.run hsingle
  refine ⟨?_, fun after ht hs => ?_⟩
  · rw [vt, vs]
    simp only [specRun, Request.spec, Request.width, List.cons_append, List.nil_append]
  · have hwidth : ([.getBitsTriple n1 n2 n3] : List Request).map Request.width = [n1 + n2 + n3] := rfl
    have hwidths : ([.getBits n1, .getBits n2, .getBits n3] : List Request).map Request.width =
      [n1, n2, n3] := rfl
    rw [(ft.run ht).1, (fs.run hs).1, hwidth, hwidths]
    simp only [List.sum_cons, List.sum_nil, Nat.add_zero, Nat.add_assoc]

/-- Nine bytes, read past their front. -/
theorem reads_source_past_front :
    AllowedRun (new [1, 2, 3, 4, 5, 6, 7, 8, 9])
        [.getBits 20, .getBitsTriple 9 3 6, .refillSequence, .getBits 56] ∧
      (run (new [1, 2, 3, 4, 5, 6, 7, 8, 9])
          [.getBits 20, .getBitsTriple 9 3 6, .refillSequence, .getBits 56]).1 =
        specRun [1, 2, 3, 4, 5, 6, 7, 8, 9] 0
          [.getBits 20, .getBitsTriple 9 3 6, .refillSequence, .getBits 56] := by
  have hqs : AllowedRun (new [1, 2, 3, 4, 5, 6, 7, 8, 9])
      [.getBits 20, .getBitsTriple 9 3 6, .refillSequence, .getBits 56] :=
    ⟨show 20 ≤ 56 by decide, ⟨by decide, by decide, by decide⟩,
      fun _ => by decide +kernel, show 56 ≤ 56 by decide, trivial⟩
  exact ⟨hqs, (reads_source hqs).1⟩

end BitReaderReversed

end BitIo
