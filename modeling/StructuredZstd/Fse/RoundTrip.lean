import StructuredZstd.Fse.Transition
import StructuredZstd.Fse.DecoderBuild
import StructuredZstd.Fse.NCount

namespace Fse

open Bits BitIo Decoder

/-- The quotient of a state by its width has the logarithm the decoder derives the width from. -/
theorem log2_quotient {a nb i : Nat} (hi : i < 2 ^ a) (hnb : nb ≤ a) :
    Nat.log2 ((2 ^ a + i) / 2 ^ nb) = a - nb := by
  have hpos : 0 < 2 ^ nb := by positivity
  have hsplit : 2 ^ a = 2 ^ (a - nb) * 2 ^ nb := by rw [← Nat.pow_add]; congr 1; omega
  have hge : 2 ^ (a - nb) ≤ (2 ^ a + i) / 2 ^ nb := by
    rw [Nat.le_div_iff_mul_le hpos, ← hsplit]
    omega
  rw [Nat.log2_eq_iff (by have := Nat.two_pow_pos (a - nb); omega)]
  refine ⟨hge, ?_⟩
  rw [Nat.div_lt_iff_lt_mul hpos, Nat.pow_succ, Nat.mul_right_comm, ← hsplit]
  omega

theorem transitionBits_eq (i nb : Nat) : Encoder.transitionBits i nb = i % 2 ^ nb := by
  rw [Encoder.transitionBits, Nat.one_shiftLeft, Nat.and_two_pow_sub_one_eq_mod]

/-- What a decode entry of either kind says once its symbol's counter is the quotient of `i`:
the transition is undone by its own bits. -/
theorem rawEntry_quotient {E : Type} [FseEntry E] {a nb i s : Nat} (ha : a ≤ 9) (hi : i < 2 ^ a)
    (hnb : nb ≤ a) :
    (rawEntry a s ((2 ^ a + i) / 2 ^ nb) : E) = FseEntry.fromRaw (i - i % 2 ^ nb) s nb := by
  have hsplit : 2 ^ a = 2 ^ (a - nb) * 2 ^ nb := by rw [← Nat.pow_add]; congr 1; omega
  have hlog := log2_quotient hi hnb
  have hw : a - (a - nb) = nb := by omega
  have hmod : (2 ^ a + i) % 2 ^ nb = i % 2 ^ nb := by
    rw [hsplit, Nat.mul_comm, Nat.mul_add_mod]
  have hdm := Nat.div_add_mod' (2 ^ a + i) (2 ^ nb)
  have hle : i % 2 ^ nb ≤ i := Nat.mod_le _ _
  have h9 : 2 ^ a ≤ 2 ^ 9 := Nat.pow_le_pow_right (by decide) ha
  rw [rawEntry, hlog, hw, Nat.shiftLeft_eq, Nat.one_shiftLeft]
  congr 1
  omega

section Inverse

variable {E : Type} [FseEntry E] {cap : Nat} {d : Distribution} {enc : Encoder.FSETable}
  {seqMeta : SeqMeta} {dec : FSETableImpl E cap}

/-- A symbol the distribution gives at least one state. -/
def Distribution.Present (d : Distribution) (s : Nat) : Prop := ∃ p, d.probs[s]? = some p ∧ p ≠ 0

/-- The transition on `s` from `i` lands on an entry of `s` that leads back to `i`. -/
theorem nextState_inverse (he : Encoder.TableOf d enc) (hd : Decoder.TableOf d seqMeta dec)
    {s i : Nat} (hs : d.Present s) (hi : i < d.size) :
    ∃ nb u, enc.nextState s i = some ⟨nb, u⟩ ∧ u < d.size ∧ nb ≤ d.accLog ∧
      dec.decode[u]? = some (enrich (FseEntry.fromRaw (i - i % 2 ^ nb) s nb) s seqMeta) := by
  obtain ⟨p, hp, h0⟩ := hs
  obtain ⟨nb, u, hn, hnb, hu, hq⟩ := he.nextState_spec hp h0 hi
  refine ⟨nb, u, hn, ?_, hnb, ?_⟩
  · rw [← d.slots_length]
    exact (List.getElem?_eq_some_iff.mp hu).1
  · have hw : d.probs.getD s 0 = p := by rw [List.getD_eq_getElem?_getD, hp, Option.getD_some]
    rw [hd.entry u s hu, hw, hq, Distribution.size, rawEntry_quotient d.log_le hi hnb]

/-- The start state of a symbol is one of its entries. -/
theorem startState_inverse (he : Encoder.TableOf d enc) (hd : Decoder.TableOf d seqMeta dec)
    {s : Nat} (hs : d.Present s) :
    ∃ u n, enc.startState s = some ⟨0, u⟩ ∧ u < d.size ∧
      dec.decode[u]? = some (enrich (rawEntry d.accLog s n) s seqMeta) := by
  obtain ⟨p, hp, h0⟩ := hs
  have hr := d.range p (List.mem_of_getElem? hp)
  obtain ⟨u, hstart, hu, _⟩ := he.startState_spec hp h0 hr
  refine ⟨u, _, hstart, ?_, hd.entry u s hu⟩
  rw [← d.slots_length]
  exact (List.getElem?_eq_some_iff.mp hu).1

end Inverse

section Stream

variable {cap : Nat} {d : Distribution} {enc : Encoder.FSETable} {dec : FSETableImpl Entry cap}

theorem readEntry_of_getElem? {E : Type} [FseEntry E] {dec : FSETableImpl E cap} {u : Nat} {e : E}
    (h : dec.decode[u]? = some e) : readEntry dec u = e := by
  rw [readEntry, List.getD_eq_getElem?_getD, h, Option.getD_some]

/-- Entry `u` decodes `x` and the bits `b` lead it to state `i`. -/
def LeadsTo (dec : FSETableImpl Entry cap) (u x b nb i : Nat) : Prop :=
  ∃ base, readEntry dec u = ⟨base, x, nb⟩ ∧ base + b % 2 ^ nb = i ∧ nb ≤ 9

theorem LeadsTo.symbol {u x b nb i : Nat} (h : LeadsTo dec u x b nb i) :
    (readEntry dec u).symbol = x := by
  obtain ⟨base, he, _⟩ := h
  rw [he]

/-- The bits on top carry a state to the one it leads to. -/
theorem LeadsTo.update {u x b nb i : Nat} (h : LeadsTo dec u x b nb i) {s : Stack}
    {r : BitReaderReversed} (hr : r.At (s.push b nb)) :
    ∃ r', updateState dec (readEntry dec u) r = (readEntry dec i, r') ∧ r'.At s := by
  obtain ⟨base, he, hi, hnb⟩ := h
  obtain ⟨r', hg, ha⟩ := hr.getBits (by omega)
  refine ⟨r', ?_, ha⟩
  rw [updateState, he]
  change (readEntry dec (base + (r.getBits nb).1), (r.getBits nb).2) = _
  rw [hg, hi]

/-- From state `u` over the stack `s` the decoder yields `xs` and leaves `rest`. -/
def Yields (dec : FSETableImpl Entry cap) (u : Nat) (s rest : Stack) (xs : List Nat) : Prop :=
  ∀ r : BitReaderReversed, r.At s →
    ∃ r', decodeRun dec xs.length (readEntry dec u) r = (xs, r') ∧ r'.At rest

/-- From states `u` and `v` taking turns over `s` the decoder yields `xs` and leaves `rest`. -/
def YieldsBoth (dec : FSETableImpl Entry cap) (u v : Nat) (s rest : Stack) (xs : List Nat) : Prop :=
  ∀ r : BitReaderReversed, r.At s →
    ∃ r', decodeAlternating dec xs.length (readEntry dec u) (readEntry dec v) r = (xs, r') ∧
      r'.At rest

theorem Yields.step {u x b nb i : Nat} {s rest : Stack} {xs : List Nat}
    (h : Yields dec i s rest xs) (hx : xs ≠ []) (hl : LeadsTo dec u x b nb i) :
    Yields dec u (s.push b nb) rest (x :: xs) := by
  intro r hr
  obtain ⟨r₁, hu, ha⟩ := hl.update hr
  obtain ⟨r', hd, ha'⟩ := h r₁ ha
  obtain ⟨y, ys, rfl⟩ := List.exists_cons_of_ne_nil hx
  refine ⟨r', ?_, ha'⟩
  rw [List.length_cons] at hd
  simp only [List.length_cons, decodeRun, hu, hd, hl.symbol]

theorem YieldsBoth.step {u v x b nb i : Nat} {s rest : Stack} {xs : List Nat}
    (h : YieldsBoth dec v i s rest xs) (hx : 2 ≤ xs.length) (hl : LeadsTo dec u x b nb i) :
    YieldsBoth dec u v (s.push b nb) rest (x :: xs) := by
  intro r hr
  obtain ⟨r₁, hu, ha⟩ := hl.update hr
  obtain ⟨r', hd, ha'⟩ := h r₁ ha
  obtain ⟨n, hn⟩ : ∃ n, xs.length = n + 2 := ⟨xs.length - 2, by omega⟩
  refine ⟨r', ?_, ha'⟩
  rw [hn] at hd
  simp only [List.length_cons, hn, decodeAlternating, hu, hd, hl.symbol]

/-- States `u` and `v` take turns over a stack and yield `xs`, down to two start states. -/
inductive Turns (d : Distribution) (enc : Encoder.FSETable) (dec : FSETableImpl Entry cap) :
    Nat → Nat → Stack → List Nat → Prop where
  | last {x y u v : Nat} (hu : enc.startState x = some ⟨0, u⟩) (hx : d.Present x)
    (sym_u : (readEntry dec u).symbol = x) (sym_v : (readEntry dec v).symbol = y) :
    Turns d enc dec u v Stack.empty [x, y]
  | step {u v x b nb i : Nat} {s : Stack} {xs : List Nat} (rest : Turns d enc dec v i s xs)
    (lead : LeadsTo dec u x b nb i) : Turns d enc dec u v (s.push b nb) (x :: xs)

theorem Turns.two_le {u v : Nat} {s : Stack} {xs : List Nat} (h : Turns d enc dec u v s xs) :
    2 ≤ xs.length := by
  induction h with
  | last => exact Nat.le_refl 2
  | step _ _ ih => exact Nat.le_succ_of_le ih

theorem Turns.yieldsBoth {u v : Nat} {s : Stack} {xs : List Nat} (h : Turns d enc dec u v s xs) :
    YieldsBoth dec u v s Stack.empty xs := by
  induction h with
  | last hu hx sym_u sym_v =>
    intro r hr
    exact ⟨r, by simp [decodeAlternating, sym_u, sym_v], hr⟩
  | step rest lead ih => exact ih.step rest.two_le lead

/-- One encoder step: the bits written lead the new state back to the old one. -/
theorem encodeSymbolWithState_spec (he : Encoder.TableOf d enc) (hd : TableOf d .none dec)
    {x i : Nat} (hx : d.Present x) (hi : i < d.size) {w : BitWriter} {base s : Stack}
    (hw : w.toStack = base.on s) :
    ∃ u w' b nb, Encoder.encodeSymbolWithState enc w i x = some (u, w') ∧ u < d.size ∧
      w'.toStack = base.on (s.push b nb) ∧ LeadsTo dec u x b nb i := by
  obtain ⟨nb, u, hn, hu, hnb, hent⟩ := nextState_inverse he hd hx hi
  have hlt : i % 2 ^ nb < 2 ^ nb := Nat.mod_lt _ (by positivity)
  have h9 := d.log_le
  obtain ⟨w', hwr, ht⟩ := w.writeBits_spec hlt (show nb ≤ 64 by omega)
  refine ⟨u, w', i % 2 ^ nb, nb, ?_, hu, ?_, i - i % 2 ^ nb, readEntry_of_getElem? hent, ?_,
    by omega⟩
  · rw [Encoder.encodeSymbolWithState, hn]
    simp [transitionBits_eq, hwr]
  · rw [ht, hw, Stack.on_push]
  · have := Nat.mod_le i (2 ^ nb)
    rw [Nat.mod_mod]
    omega

/-- A run of symbols is undone in reverse. -/
theorem encodeSymbols_spec (he : Encoder.TableOf d enc) (hd : TableOf d .none dec) (xs : List Nat)
    (hx : ∀ x ∈ xs, d.Present x) {i : Nat} (hi : i < d.size) {w : BitWriter} {base s rest : Stack}
    (hw : w.toStack = base.on s) {ys : List Nat} (hy : ys ≠ []) (h : Yields dec i s rest ys) :
    ∃ u w' s', Encoder.encodeSymbols enc xs i w = some (u, w') ∧ u < d.size ∧
      w'.toStack = base.on s' ∧ Yields dec u s' rest (xs.reverse ++ ys) := by
  induction xs generalizing i w s ys with
  | nil => exact ⟨i, w, s, rfl, hi, hw, h⟩
  | cons x xs ih =>
    obtain ⟨u₁, w₁, b, nb, h1, hu1, ht1, hl⟩ :=
      encodeSymbolWithState_spec he hd (hx x (by simp)) hi hw
    obtain ⟨u, w', s', h2, hu, hs', hyu⟩ :=
      ih (fun a ha => hx a (by simp [ha])) hu1 ht1 (by simp) (h.step hy hl)
    refine ⟨u, w', s', by simp [Encoder.encodeSymbols, h1, h2], hu, hs', ?_⟩
    rwa [List.reverse_cons, List.append_assoc]

/-- One symbol for each state. -/
theorem encodePair_spec (he : Encoder.TableOf d enc) (hd : TableOf d .none dec) {x y u v : Nat}
    (hx : d.Present x) (hy : d.Present y) (hu : u < d.size) (hv : v < d.size) {w : BitWriter}
    {base s : Stack} (hw : w.toStack = base.on s) {ys : List Nat}
    (h : Turns d enc dec u v s ys) :
    ∃ u' v' w' s', Encoder.encodePair enc x y u v w = some (u', v', w') ∧ u' < d.size ∧
      v' < d.size ∧ w'.toStack = base.on s' ∧ Turns d enc dec u' v' s' (y :: x :: ys) := by
  obtain ⟨v', w₁, b₁, n₁, h1, hv', ht1, hl1⟩ := encodeSymbolWithState_spec he hd hx hv hw
  obtain ⟨u', w₂, b₂, n₂, h2, hu', ht2, hl2⟩ := encodeSymbolWithState_spec he hd hy hu ht1
  refine ⟨u', v', w₂, _, ?_, hu', hv', ht2, (h.step hl1).step hl2⟩
  simp [Encoder.encodePair, h1, h2]

theorem encodePairs_spec (he : Encoder.TableOf d enc) (hd : TableOf d .none dec) (n : Nat)
    (xs : List Nat) (hn : xs.length = 2 * n) (hx : ∀ x ∈ xs, d.Present x) {u v : Nat}
    (hu : u < d.size) (hv : v < d.size) {w : BitWriter} {base s : Stack}
    (hw : w.toStack = base.on s) {ys : List Nat} (h : Turns d enc dec u v s ys) :
    ∃ u' v' w' s', Encoder.encodePairs enc xs u v w = some (u', v', w') ∧ u' < d.size ∧
      v' < d.size ∧ w'.toStack = base.on s' ∧ Turns d enc dec u' v' s' (xs.reverse ++ ys) := by
  induction n generalizing xs u v w s ys with
  | zero =>
    have : xs = [] := List.eq_nil_of_length_eq_zero hn
    subst this
    exact ⟨u, v, w, s, rfl, hu, hv, hw, h⟩
  | succ n ih =>
    obtain ⟨x, y, xs, rfl⟩ : ∃ x y zs, xs = x :: y :: zs := by
      rcases xs with _ | ⟨x, _ | ⟨y, zs⟩⟩
      · simp at hn
      · simp at hn
        omega
      · exact ⟨x, y, zs, rfl⟩
    obtain ⟨u₁, v₁, w₁, s₁, h1, hu1, hv1, hw1, hy1⟩ :=
      encodePair_spec he hd (hx x (by simp)) (hx y (by simp)) hu hv hw h
    obtain ⟨u', v', w', s', h2, hu', hv', hw', hy'⟩ :=
      ih xs (by simp at hn; omega) (fun a ha => hx a (by simp [ha])) hu1 hv1 hw1 hy1
    refine ⟨u', v', w', s', by simp [Encoder.encodePairs, h1, h2], hu', hv', hw', ?_⟩
    simpa using hy'

/-- A start state yields its own symbol and reads nothing. -/
theorem startState_symbol (he : Encoder.TableOf d enc) (hd : TableOf d .none dec) {x : Nat}
    (hx : d.Present x) :
    ∃ u, enc.startState x = some ⟨0, u⟩ ∧ u < d.size ∧ (readEntry dec u).symbol = x := by
  obtain ⟨u, n, hs, hu, hent⟩ := startState_inverse he hd hx
  refine ⟨u, hs, hu, ?_⟩
  rw [readEntry_of_getElem? hent]
  rfl

/-- The end mark closes the last byte. -/
theorem writeEndMark_spec {w : BitWriter} {base s : Stack} (hw : w.toStack = base.on s) :
    ∃ w' k, Encoder.writeEndMark w = some w' ∧ 1 ≤ k ∧ k ≤ 8 ∧ w'.index % 8 = 0 ∧
      w'.toStack = base.on (s.push 1 k) := by
  unfold Encoder.writeEndMark
  have hm := w.misaligned_lt
  split_ifs with h0
  · obtain ⟨w', hr, ht⟩ := w.writeBits_spec (b := 1) (n := 8) (by decide) (by decide)
    refine ⟨w', 8, hr, by decide, by decide, ?_, by rw [ht, hw, Stack.on_push]⟩
    rw [BitWriter.misaligned] at h0
    rw [BitWriter.index_eq, ht, Stack.push_len, ← BitWriter.index_eq]
    split_ifs at h0 <;> omega
  · obtain ⟨w', hr, ht⟩ := w.writeBits_spec (b := 1) (n := w.misaligned)
      (Nat.one_lt_two_pow h0) (by omega)
    exact ⟨w', w.misaligned, hr, by omega, by omega, BitWriter.fill_aligned ht,
      by rw [ht, hw, Stack.on_push]⟩

/-- The first state of a stream is read back from its plain number. -/
theorem initState_spec {E : Type} [FseEntry E] {seqMeta : SeqMeta} {dec : FSETableImpl E cap}
    (hd : TableOf d seqMeta dec) {u : Nat} (hu : u < d.size) {s : Stack} {r : BitReaderReversed}
    (hr : r.At (s.push u d.accLog)) :
    ∃ r', initState dec r = .ok (readEntry dec u, r') ∧ r'.At s := by
  have hlog := d.log_le
  obtain ⟨r', hg, ha⟩ := hr.getBits (by omega)
  rw [Nat.mod_eq_of_lt (show u < 2 ^ d.accLog from hu)] at hg
  refine ⟨r', ?_, ha⟩
  have hlen : dec.decode.length = 1 <<< d.accLog := by
    rw [hd.length_eq, Nat.one_shiftLeft, Distribution.size]
  have hpos := d.size_pos
  rw [initState, if_neg (by rw [hd.length_eq]; omega), hd.log_eq, if_neg (by simp [hlen]), hg]

/-- What an encoder run left after the description of its table. -/
def PayloadOf (enc : Encoder.FSETable) (w w' : BitWriter) (payload : List UInt8) : Prop :=
  ∃ w₀ f₀ f', enc.writeTable w = some w₀ ∧ w₀.flush = some f₀ ∧ w'.flush = some f' ∧
    f'.output = f₀.output ++ payload

/-- A closed stream above the description is its payload, bit for bit. -/
theorem payload_of_closed {w w₀ f₀ w' : BitWriter} {s : Stack} (h0 : enc.writeTable w = some w₀)
    (hf0 : w₀.flush = some f₀) (ha : w'.index % 8 = 0)
    (hw' : w'.toStack = (Stack.ofBytes f₀.output).on s) :
    ∃ payload, PayloadOf enc w w' payload ∧ Stack.ofBytes payload = s := by
  obtain ⟨f', hf', hst, _⟩ := BitWriter.flush_aligned ha
  rw [hw'] at hst
  obtain ⟨payload, hp, hs⟩ := Stack.ofBytes_eq_on hst
  exact ⟨payload, ⟨w₀, f₀, f', h0, hf0, hf', hp⟩, hs⟩

/-- On a byte boundary the description goes out, and the stream starts on an empty stack. -/
theorem writeTable_base (he : Encoder.TableOf d enc) {w : BitWriter} (hw : w.index % 8 = 0) :
    ∃ w₀ f₀, enc.writeTable w = some w₀ ∧ w₀.flush = some f₀ ∧
      w₀.toStack = (Stack.ofBytes f₀.output).on Stack.empty := by
  obtain ⟨w₀, _, h0, hal, _, _⟩ := he.writeTable_spec hw
  obtain ⟨f₀, hf0, hst, _⟩ := BitWriter.flush_aligned hal
  exact ⟨w₀, f₀, h0, hf0, by rw [Stack.on_empty, hst]⟩

/-- The single-state stream decodes to the data it was made from, to the last bit. -/
theorem encode_decodes (he : Encoder.TableOf d enc) (hd : TableOf d .none dec) {data : List Nat}
    (hne : data ≠ []) (hx : ∀ x ∈ data, d.Present x) {w : BitWriter} (hw : w.index % 8 = 0) :
    ∃ w' payload r, Encoder.encode enc data w = some w' ∧ PayloadOf enc w w' payload ∧
      decodeStream dec data.length payload = some (data, r) ∧ r.bitsRemaining = 0 := by
  have hlog := d.log_le
  obtain ⟨w₀, f₀, h0, hf0, hb⟩ := writeTable_base he hw
  obtain ⟨u₀, hs0, hu0, hsym⟩ := startState_symbol he hd (hx _ (List.getLast_mem hne))
  have hy0 : Yields dec u₀ Stack.empty Stack.empty [data.getLast hne] :=
    fun r hr => ⟨r, by simp [decodeRun, hsym], hr⟩
  obtain ⟨u, w₁, s₁, h1, hu, hw1, hy1⟩ := encodeSymbols_spec he hd data.dropLast.reverse
    (fun x hm => hx x (List.dropLast_subset _ (List.mem_reverse.mp hm))) hu0 hb (by simp) hy0
  rw [List.reverse_reverse, List.dropLast_append_getLast] at hy1
  obtain ⟨w₂, h2, hw2⟩ := w₁.writeBits_spec hu (show d.accLog ≤ 64 by omega)
  rw [hw1, ← Stack.on_push] at hw2
  obtain ⟨w₃, k, h3, hk1, hk8, hal, hw3⟩ := writeEndMark_spec hw2
  obtain ⟨payload, hp, hst⟩ := payload_of_closed h0 hf0 hal hw3
  have hat := BitReaderReversed.new_at payload
  rw [hst] at hat
  obtain ⟨r₁, hr1, ha1⟩ := hat.skipPadding hk1 hk8
  obtain ⟨r₂, hr2, ha2⟩ := initState_spec hd hu ha1
  obtain ⟨r, hr, ha⟩ := hy1 r₂ ha2
  refine ⟨w₃, payload, r, ?_, hp, ?_, by simpa using ha.remaining⟩
  · simp [Encoder.encode, h0, List.getLast?_eq_some_getLast hne, hs0, h1, he.accLog_eq, h2, h3]
  · simp [decodeStream, hr1, hr2, hr, Nat.not_lt.mpr hk8]

/-- The two start states, and after an odd symbol the first transition, leave pairs to encode. -/
theorem startInterleaved_spec (he : Encoder.TableOf d enc) (hd : TableOf d .none dec)
    {data : List Nat} (hl : 2 ≤ data.length) (hx : ∀ x ∈ data, d.Present x) {w : BitWriter}
    {base : Stack} (hw : w.toStack = base.on Stack.empty) :
    ∃ u v xs w' s' ys, Encoder.startInterleaved enc data.reverse (data.length % 2 = 1) w =
        some (u, v, xs, w') ∧ u < d.size ∧ v < d.size ∧ w'.toStack = base.on s' ∧
      data = xs.reverse ++ ys ∧ ys.length = 2 + data.length % 2 ∧ Turns d enc dec u v s' ys := by
  have hlen : data.reverse.length = data.length := List.length_reverse
  have hrev : data = data.reverse.reverse := (List.reverse_reverse data).symm
  rcases hr : data.reverse with _ | ⟨a, _ | ⟨b, xs⟩⟩
  · rw [hr] at hlen
    simp at hlen
    omega
  · rw [hr] at hlen
    simp at hlen
    omega
  · have hm : ∀ x ∈ a :: b :: xs, d.Present x := by
      intro x hxm
      rw [← hr, List.mem_reverse] at hxm
      exact hx x hxm
    obtain ⟨i, hsa, hi, hya⟩ := startState_symbol he hd (hm a (by simp))
    obtain ⟨j, hsb, hj, hyb⟩ := startState_symbol he hd (hm b (by simp))
    have hy : Turns d enc dec j i Stack.empty [b, a] := .last hsb (hm b (by simp)) hyb hya
    rcases Nat.mod_two_eq_zero_or_one data.length with hpar | hpar
    · refine ⟨j, i, xs, w, Stack.empty, [b, a], ?_, hj, hi, hw, ?_, by simp [hpar], hy⟩
      · simp [Encoder.startInterleaved, hpar, hsa, hsb]
      · rw [hrev, hr]
        simp
    · rcases xs with _ | ⟨c, xs⟩
      · rw [hr] at hlen
        simp at hlen
        omega
      · obtain ⟨u, w', b', nb, h1, hu, hw', hlt⟩ :=
          encodeSymbolWithState_spec he hd (hm c (by simp)) hi hw
        refine ⟨u, j, xs, w', _, [c, b, a], ?_, hu, hj, hw', ?_, by simp [hpar], hy.step hlt⟩
        · simp [Encoder.startInterleaved, hpar, hsa, hsb, h1]
        · rw [hrev, hr]
          simp

theorem encodeLeadingPair_spec (he : Encoder.TableOf d enc) (hd : TableOf d .none dec)
    {remaining n : Nat} {xs : List Nat} (hn : xs.length = 2 * n)
    (hr : remaining &&& 2 ≠ 0 → 1 ≤ n) (hx : ∀ x ∈ xs, d.Present x) {u v : Nat}
    (hu : u < d.size) (hv : v < d.size) {w : BitWriter} {base s : Stack}
    (hw : w.toStack = base.on s) {ys : List Nat} (h : Turns d enc dec u v s ys) :
    ∃ u' v' xs' n' w' s' ys', Encoder.encodeLeadingPair enc remaining xs u v w =
        some (u', v', xs', w') ∧ u' < d.size ∧ v' < d.size ∧ xs'.length = 2 * n' ∧
      (∀ x ∈ xs', d.Present x) ∧ w'.toStack = base.on s' ∧
      xs'.reverse ++ ys' = xs.reverse ++ ys ∧ Turns d enc dec u' v' s' ys' := by
  by_cases hc : remaining &&& 2 ≠ 0
  · obtain ⟨m, rfl⟩ : ∃ m, n = m + 1 := ⟨n - 1, by have := hr hc; omega⟩
    rcases xs with _ | ⟨x, _ | ⟨y, xs⟩⟩
    · simp at hn
    · simp at hn
      omega
    · obtain ⟨u', v', w', s', h1, hu', hv', hw', hy'⟩ :=
        encodePair_spec he hd (hx x (by simp)) (hx y (by simp)) hu hv hw h
      refine ⟨u', v', xs, m, w', s', y :: x :: ys, ?_, hu', hv', by simp at hn; omega,
        fun a ha => hx a (by simp [ha]), hw', by simp, hy'⟩
      rw [Encoder.encodeLeadingPair, if_pos hc]
      simp [h1]
  · refine ⟨u, v, xs, n, w, s, ys, ?_, hu, hv, hn, hx, hw, rfl, h⟩
    unfold Encoder.encodeLeadingPair
    rw [if_neg hc]

/-- What the interleaved stream holds: the end mark, the two states and the turns they take. -/
theorem encodeInterleaved_turns (he : Encoder.TableOf d enc) (hd : TableOf d .none dec)
    {data : List Nat} (hlen : 2 ≤ data.length) (hx : ∀ x ∈ data, d.Present x) {w : BitWriter}
    (hw : w.index % 8 = 0) :
    ∃ w' payload u v s k, Encoder.encodeInterleaved enc data w = some w' ∧
      PayloadOf enc w w' payload ∧ 1 ≤ k ∧ k ≤ 8 ∧ u < d.size ∧ v < d.size ∧
      Stack.ofBytes payload = ((s.push v d.accLog).push u d.accLog).push 1 k ∧
      Turns d enc dec u v s data := by
  have hlog := d.log_le
  obtain ⟨w₀, f₀, h0, hf0, hb⟩ := writeTable_base he hw
  obtain ⟨u₁, v₁, xs₁, w₁, s₁, ys₁, h1, hu1, hv1, hw1, hd1, he1, hy1⟩ :=
    startInterleaved_spec he hd hlen hx hb
  have hx1 : ∀ x ∈ xs₁, d.Present x := fun x hm => hx x (by rw [hd1]; simp [hm])
  have hlen1 : xs₁.length + ys₁.length = data.length := by
    have := congrArg List.length hd1
    simp at this
    omega
  have hand : (data.length - 2) &&& 2 ≠ 0 → 1 ≤ xs₁.length / 2 := by
    intro hne
    have h3 : 2 ≤ (data.length - 2) % 4 := by
      have hmod : (data.length - 2) % 4 &&& 2 = (data.length - 2) &&& 2 := by
        rw [show (4 : Nat) = 2 ^ 2 from rfl, ← Nat.and_two_pow_sub_one_eq_mod, Nat.and_assoc]
        rfl
      rw [← hmod] at hne
      by_contra hlt
      have : (data.length - 2) % 4 = 0 ∨ (data.length - 2) % 4 = 1 := by omega
      rcases this with h | h <;> rw [h] at hne <;> exact hne rfl
    omega
  obtain ⟨u₂, v₂, xs₂, n₂, w₂, s₂, ys₂, h2, hu2, hv2, hn2, hx2, hw2, hd2, hy2⟩ :=
    encodeLeadingPair_spec he hd (show xs₁.length = 2 * (xs₁.length / 2) by omega) hand hx1
      hu1 hv1 hw1 hy1
  obtain ⟨u, v, w₃, s₃, h3, hu, hv, hw3, hy3⟩ :=
    encodePairs_spec he hd n₂ xs₂ hn2 hx2 hu2 hv2 hw2 hy2
  rw [hd2, ← hd1] at hy3
  obtain ⟨w₄, h4, hw4⟩ := w₃.writeBits_spec hv (show d.accLog ≤ 64 by omega)
  rw [hw3, ← Stack.on_push] at hw4
  obtain ⟨w₅, h5, hw5⟩ := w₄.writeBits_spec hu (show d.accLog ≤ 64 by omega)
  rw [hw4, ← Stack.on_push] at hw5
  obtain ⟨w₆, k, h6, hk1, hk8, hal, hw6⟩ := writeEndMark_spec hw5
  obtain ⟨payload, hp, hst⟩ := payload_of_closed h0 hf0 hal hw6
  refine ⟨w₆, payload, u, v, s₃, k, ?_, hp, hk1, hk8, hu, hv, hst, hy3⟩
  simp only [Encoder.encodeInterleaved, h0, Option.bind_eq_bind, Option.bind_some,
    if_neg (Nat.not_lt.mpr hlen), h1, h2, h3, he.accLog_eq, h4, h5, h6]

/-- The interleaved stream decodes to the data it was made from, to the last bit. -/
theorem encodeInterleaved_decodes (he : Encoder.TableOf d enc) (hd : TableOf d .none dec)
    {data : List Nat} (hlen : 2 ≤ data.length) (hx : ∀ x ∈ data, d.Present x) {w : BitWriter}
    (hw : w.index % 8 = 0) :
    ∃ w' payload r, Encoder.encodeInterleaved enc data w = some w' ∧ PayloadOf enc w w' payload ∧
      decodeInterleaved dec data.length payload = some (data, r) ∧ r.bitsRemaining = 0 := by
  obtain ⟨w', payload, u, v, s, k, henc, hp, hk1, hk8, hu, hv, hst, hturns⟩ :=
    encodeInterleaved_turns he hd hlen hx hw
  have hat := BitReaderReversed.new_at payload
  rw [hst] at hat
  obtain ⟨r₁, hr1, ha1⟩ := hat.skipPadding hk1 hk8
  obtain ⟨r₂, hr2, ha2⟩ := initState_spec hd hu ha1
  obtain ⟨r₃, hr3, ha3⟩ := initState_spec hd hv ha2
  obtain ⟨r, hr, ha⟩ := hturns.yieldsBoth r₃ ha3
  refine ⟨w', payload, r, henc, hp, ?_, by simpa using ha.remaining⟩
  simp [decodeInterleaved, hr1, hr2, hr3, hr, Nat.not_lt.mpr hk8]

end Stream

/-- The encoder and decoder tables of one distribution are inverse, and so are the streams. -/
theorem fse_tables_inverse (d : Distribution) (out : Encoder.FSETable) {cap : Nat}
    (t : FSETableImpl Entry cap) (hs : d.probs.length ≤ t.maxSymbol + 1) (hc : d.size ≤ cap) :
    ∃ enc dec, Encoder.buildTableFromProbabilitiesInto d.probs d.accLog out = some enc ∧
      t.buildFromProbabilities d.accLog d.probs = (.ok (), dec) ∧
      (∀ s, d.Present s →
        (∀ i < 2 ^ d.accLog, ∃ state entry, enc.nextState s i = some state ∧
          state.index < 2 ^ d.accLog ∧ dec.decode[state.index]? = some entry ∧
          entry.symbol = s ∧ entry.numBits = state.numBits ∧
          entry.newState + Encoder.transitionBits i state.numBits = i) ∧
        ∃ state entry, enc.startState s = some state ∧
          dec.decode[state.index]? = some entry ∧ entry.symbol = s) ∧
      ∀ w : BitWriter, w.index % 8 = 0 → ∀ data : List Nat, (∀ x ∈ data, d.Present x) →
        (data ≠ [] → ∃ w' payload r, Encoder.encode enc data w = some w' ∧
          PayloadOf enc w w' payload ∧
          decodeStream dec data.length payload = some (data, r) ∧ r.bitsRemaining = 0) ∧
        (2 ≤ data.length → ∃ w' payload r, Encoder.encodeInterleaved enc data w = some w' ∧
          PayloadOf enc w w' payload ∧
          decodeInterleaved dec data.length payload = some (data, r) ∧ r.bitsRemaining = 0) := by
  obtain ⟨enc, hb, he⟩ := Encoder.build_spec d out
  obtain ⟨hok, hd⟩ := buildFromProbabilities_spec d t hs hc
  refine ⟨enc, (t.buildFromProbabilities d.accLog d.probs).2, hb, Prod.ext hok rfl, ?_, ?_⟩
  · intro s hp
    constructor
    · intro i hi
      obtain ⟨nb, u, hn, hu, _, hent⟩ := nextState_inverse he hd hp hi
      refine ⟨⟨nb, u⟩, _, hn, hu, hent, rfl, rfl, ?_⟩
      rw [transitionBits_eq]
      exact Nat.sub_add_cancel (Nat.mod_le _ _)
    · obtain ⟨u, n, hst, _, hent⟩ := startState_inverse he hd hp
      exact ⟨⟨0, u⟩, _, hst, hent, rfl⟩
  · intro w hw data hx
    exact ⟨fun hne => encode_decodes he hd hne hx hw,
      fun hl => encodeInterleaved_decodes he hd hl hx hw⟩

/-- A distribution with a frequent, an absent and a less-than-one symbol. -/
def sampleDistribution : Distribution :=
  .decided [20, 0, 11, -1] 5 (by decide)

theorem fse_tables_inverse_sample :
    ∃ enc dec, Encoder.buildTableFromProbabilitiesInto sampleDistribution.probs 5
        Encoder.FSETable.blank = some enc ∧
      (FSETableImpl.new 255 : FSETableImpl Entry 64).buildFromProbabilities 5
        sampleDistribution.probs = (.ok (), dec) ∧
      ∃ w' payload r, Encoder.encodeInterleaved enc [0, 3, 2] (BitWriter.ofOutput []) = some w' ∧
        PayloadOf enc (BitWriter.ofOutput []) w' payload ∧
        decodeInterleaved dec 3 payload = some ([0, 3, 2], r) ∧ r.bitsRemaining = 0 := by
  obtain ⟨enc, dec, he, hd, _, hstream⟩ := fse_tables_inverse sampleDistribution
    Encoder.FSETable.blank (FSETableImpl.new 255 : FSETableImpl Entry 64) (by decide) (by decide)
  refine ⟨enc, dec, he, hd, (hstream (BitWriter.ofOutput []) rfl [0, 3, 2] ?_).2 (by decide)⟩
  intro x hx
  simp only [List.mem_cons, List.not_mem_nil, or_false] at hx
  rcases hx with rfl | rfl | rfl
  · exact ⟨20, rfl, by decide⟩
  · exact ⟨-1, rfl, by decide⟩
  · exact ⟨11, rfl, by decide⟩

end Fse
