import StructuredZstd.Bits.Circular
import StructuredZstd.Decoding.Backends
import StructuredZstd.Decoding.SequenceDecoder

namespace Decoding

open Bits BitIo BitIo.BitReaderReversed Fse.Decoder

/-- A table an axis may decode with: full, within its limits, and with every transition inside. -/
structure SeqTableOk (t : SeqFSETable) (maxLog : Nat) (ok : SeqSymbol → Prop) : Prop where
  size : t.decode.length = 2 ^ t.accuracyLog
  log : t.accuracyLog ≤ maxLog
  bits : ∀ e ∈ t.decode, e.numBits ≤ t.accuracyLog
  inside : ∀ e ∈ t.decode, e.newState + 2 ^ e.numBits ≤ t.decode.length
  entry : ∀ e ∈ t.decode, ok e

/-- Literal lengths: at most 16 more bits, and none on top of zero. -/
def LlEntry (e : SeqSymbol) : Prop :=
  e.numAdditionalBits ≤ 16 ∧ (e.baseValue = 0 → e.numAdditionalBits = 0)

def MlEntry (e : SeqSymbol) : Prop := e.numAdditionalBits ≤ 16

/-- Offsets: the code is the width, its baseline a power of two. -/
def OffEntry (e : SeqSymbol) : Prop :=
  e.numAdditionalBits ≤ maxOffsetCode ∧ e.baseValue = 2 ^ e.numAdditionalBits

instance : DecidablePred LlEntry := fun e =>
  inferInstanceAs (Decidable (e.numAdditionalBits ≤ 16 ∧ (e.baseValue = 0 → _)))

instance : DecidablePred MlEntry := fun e => inferInstanceAs (Decidable (e.numAdditionalBits ≤ 16))

instance : DecidablePred OffEntry := fun e =>
  inferInstanceAs (Decidable (e.numAdditionalBits ≤ maxOffsetCode ∧ _))

structure SeqTables.WellFormed (t : SeqTables) : Prop where
  ll : SeqTableOk t.ll llMaxLog LlEntry
  ml : SeqTableOk t.ml mlMaxLog MlEntry
  off : SeqTableOk t.off ofMaxLog OffEntry

/-- The three decoders stand on entries of their tables. -/
structure SeqStates.In (s : SeqStates) (t : SeqTables) : Prop where
  ll : s.ll ∈ t.ll.decode
  ml : s.ml ∈ t.ml.decode
  off : s.off ∈ t.off.decode

namespace SeqStates

/-- The bits a sequence takes on top of its codes. -/
def width (s : SeqStates) : Nat :=
  s.off.numAdditionalBits + s.ml.numAdditionalBits + s.ll.numAdditionalBits

/-- The sequence the states and the bits ahead stand for. -/
def value (s : SeqStates) (st : Stack) : Sequence where
  ll := s.ll.baseValue +
    (st.rest (s.off.numAdditionalBits + s.ml.numAdditionalBits)).top s.ll.numAdditionalBits
  ml := s.ml.baseValue + (st.rest s.off.numAdditionalBits).top s.ml.numAdditionalBits
  off := st.top s.off.numAdditionalBits + s.off.baseValue

def resolved (s : SeqStates) (st : Stack) (hist : OffsetHist) : ExecSeq × OffsetHist :=
  let seq := s.value st
  let (offset, hist) := doOffsetHistory seq.off seq.ll hist
  (⟨seq.ll, seq.ml, offset⟩, hist)

/-- The bits of the three updates. -/
def updateWidth (s : SeqStates) : Nat := s.ll.numBits + s.ml.numBits + s.off.numBits

/-- The states the bits ahead lead to. -/
def next (s : SeqStates) (t : SeqTables) (st : Stack) : SeqStates where
  ll := readEntry t.ll (s.ll.newState + st.top s.ll.numBits)
  ml := readEntry t.ml (s.ml.newState + (st.rest s.ll.numBits).top s.ml.numBits)
  off := readEntry t.off (s.off.newState + (st.rest (s.ll.numBits + s.ml.numBits)).top s.off.numBits)

end SeqStates

theorem readEntry_mem {t : SeqFSETable} {maxLog : Nat} {ok : SeqSymbol → Prop}
    (h : SeqTableOk t maxLog ok) {e : SeqSymbol} (he : e ∈ t.decode) {v : Nat}
    (hv : v < 2 ^ e.numBits) : readEntry t (e.newState + v) ∈ t.decode := by
  have hlt : e.newState + v < t.decode.length := by
    have := h.inside e he
    omega
  rw [readEntry, List.getD_eq_getElem?_getD, List.getElem?_eq_getElem hlt, Option.getD_some]
  exact List.getElem_mem hlt

theorem SeqStates.In.next {s : SeqStates} {t : SeqTables} (wf : t.WellFormed) (h : s.In t)
    (st : Stack) : (s.next t st).In t where
  ll := readEntry_mem wf.ll h.ll (Stack.top_lt _ _)
  ml := readEntry_mem wf.ml h.ml (Stack.top_lt _ _)
  off := readEntry_mem wf.off h.off (Stack.top_lt _ _)

theorem SeqStates.In.updateWidth_le {s : SeqStates} {t : SeqTables} (wf : t.WellFormed)
    (h : s.In t) : s.updateWidth ≤ t.ll.accuracyLog + t.ml.accuracyLog + t.off.accuracyLog := by
  have hl := wf.ll.bits _ h.ll
  have hm := wf.ml.bits _ h.ml
  have ho := wf.off.bits _ h.off
  unfold SeqStates.updateWidth
  omega

theorem SeqTables.WellFormed.logs_le {t : SeqTables} (wf : t.WellFormed) :
    t.ll.accuracyLog + t.ml.accuracyLog + t.off.accuracyLog ≤ 26 := by
  have hl : t.ll.accuracyLog ≤ 9 := wf.ll.log
  have hm : t.ml.accuracyLog ≤ 9 := wf.ml.log
  have ho : t.off.accuracyLog ≤ 8 := wf.off.log
  omega

section Reads

variable {r : BitReaderReversed} {st : Stack} {m : Int}

/-- The budgeted read takes the next bits. -/
theorem readAdditionalBits_spec {n : Nat} (h : r.Tracks st m) (h0 : 0 < n)
    (hn : r.bitsConsumed + n ≤ 64) :
    (readAdditionalBits r n).1 = st.top n ∧ (readAdditionalBits r n).2.Tracks (st.rest n) (m - n) ∧
      (readAdditionalBits r n).2.bitsConsumed = r.bitsConsumed + n := by
  refine ⟨?_, (h.read (consume_spec h.sound hn)).2, rfl⟩
  have hw := h.sound.window
  rw [h.stack] at hw
  have he : n + (64 - r.bitsConsumed - n) = 64 - r.bitsConsumed := by omega
  have hs : 64 - n = r.bitsConsumed + (64 - r.bitsConsumed - n) := by omega
  have hp : 2 ^ 64 = 2 ^ (64 - r.bitsConsumed) * 2 ^ r.bitsConsumed := by
    rw [← Nat.pow_add]
    congr 1
    omega
  simp only [readAdditionalBits]
  rw [Nat.mod_eq_of_lt (show r.bitsConsumed < 64 by omega), Nat.shiftLeft_eq,
    Nat.shiftRight_eq_div_pow, hp, Nat.mul_mod_mul_right, hw, hs, Nat.pow_add,
    ← Nat.div_div_eq_div_mul, Nat.mul_div_cancel _ (by positivity),
    Stack.top_eq_div _ n (64 - r.bitsConsumed - n), he]

theorem readExtra_spec {n : Nat} (h : r.Tracks st m) (hn : r.bitsConsumed + n ≤ 64) :
    (readExtra r n).1 = st.top n ∧ (readExtra r n).2.Tracks (st.rest n) (m - n) ∧
      (readExtra r n).2.bitsConsumed = r.bitsConsumed + n := by
  unfold readExtra
  by_cases h0 : n = 0
  · subst h0
    simpa using h
  · rw [if_neg h0]
    exact readAdditionalBits_spec h (by omega) hn

theorem updateStateFast_spec {t : SeqFSETable} {e : SeqSymbol} (h : r.Tracks st m)
    (hn : r.bitsConsumed + e.numBits ≤ 64) :
    (updateStateFast t e r).1 = readEntry t (e.newState + st.top e.numBits) ∧
      (updateStateFast t e r).2.Tracks (st.rest e.numBits) (m - e.numBits) ∧
      (updateStateFast t e r).2.bitsConsumed = r.bitsConsumed + e.numBits := by
  obtain ⟨hv, ht⟩ := h.getBitsUnchecked hn
  refine ⟨?_, ht, rfl⟩
  rw [← hv]
  rfl

/-- Three updates whose bits are all in the container. -/
theorem updateStatesFast_spec {t : SeqTables} {s : SeqStates} (h : r.Tracks st m)
    (hn : r.bitsConsumed + s.updateWidth ≤ 64) :
    (updateStatesFast t s r).1 = s.next t st ∧
      (updateStatesFast t s r).2.Tracks (st.rest s.updateWidth) (m - s.updateWidth) := by
  unfold SeqStates.updateWidth at hn
  obtain ⟨e₁, t₁, c₁⟩ := updateStateFast_spec (t := t.ll) (e := s.ll) h (by omega)
  obtain ⟨e₂, t₂, c₂⟩ := updateStateFast_spec (t := t.ml) (e := s.ml) t₁ (by omega)
  obtain ⟨e₃, t₃, c₃⟩ := updateStateFast_spec (t := t.off) (e := s.off) t₂ (by omega)
  rw [Stack.rest_rest] at e₃
  rw [Stack.rest_rest, Stack.rest_rest] at t₃
  refine ⟨?_, ?_⟩
  · simp only [updateStatesFast, SeqStates.next, e₁, e₂, e₃]
  · refine t₃.cast (by rw [SeqStates.updateWidth, Nat.add_assoc]) ?_
    rw [SeqStates.updateWidth]
    push_cast
    ring

end Reads

section Decode

variable {r : BitReaderReversed} {st : Stack} {m : Int} {s : SeqStates} {t : SeqTables}

/-- The look-ahead of the long path. -/
theorem decodeAhead_spec (wf : t.WellFormed) (hs : s.In t) (h : r.Tracks st m)
    (hist : OffsetHist) :
    ∃ r', decodeAhead s r hist = ((s.resolved st hist).1, (s.resolved st hist).2, r') ∧
      r'.Tracks (st.rest s.width) (m - s.width) := by
  have hl := (wf.ll.entry _ hs.ll).1
  have hm : s.ml.numAdditionalBits ≤ 16 := wf.ml.entry _ hs.ml
  have ho : s.off.numAdditionalBits ≤ 31 := (wf.off.entry _ hs.off).1
  have ho' : s.off.numAdditionalBits ≤ 56 := by omega
  have hm' : s.ml.numAdditionalBits ≤ 56 := by omega
  have hl' : s.ll.numAdditionalBits ≤ 56 := by omega
  obtain ⟨hv, ht⟩ := h.getBitsTriple ho' hm' hl'
  refine ⟨_, ?_, ht⟩
  simp only [decodeAhead, decodeOneBody, SeqStates.resolved, SeqStates.value]
  rw [← Prod.mk.eta (p := r.getBitsTriple _ _ _), hv]

/-- A zero literal length shows in the baseline already. -/
theorem value_ll_eq_zero (wf : t.WellFormed) (hs : s.In t) (st : Stack) :
    (s.value st).ll = 0 ↔ s.ll.baseValue = 0 := by
  constructor
  · intro h
    exact (Nat.add_eq_zero_iff.mp h).1
  · intro h
    simp [SeqStates.value, h, (wf.ll.entry _ hs.ll).2 h]

/-- Resolving an offset while its bits are read agrees with resolving its value. -/
theorem resolveOffset_spec (he : OffEntry s.off) (h : r.Tracks st m)
    (hc : r.bitsConsumed + s.off.numAdditionalBits ≤ 64) (litLen llBase : Nat)
    (hll : litLen = 0 ↔ llBase = 0) (hist : OffsetHist) :
    ∃ r', resolveOffset s.off llBase r hist =
        ((doOffsetHistory (s.value st).off litLen hist).1,
          (doOffsetHistory (s.value st).off litLen hist).2, r') ∧
      r'.Tracks (st.rest s.off.numAdditionalBits) (m - s.off.numAdditionalBits) ∧
      r'.bitsConsumed = r.bitsConsumed + s.off.numAdditionalBits := by
  obtain ⟨hw, hb⟩ := he
  unfold resolveOffset
  simp only [SeqStates.value, hb, ← hll]
  rcases Nat.lt_trichotomy s.off.numAdditionalBits 1 with hlt | heq | hgt
  · -- the zero-bit code: the first offset, or the second after no literals
    have h0 : s.off.numAdditionalBits = 0 := by omega
    refine ⟨r, ?_, by simpa [h0] using h, by omega⟩
    by_cases hz : litLen = 0 <;> simp [h0, hz, doOffsetHistory]
  · -- the one-bit code: the two values that name the other offsets
    obtain ⟨hv, ht, hc'⟩ := readAdditionalBits_spec (n := 1) h (by omega) (by omega)
    have hbit : st.top 1 < 2 := by simpa using Stack.top_lt st 1
    refine ⟨(readAdditionalBits r 1).2, ?_, by rw [heq]; exact ht, by rw [heq]; exact hc'⟩
    rw [heq, if_neg (by omega), if_neg (by omega), ← Prod.mk.eta (p := readAdditionalBits r 1), hv]
    by_cases hz : litLen = 0 <;>
      rcases (show st.top 1 = 0 ∨ st.top 1 = 1 by omega) with hb0 | hb0 <;>
      simp [hz, hb0, doOffsetHistory]
  · -- a fresh offset
    obtain ⟨hv, ht, hc'⟩ := readAdditionalBits_spec h (by omega) hc
    refine ⟨(readAdditionalBits r s.off.numAdditionalBits).2, ?_, ht, hc'⟩
    have h4 : 4 ≤ 2 ^ s.off.numAdditionalBits :=
      Nat.pow_le_pow_right (n := 2) (by decide) hgt
    rw [if_pos hgt, ← Prod.mk.eta (p := readAdditionalBits r s.off.numAdditionalBits), hv]
    have h4' : 4 ≤ st.top s.off.numAdditionalBits + 2 ^ s.off.numAdditionalBits := by omega
    simp only [doOffsetHistory, if_pos h4', Nat.add_comm (2 ^ s.off.numAdditionalBits)]

/-- The fused decode of the short path: the same sequence, with room left for the updates. -/
theorem decodeResolved_spec (wf : t.WellFormed) (hs : s.In t) (h : r.Tracks st m)
    (hc : r.bitsConsumed < 8) (hist : OffsetHist) :
    ∃ r', decodeResolved s r hist = ((s.resolved st hist).1, (s.resolved st hist).2, r') ∧
      r'.Tracks (st.rest s.width) (m - s.width) ∧ r'.bitsConsumed + 26 ≤ 64 := by
  have hl := (wf.ll.entry _ hs.ll).1
  have hm : s.ml.numAdditionalBits ≤ 16 := wf.ml.entry _ hs.ml
  have ho : s.off.numAdditionalBits ≤ 31 := (wf.off.entry _ hs.off).1
  obtain ⟨r₁, e₁, t₁, c₁⟩ := resolveOffset_spec (wf.off.entry _ hs.off) h (by omega)
    (s.value st).ll s.ll.baseValue (value_ll_eq_zero wf hs st) hist
  obtain ⟨v₂, t₂, c₂⟩ := readExtra_spec (n := s.ml.numAdditionalBits) t₁ (by omega)
  rw [Stack.rest_rest] at t₂
  -- the refill before the literal length is a matter of room only
  have hr : ∃ r₃, (if 64 < (readExtra r₁ s.ml.numAdditionalBits).2.bitsConsumed +
        (s.ll.numAdditionalBits + 9 + 9 + 8)
      then (readExtra r₁ s.ml.numAdditionalBits).2.refillSequence
      else (readExtra r₁ s.ml.numAdditionalBits).2) = r₃ ∧
      r₃.Tracks (st.rest (s.off.numAdditionalBits + s.ml.numAdditionalBits))
        (m - s.off.numAdditionalBits - s.ml.numAdditionalBits) ∧
      r₃.bitsConsumed + (s.ll.numAdditionalBits + 26) ≤ 64 := by
    refine ⟨_, rfl, ?_⟩
    split_ifs with hfull
    · obtain ⟨t₃, c₃⟩ := t₂.refillSequence
      exact ⟨t₃, by omega⟩
    · exact ⟨t₂, by omega⟩
  obtain ⟨r₃, e₃, t₃, c₃⟩ := hr
  obtain ⟨v₄, t₄, c₄⟩ := readExtra_spec (n := s.ll.numAdditionalBits) t₃ (by omega)
  refine ⟨(readExtra r₃ s.ll.numAdditionalBits).2, ?_, ?_, by omega⟩
  · simp only [decodeResolved, e₁, e₃, v₂, v₄]
    rfl
  · rw [Stack.rest_rest] at t₄
    refine t₄.cast rfl ?_
    rw [SeqStates.width]
    push_cast
    ring

end Decode

/-- The sequences of a stream as a list: `k` of them, the states moved on between any two. -/
def decodeAll (t : SeqTables) :
    Nat → SeqStates → Stack → Int → OffsetHist → List ExecSeq × OffsetHist × Int
  | 0, _, _, m, hist => ([], hist, m)
  | 1, s, st, m, hist => ([(s.resolved st hist).1], (s.resolved st hist).2, m - s.width)
  | k + 2, s, st, m, hist =>
    let st' := st.rest s.width
    let rest := decodeAll t (k + 1) (s.next t st') (st'.rest s.updateWidth)
      (m - s.width - s.updateWidth) (s.resolved st hist).2
    ((s.resolved st hist).1 :: rest.1, rest.2)

section Run

variable {B : Type} [BufferBackend B] {inp : ExecInput} {t : SeqTables}

/-- Execute a list of sequences up to the first that fails. -/
def executeAll (inp : ExecInput) :
    List ExecSeq → ExecState B → Except DecompressBlockError Unit × ExecState B
  | [], exec => (.ok (), exec)
  | seq :: seqs, exec =>
    match executeOneSequencePipelined inp seq exec with
    | (.error e, exec) => (.error e, exec)
    | (.ok _, exec) => executeAll inp seqs exec

/-- A loop ends as executing a list does, with the history and the bit count of its decoding. -/
def EndsAs (loopEnd : LoopEnd B) (run : Except DecompressBlockError Unit × ExecState B)
    (hist : OffsetHist) (m : Int) : Prop :=
  match run with
  | (.error e, exec) => loopEnd = ⟨.error e, exec⟩
  | (.ok _, exec) => ∃ br, br.bitsRemaining = m ∧ loopEnd = ⟨.ok (hist, br), exec⟩

/-- The short path executes every sequence right after its decoding. -/
theorem shortLoop_spec (wf : t.WellFormed) (k : Nat) {s : SeqStates} {r : BitReaderReversed}
    {st : Stack} {m : Int} (hs : 0 < k → s.In t) (h : r.Tracks st m)
    (hc : 0 < k → r.bitsConsumed < 8) (hist : OffsetHist) (exec : ExecState B) :
    EndsAs (shortLoop inp t k s r hist exec) (executeAll inp (decodeAll t k s st m hist).1 exec)
      (decodeAll t k s st m hist).2.1 (decodeAll t k s st m hist).2.2 := by
  induction k generalizing s r st m hist exec with
  | zero => exact ⟨r, h.remaining, rfl⟩
  | succ k ih =>
    obtain ⟨r₁, e₁, t₁, c₁⟩ := decodeResolved_spec wf (hs k.succ_pos) h (hc k.succ_pos) hist
    have hw := (hs k.succ_pos).updateWidth_le wf
    have hlogs := wf.logs_le
    obtain ⟨e₂, t₂⟩ := updateStatesFast_spec (t := t) (s := s) t₁ (by omega)
    obtain ⟨t₃, c₃⟩ := t₂.refillSequence
    cases k with
    | zero =>
      simp only [shortLoop, e₁, decodeAll, executeAll]
      cases hex : executeOneSequencePipelined inp (s.resolved st hist).1 exec with
      | mk result exec' =>
        cases result with
        | error e => simp only [EndsAs]
        | ok _ => exact ⟨r₁, t₁.remaining, rfl⟩
    | succ k =>
      rw [shortLoop]
      simp only [e₁, if_pos k.succ_pos, e₂, decodeAll, executeAll]
      cases hex : executeOneSequencePipelined inp (s.resolved st hist).1 exec with
      | mk result exec' =>
        cases result with
        | error e => simp only [EndsAs]
        | ok _ => exact ih (fun _ => (hs (by omega)).next wf _) t₃ (fun _ => c₃) _ exec'

theorem and_advanceMask (i : Nat) : i &&& advanceMask = i % advance :=
  Nat.and_two_pow_sub_one_eq_mod i 3

/-- Draining executes what the ring still holds, oldest first. -/
theorem drainRing_spec {ring : List ExecSeq} {k i : Nat} {pending : List ExecSeq}
    (hk : pending.length = k) (hw : ∀ j < k, ring[(i + j) % advance]? = pending[j]?) (exec : ExecState B) :
    drainRing inp ring k i exec = executeAll inp pending exec := by
  induction k generalizing i pending exec with
  | zero =>
    rw [List.length_eq_zero_iff.mp hk]
    rfl
  | succ k ih =>
    obtain ⟨x, xs, rfl⟩ := List.exists_cons_of_length_eq_add_one hk
    have hx : ring.getD (i % advance) {} = x := by
      have := hw 0 k.succ_pos
      rw [Nat.add_zero] at this
      simp [List.getD_eq_getElem?_getD, this]
    rw [drainRing, executeAll, and_advanceMask, hx]
    cases executeOneSequencePipelined inp x exec with
    | mk result exec' =>
      cases result with
      | error e => rfl
      | ok _ =>
        refine ih (by simpa using hk) (fun j hj => ?_) exec'
        have := hw (j + 1) (by omega)
        rw [List.getElem?_cons_succ] at this
        rw [← this, Nat.add_assoc, Nat.add_comm 1 j]

/-- The long path executes the pending sequences before the ones it decodes. -/
theorem longLoop_spec (wf : t.WellFormed) {maxUpdateBits : Nat}
    (hmax : maxUpdateBits = t.ll.accuracyLog + t.ml.accuracyLog + t.off.accuracyLog) (k : Nat)
    {i : Nat} {ring pending : List ExecSeq} {s : SeqStates} {r : BitReaderReversed} {st : Stack}
    {m : Int} (hlen : ring.length = advance) (hring : Ring.Window ring i pending)
    (hs : 0 < k → s.In t) (h : r.Tracks st m) (hist : OffsetHist) (exec : ExecState B) :
    EndsAs (longLoop inp t maxUpdateBits k i ring s r hist exec)
      (executeAll inp (pending ++ (decodeAll t k s st m hist).1) exec)
      (decodeAll t k s st m hist).2.1 (decodeAll t k s st m hist).2.2 := by
  induction k generalizing i ring pending s r st m hist exec with
  | zero =>
    have hslot := hring.slot
    rw [hlen] at hslot
    rw [longLoop, drainRing_spec (hring.length.trans hlen) hslot]
    simp only [decodeAll, List.append_nil]
    cases executeAll inp pending exec with
    | mk result exec' =>
      cases result with
      | error e => simp only [EndsAs]
      | ok _ => exact ⟨r, h.remaining, rfl⟩
  | succ k ih =>
    have hin := hs k.succ_pos
    obtain ⟨r₁, e₁, t₁⟩ := decodeAhead_spec wf hin h hist
    obtain ⟨x, xs, rfl⟩ : ∃ x xs, pending = x :: xs :=
      List.exists_cons_of_length_eq_add_one (hring.length.trans hlen)
    have hx : ring.getD (i % advance) {} = x := by
      have := hring.head
      rw [hlen] at this
      simp [List.getD_eq_getElem?_getD, this]
    have hpush := hring.push (s.resolved st hist).1
    rw [hlen] at hpush
    have hwidth := hin.updateWidth_le wf
    have hlogs := wf.logs_le
    obtain ⟨t₂, c₂⟩ := t₁.ensureBits (n := maxUpdateBits) (by omega)
    obtain ⟨e₃, t₃⟩ := updateStatesFast_spec (t := t) (s := s) t₂ (by omega)
    rw [longLoop]
    simp only [e₁, and_advanceMask, hx, List.cons_append, executeAll]
    cases executeOneSequencePipelined inp x exec with
    | mk result exec' =>
      cases result with
      | error e => simp only [EndsAs]
      | ok _ =>
        cases k with
        | zero =>
          have := ih (by simpa using hlen) hpush (s := s) (fun h => absurd h (by decide)) t₁
            (s.resolved st hist).2 exec'
          simpa only [decodeAll, List.append_nil, if_neg (Nat.lt_irrefl 0)] using this
        | succ k =>
          have := ih (by simpa using hlen) hpush (fun _ => hin.next wf (st.rest s.width)) t₃
            (s.resolved st hist).2 exec'
          simp only [if_pos k.succ_pos, e₃, decodeAll]
          rwa [List.append_assoc, List.singleton_append] at this

/-- The prologue decodes the first sequences of the list. -/
theorem fillRing_spec (wf : t.WellFormed) {maxUpdateBits : Nat}
    (hmax : maxUpdateBits = t.ll.accuracyLog + t.ml.accuracyLog + t.off.accuracyLog) (j : Nat)
    {s : SeqStates} {r : BitReaderReversed} {st : Stack} {m : Int} (hs : s.In t)
    (h : r.Tracks st m) (hist : OffsetHist) :
    ∃ ring s' r' hist' st' m', fillRing t maxUpdateBits j s r hist = (ring, s', r', hist') ∧
      ring.length = j ∧ s'.In t ∧ r'.Tracks st' m' ∧
      ∀ k, 0 < k → decodeAll t (j + k) s st m hist =
        (ring ++ (decodeAll t k s' st' m' hist').1, (decodeAll t k s' st' m' hist').2) := by
  induction j generalizing s r st m hist with
  | zero => exact ⟨[], s, r, hist, st, m, rfl, rfl, hs, h, fun k _ => by simp⟩
  | succ j ih =>
    obtain ⟨r₁, e₁, t₁⟩ := decodeAhead_spec wf hs h hist
    have hwidth := hs.updateWidth_le wf
    have hlogs := wf.logs_le
    obtain ⟨t₂, c₂⟩ := t₁.ensureBits (n := maxUpdateBits) (by omega)
    obtain ⟨e₃, t₃⟩ := updateStatesFast_spec (t := t) (s := s) t₂ (by omega)
    obtain ⟨ring, s', r', hist', st', m', e₄, hlen, hs', ht', hall⟩ :=
      ih (hs.next wf (st.rest s.width)) t₃ (s.resolved st hist).2
    refine ⟨(s.resolved st hist).1 :: ring, s', r', hist', st', m', ?_, by simp [hlen], hs', ht',
      fun k hk => ?_⟩
    · simp only [fillRing, e₁, e₃, e₄]
    · obtain ⟨n, hn⟩ : ∃ n, j + k = n + 1 := ⟨j + k - 1, by omega⟩
      have he : j + 1 + k = n + 2 := by omega
      rw [he, decodeAll, ← hn, hall k hk]
      rfl

theorem decodeLongSequences_spec (wf : t.WellFormed) {n : Nat} (hn : advance < n) {s : SeqStates}
    {r : BitReaderReversed} {st : Stack} {m : Int} (hs : s.In t) (h : r.Tracks st m)
    (hist : OffsetHist) (exec : ExecState B) :
    EndsAs (decodeLongSequences inp t
        (t.ll.accuracyLog + t.ml.accuracyLog + t.off.accuracyLog) n s r hist exec)
      (executeAll inp (decodeAll t n s st m hist).1 exec)
      (decodeAll t n s st m hist).2.1 (decodeAll t n s st m hist).2.2 := by
  obtain ⟨ring, s', r', hist', st', m', e, hlen, hs', ht', hall⟩ :=
    fillRing_spec wf rfl advance hs h hist
  have hsplit := hall (n - advance) (by omega)
  rw [Nat.add_sub_cancel' (Nat.le_of_lt hn)] at hsplit
  rw [hsplit]
  simp only [decodeLongSequences, e]
  have hwin := Ring.window_start ring
  rw [hlen] at hwin
  exact longLoop_spec wf rfl (n - advance) hlen hwin (fun _ => hs') ht' hist' exec

/-- After the loop only the bit count of the reader matters. -/
theorem finishSequences_congr {r r' : BitReaderReversed} (h : r.bitsRemaining = r'.bitsRemaining)
    (cp : DecodeBufferCheckpoint) (saved hist : OffsetHist) (exec : ExecState B) :
    finishSequences inp cp saved hist r exec = finishSequences inp cp saved hist r' exec := by
  simp only [finishSequences, h]

/-- Loops that end alike leave the block alike. -/
theorem runSequences_congr {setup : SeqStreamSetup} {buffer : DecodeBuffer B} {hist : OffsetHist}
    {run : Except DecompressBlockError Unit × ExecState B} {hist' : OffsetHist} {m : Int}
    (hlong : EndsAs (decodeLongSequences inp setup.tables setup.maxUpdateBits setup.numSequences
      setup.states setup.br hist ⟨buffer, 0⟩) run hist' m)
    (hshort : EndsAs (shortLoop inp setup.tables setup.numSequences setup.states
      setup.br.refillSequence hist ⟨buffer, 0⟩) run hist' m) :
    runSequences true setup inp buffer hist = runSequences false setup inp buffer hist := by
  obtain ⟨result, exec⟩ := run
  unfold runSequences
  cases result with
  | error e =>
    have hl : _ = LoopEnd.mk (.error e) exec := hlong
    have hs : _ = LoopEnd.mk (.error e) exec := hshort
    simp only [hl, hs, if_true, Bool.false_eq_true, if_false]
  | ok _ =>
    obtain ⟨r, hr, hl⟩ := hlong
    obtain ⟨r', hr', hs⟩ := hshort
    simp only [hl, hs, if_true, Bool.false_eq_true, if_false]
    exact finishSequences_congr (hr.trans hr'.symm) _ _ _ _

/-- A first state that is read lies in its table. -/
theorem initState_mem {t : SeqFSETable} {maxLog : Nat} {ok : SeqSymbol → Prop}
    (h : SeqTableOk t maxLog ok) (hlog : maxLog ≤ 56) {r : BitReaderReversed} {st : Stack}
    {m : Int} (hr : r.Tracks st m) :
    ∃ e r', initState t r = .ok (e, r') ∧ e ∈ t.decode ∧ ∃ st' m', r'.Tracks st' m' := by
  have hlen : t.decode.length = 1 <<< t.accuracyLog := by rw [h.size, Nat.one_shiftLeft]
  obtain ⟨hv, ht⟩ := hr.getBits (n := t.accuracyLog) (h.log.trans hlog)
  refine ⟨readEntry t (r.getBits t.accuracyLog).1, (r.getBits t.accuracyLog).2, ?_, ?_, _, _, ht⟩
  · have hpos : ¬ t.decode.length = 0 := by
      rw [h.size]
      positivity
    rw [initState, if_neg hpos, if_neg (not_not_intro hlen)]
  · have hlt : (r.getBits t.accuracyLog).1 < t.decode.length := by
      rw [hv, h.size]
      exact Stack.top_lt _ _
    rw [readEntry, List.getD_eq_getElem?_getD, List.getElem?_eq_getElem hlt, Option.getD_some]
    exact List.getElem_mem hlt

/-- The preamble leaves the decoders inside their tables and a sound reader. -/
theorem initStates_spec (wf : t.WellFormed) {bitStream : List UInt8} {s : SeqStates}
    {r : BitReaderReversed} (h : initStates t bitStream = .ok (s, r)) :
    s.In t ∧ ∃ st m, r.Tracks st m := by
  obtain ⟨st₀, m₀, h₀⟩ := skipPaddingLoop_tracks 9 0 (new_sound bitStream).tracks
  obtain ⟨ll, r₁, e₁, m₁, _, _, t₁⟩ := initState_mem wf.ll (by decide) h₀
  obtain ⟨off, r₂, e₂, m₂, _, _, t₂⟩ := initState_mem wf.off (by decide) t₁
  obtain ⟨ml, r₃, e₃, m₃, _, _, t₃⟩ := initState_mem wf.ml (by decide) t₂
  unfold initStates skipPadding at h
  simp only [e₁, e₂, e₃] at h
  split_ifs at h
  cases h
  exact ⟨⟨m₁, m₃, m₂⟩, _, _, t₃⟩

/-- Decode a section's stream with given tables along one of the two paths. -/
def decodeVia (useLongPipeline : Bool) (t : SeqTables) (bitStream : List UInt8) (n : Nat)
    (inp : ExecInput) (buffer : DecodeBuffer B) (hist : OffsetHist) :
    Except DecompressBlockError Unit × DecodeBuffer B × OffsetHist :=
  match initStates t bitStream with
  | .error e => (.error (.decodeSequenceError e), buffer, hist)
  | .ok (s, r) =>
    runSequences useLongPipeline
      { br := r
        tables := t
        states := s
        maxUpdateBits := t.ll.accuracyLog + t.ml.accuracyLog + t.off.accuracyLog
        numSequences := n
        useLongPipeline := useLongPipeline } inp buffer hist

theorem decodeVia_eq (wf : t.WellFormed) {n : Nat} (hn : advance < n) (bitStream : List UInt8)
    (buffer : DecodeBuffer B) (hist : OffsetHist) :
    decodeVia true t bitStream n inp buffer hist =
      decodeVia false t bitStream n inp buffer hist := by
  unfold decodeVia
  cases h : initStates t bitStream with
  | error e => rfl
  | ok sr =>
    obtain ⟨s, r⟩ := sr
    obtain ⟨hs, st, m, ht⟩ := initStates_spec wf h
    obtain ⟨ht', hc⟩ := ht.refillSequence
    exact runSequences_congr (decodeLongSequences_spec wf hn hs ht hist ⟨buffer, 0⟩)
      (shortLoop_spec wf n (fun _ => hs) ht' (fun _ => hc) hist ⟨buffer, 0⟩)

theorem computeUseLongPipeline_advance {n : Nat} {cold : Bool} {history share : Nat}
    (h : computeUseLongPipeline n cold history share = true) : advance < n := by
  have h2 := (of_decide_eq_true h).1
  unfold advance at h2 ⊢
  omega

/-- The two paths agree on every stream: the same outcome, output and offset history, for every
sequence count the ring can serve, and so whichever path the gate picks. -/
theorem sequence_paths_agree (wf : t.WellFormed) (bitStream : List UInt8) (n : Nat)
    (inp : ExecInput) (buffer : DecodeBuffer B) (hist : OffsetHist) :
    (advance < n → decodeVia true t bitStream n inp buffer hist =
      decodeVia false t bitStream n inp buffer hist) ∧
    ∀ cold history share,
      decodeVia (computeUseLongPipeline n cold history share) t bitStream n inp buffer hist =
        decodeVia false t bitStream n inp buffer hist := by
  refine ⟨fun hn => decodeVia_eq wf hn bitStream buffer hist, fun cold history share => ?_⟩
  cases hgate : computeUseLongPipeline n cold history share with
  | false => rfl
  | true => exact decodeVia_eq wf (computeUseLongPipeline_advance hgate) bitStream buffer hist

end Run

/-- Three one-state tables: one literal, a match of three, an offset of one to four. -/
def rleSample : SeqTables where
  ll := llAxis.enrich ((FSETableImpl.new maxLiteralLengthCode).buildRle 1)
  ml := mlAxis.enrich ((FSETableImpl.new maxMatchLengthCode).buildRle 0)
  off := ofAxis.enrich ((FSETableImpl.new maxOffsetCode).buildRle 2)

def bufferSample : DecodeBuffer FlatBuf := (DecodeBuffer.new 1024).reserveForBlock 1024

theorem sequence_paths_agree_sample :
    rleSample.WellFormed ∧
    (decodeVia false rleSample [0, 0, 4] 9 ⟨[], List.replicate 9 7, 9⟩ bufferSample .initial).1 =
      .ok () ∧
    decodeVia true rleSample [0, 0, 4] 9 ⟨[], List.replicate 9 7, 9⟩ bufferSample .initial =
      decodeVia false rleSample [0, 0, 4] 9 ⟨[], List.replicate 9 7, 9⟩ bufferSample .initial := by
  have wf : rleSample.WellFormed :=
    ⟨⟨rfl, by decide, by decide, by decide, by decide⟩,
      ⟨rfl, by decide, by decide, by decide, by decide⟩,
      ⟨rfl, by decide, by decide, by decide, by decide⟩⟩
  exact ⟨wf, by decide +kernel, (sequence_paths_agree wf _ 9 _ _ _).1 (by decide)⟩

end Decoding
