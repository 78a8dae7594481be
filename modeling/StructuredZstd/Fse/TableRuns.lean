import StructuredZstd.Fse.FseDecoder
import Mathlib.Tactic.NormNum

namespace Fse.Decoder

open Bits BitIo

/-- What an entry is made with is what it holds, and the data of a sequence leaves it alone. -/
class LawfulEntry (E : Type) [FseEntry E] : Prop where
  numBits_fromRaw : ∀ n s b, FseEntry.numBits (FseEntry.fromRaw n s b : E) = b
  newState_fromRaw : ∀ n s b, FseEntry.newState (FseEntry.fromRaw n s b : E) = n
  numBits_withSeqMeta : ∀ (e : E) v a, FseEntry.numBits (FseEntry.withSeqMeta e v a) =
    FseEntry.numBits e
  newState_withSeqMeta : ∀ (e : E) v a, FseEntry.newState (FseEntry.withSeqMeta e v a) =
    FseEntry.newState e

instance : LawfulEntry Entry := ⟨fun _ _ _ => rfl, fun _ _ _ => rfl, fun _ _ _ => rfl,
  fun _ _ _ => rfl⟩

instance : LawfulEntry SeqSymbol := ⟨fun _ _ _ => rfl, fun _ _ _ => rfl, fun _ _ _ => rfl,
  fun _ _ _ => rfl⟩

section Spread

theorem placeLowProb_length (probs : List Int) (symbol : Nat) (spread : List Nat)
    (negativeIdx : Nat) (next : List Nat) :
    (placeLowProb probs symbol spread negativeIdx next).1.length = spread.length := by
  induction probs generalizing symbol spread negativeIdx next with
  | nil => rfl
  | cons p probs ih =>
    rw [placeLowProb]
    split
    · rw [ih, List.length_set]
    · rw [ih]

theorem distributePairs_length (tableSize : Nat) (inOrder : List Nat) (k s position : Nat)
    (spread : List Nat) :
    (distributePairs tableSize inOrder k s position spread).length = spread.length := by
  induction k generalizing s position spread with
  | zero => rfl
  | succ k ih => rw [distributePairs, ih, List.length_set, List.length_set]

theorem spreadRun_length (tableSize negativeIdx symbol n position : Nat) (spread : List Nat) :
    (spreadRun tableSize negativeIdx symbol n position spread).2.length = spread.length := by
  induction n generalizing position spread with
  | zero => rfl
  | succ n ih => rw [spreadRun, ih, List.length_set]

theorem spreadAround_length (tableSize negativeIdx : Nat) (probs : List Int)
    (symbol position : Nat) (spread next : List Nat) :
    (spreadAround tableSize negativeIdx probs symbol position spread next).1.length =
      spread.length := by
  induction probs generalizing symbol position spread next with
  | nil => rfl
  | cons p probs ih =>
    rw [spreadAround]
    split
    · rw [ih]
    · rw [ih, spreadRun_length]

theorem spreadSymbols_length (probs : List Int) (tableSize : Nat) :
    (spreadSymbols probs tableSize).1.length = tableSize := by
  have hlow := placeLowProb_length probs 0 (List.replicate tableSize 0) tableSize
    (List.replicate 256 0)
  rw [List.length_replicate] at hlow
  simp only [spreadSymbols]
  split
  · rw [distributePairs_length, hlow]
  · rw [spreadAround_length, hlow]

/-- Every counter stays under a bound. -/
def CountersLe (bound : Nat) (next : List Nat) : Prop := ∀ s, next.getD s 0 ≤ bound

theorem CountersLe.set {bound : Nat} {next : List Nat} (h : CountersLe bound next) {s n : Nat}
    (hn : n ≤ bound) : CountersLe bound (next.set s n) := by
  intro k
  rw [List.getD_eq_getElem?_getD, List.getElem?_set]
  split
  · split
    · exact hn
    · exact Nat.zero_le _
  · rw [← List.getD_eq_getElem?_getD]
    exact h k

variable {bound : Nat}

theorem placeLowProb_counters (hb : 1 ≤ bound) (probs : List Int) (symbol : Nat)
    (spread : List Nat) (negativeIdx : Nat) {next : List Nat} (h : CountersLe bound next) :
    CountersLe bound (placeLowProb probs symbol spread negativeIdx next).2.2 := by
  induction probs generalizing symbol spread negativeIdx next with
  | nil => exact h
  | cons p probs ih =>
    rw [placeLowProb]
    split
    · exact ih _ _ _ (h.set hb)
    · exact ih _ _ _ h

theorem layInOrder_counters (probs : List Int) (hp : ∀ p ∈ probs, p.toNat ≤ bound) (symbol : Nat)
    (inOrder : List Nat) (pos : Nat) {next : List Nat} (h : CountersLe bound next) :
    CountersLe bound (layInOrder probs symbol inOrder pos next).2 := by
  induction probs generalizing symbol inOrder pos next with
  | nil => exact h
  | cons p probs ih =>
    have hrest : ∀ q ∈ probs, q.toNat ≤ bound := fun q hq => hp q (List.mem_cons_of_mem p hq)
    rw [layInOrder]
    split
    · exact ih hrest _ _ _ h
    · exact ih hrest _ _ _ (h.set (hp p List.mem_cons_self))

theorem spreadAround_counters (tableSize negativeIdx : Nat) (probs : List Int)
    (hp : ∀ p ∈ probs, p.toNat ≤ bound) (symbol position : Nat) (spread : List Nat)
    {next : List Nat} (h : CountersLe bound next) :
    CountersLe bound (spreadAround tableSize negativeIdx probs symbol position spread next).2 := by
  induction probs generalizing symbol position spread next with
  | nil => exact h
  | cons p probs ih =>
    have hrest : ∀ q ∈ probs, q.toNat ≤ bound := fun q hq => hp q (List.mem_cons_of_mem p hq)
    rw [spreadAround]
    split
    · exact ih hrest _ _ _ h
    · exact ih hrest _ _ _ (h.set (hp p List.mem_cons_self))

theorem spreadSymbols_counters (hb : 1 ≤ bound) (probs : List Int)
    (hp : ∀ p ∈ probs, p.toNat ≤ bound) (tableSize : Nat) :
    CountersLe bound (spreadSymbols probs tableSize).2 := by
  have hzero : CountersLe bound (List.replicate 256 0) := by
    intro s
    rw [List.getD_eq_getElem?_getD, List.getElem?_replicate]
    split
    · exact Nat.zero_le _
    · exact Nat.zero_le _
  have hlow := placeLowProb_counters hb probs 0 (List.replicate tableSize 0) tableSize hzero
  simp only [spreadSymbols]
  split
  · exact layInOrder_counters probs hp _ _ _ hlow
  · exact spreadAround_counters tableSize _ probs hp _ _ _ hlow

end Spread

section Entries

variable {E : Type} [FseEntry E] [LawfulEntry E]

/-- An entry whose next states all lie among the first `n`. -/
def Inside (n : Nat) (e : E) : Prop := FseEntry.newState e + 2 ^ FseEntry.numBits e ≤ n

theorem Inside.enrich {n : Nat} {e : E} (h : Inside n e) (symbol : Nat) (seqMeta : SeqMeta) :
    Inside n (Decoder.enrich e symbol seqMeta) := by
  unfold Inside at h ⊢
  unfold Decoder.enrich
  split
  · exact h
  · rwa [LawfulEntry.newState_withSeqMeta, LawfulEntry.numBits_withSeqMeta]
  · split
    · rwa [LawfulEntry.newState_withSeqMeta, LawfulEntry.numBits_withSeqMeta]
    · exact h

/-- A width that passes the gate comes from a counter between one and twice the table. -/
theorem gate_passed {accLog next nb : Nat} (ha : accLog ≤ 16) (hn : next < 2 ^ 32)
    (hnb : nb = (2 ^ 32 + (accLog + 1) - highestBitSet next) % 2 ^ 32 % 256) (hle : nb ≤ accLog) :
    2 ^ accLog ≤ next <<< nb ∧ next <<< nb + 2 ^ nb ≤ 2 * 2 ^ accLog := by
  have hne : next ≠ 0 := by
    rintro rfl
    rw [highestBitSet, if_pos rfl] at hnb
    omega
  have hlog : Nat.log2 next < 32 := (Nat.log2_lt hne).mpr hn
  rw [highestBitSet, if_neg hne] at hnb
  have heq : nb + Nat.log2 next = accLog := by omega
  have hlo : 2 ^ Nat.log2 next ≤ next := Nat.log2_self_le hne
  have hhi : next + 1 ≤ 2 ^ (Nat.log2 next + 1) := Nat.lt_log2_self
  rw [Nat.shiftLeft_eq]
  constructor
  · calc 2 ^ accLog = 2 ^ Nat.log2 next * 2 ^ nb := by rw [← heq, Nat.pow_add, Nat.mul_comm]
      _ ≤ next * 2 ^ nb := Nat.mul_le_mul_right _ hlo
  · calc next * 2 ^ nb + 2 ^ nb = (next + 1) * 2 ^ nb := by rw [Nat.succ_mul]
      _ ≤ 2 ^ (Nat.log2 next + 1) * 2 ^ nb := Nat.mul_le_mul_right _ hhi
      _ = 2 * 2 ^ accLog := by rw [← heq, Nat.pow_add, Nat.pow_succ]; ring

/-- The build gives one entry to every state, and none that leads out of the table. -/
theorem buildEntries_inside {probs : List Int} {accLog : Nat} {seqMeta : SeqMeta}
    (ha : accLog ≤ 16) {spread next : List Nat} {entries : List E}
    (hnext : ∀ s, next.getD s 0 + spread.length < 2 ^ 32)
    (h : buildEntries probs accLog seqMeta spread next = .ok entries) :
    entries.length = spread.length ∧ ∀ e ∈ entries, Inside (2 ^ accLog) e := by
  induction spread generalizing next entries with
  | nil =>
    cases h
    exact ⟨rfl, by simp⟩
  | cons symbol spread ih =>
    have hcur : next.getD symbol 0 < 2 ^ 32 := by
      have := hnext symbol
      omega
    rw [buildEntries] at h
    split at h
    · cases h
    · rename_i hgate
      obtain ⟨hlo, hhi⟩ := gate_passed ha hcur rfl (Nat.le_of_not_lt hgate)
      simp only [bind, Except.bind, pure, Except.pure] at h
      split at h
      · cases h
      · rename_i rest hrest
        cases h
        obtain ⟨hlen, hin⟩ := @ih (next.set symbol (next.getD symbol 0 + 1)) rest (by
          intro s
          have hone := hnext s
          have hsym := hnext symbol
          rw [List.length_cons] at hone hsym
          rw [List.getD_eq_getElem?_getD, List.getElem?_set]
          split
          · split
            · rw [Option.getD_some]
              omega
            · rw [Option.getD_none]
              omega
          · rw [← List.getD_eq_getElem?_getD]
            omega) hrest
        refine ⟨by rw [List.length_cons, List.length_cons, hlen], fun e he => ?_⟩
        rcases List.mem_cons.mp he with rfl | he
        · refine Inside.enrich ?_ symbol seqMeta
          unfold Inside
          rw [LawfulEntry.newState_fromRaw, LawfulEntry.numBits_fromRaw, Nat.one_shiftLeft]
          have hmod := Nat.mod_le (next.getD symbol 0 <<<
            ((2 ^ 32 + (accLog + 1) - highestBitSet (next.getD symbol 0)) % 2 ^ 32 % 256) -
              2 ^ accLog) (2 ^ 16)
          omega
        · exact hin e he

end Entries

section Header

theorem fieldAt_lt (source : List UInt8) (bitPos n : Nat) : fieldAt source bitPos n < 2 ^ n := by
  rw [fieldAt, Nat.one_shiftLeft, Nat.and_two_pow_sub_one_eq_mod]
  exact Nat.mod_lt _ (Nat.two_pow_pos n)

theorem readBits_lt {source : List UInt8} {bitPos n v : Nat}
    (h : readBits source bitPos n = .ok v) : v < 2 ^ n := by
  simp only [readBits] at h
  split at h
  · cases h
  · cases h
    exact fieldAt_lt source bitPos n

theorem readSkips_le {bound : Int} (hb : 0 ≤ bound) {source : List UInt8} {maxSymbols : Nat}
    (fuel bitPos : Nat) {probs : List Int} (h : ∀ p ∈ probs, p ≤ bound) :
    ∀ p ∈ (readSkips source maxSymbols fuel bitPos probs).2, p ≤ bound := by
  induction fuel generalizing bitPos probs with
  | zero => exact h
  | succ fuel ih =>
    have hmore : ∀ n, ∀ p ∈ probs ++ List.replicate n (0 : Int), p ≤ bound := by
      intro n p hp
      rcases List.mem_append.mp hp with hp | hp
      · exact h p hp
      · rw [List.eq_of_mem_replicate hp]
        exact hb
    rw [readSkips]
    split
    · exact h
    · split
      · exact h
      · split
        · exact hmore _
        · exact ih _ (hmore _)

/-- A field never stands for more than it holds. -/
theorem unfoldValue_le (maxRemainingValue v : Nat) : (unfoldValue maxRemainingValue v).1 ≤ v := by
  simp only [unfoldValue]
  split
  · exact Nat.and_le_left
  · split
    · exact Nat.sub_le _ _
    · exact Nat.le_refl _

/-- The probabilities a header can name are small, whether or not all of it is read. -/
theorem readProbabilityLoop_le {source : List UInt8} {maxSymbols probabilitySum : Nat}
    (hsum : probabilitySum ≤ 2 ^ 16) (fuel bitPos counter : Nat) {probs : List Int}
    (h : ∀ p ∈ probs, p ≤ 2 ^ 18) :
    ∀ p ∈ (readProbabilityLoop source maxSymbols probabilitySum fuel bitPos counter probs).2,
      p ≤ 2 ^ 18 := by
  induction fuel generalizing bitPos counter probs with
  | zero => exact h
  | succ fuel ih =>
    have hwidth : highestBitSet (probabilitySum - counter + 1) ≤ 18 := by
      rw [highestBitSet, if_neg (Nat.succ_ne_zero _)]
      have : Nat.log2 (probabilitySum - counter + 1) < 18 :=
        (Nat.log2_lt (Nat.succ_ne_zero _)).mpr (by omega)
      omega
    by_cases hcounter : counter < probabilitySum
    · rw [readProbabilityLoop, if_pos hcounter]
      cases hv : readBits source bitPos (highestBitSet (probabilitySum - counter + 1)) with
      | error e =>
        dsimp only
        rw [hv]
        exact h
      | ok v =>
        have hle := unfoldValue_le (probabilitySum - counter + 1) v
        have hvlt : v < 2 ^ 18 :=
          Nat.lt_of_lt_of_le (readBits_lt hv) (Nat.pow_le_pow_right (by decide) hwidth)
        have hmore : ∀ p ∈ probs ++
            [((unfoldValue (probabilitySum - counter + 1) v).1 : Int) - 1], p ≤ 2 ^ 18 := by
          intro p hp
          rcases List.mem_append.mp hp with hp | hp
          · exact h p hp
          · rw [List.mem_singleton.mp hp]
            omega
        dsimp only
        rw [hv]
        dsimp only
        split
        · exact h
        · split
          · exact ih _ _ hmore
          · have hskips := @readSkips_le (2 ^ 18) (by norm_num) source maxSymbols (maxSymbols + 1)
              (bitPos + (unfoldValue (probabilitySum - counter + 1) v).2) _ hmore
            split
            · rename_i hs
              rw [hs] at hskips
              exact hskips
            · rename_i hs
              rw [hs] at hskips
              exact ih _ _ hskips
    · rw [readProbabilityLoop, if_neg hcounter]
      split
      · exact h
      · exact h

end Header

section Operations

variable {E : Type} [FseEntry E] {cap : Nat}

namespace FSETableImpl

/-- The invariant: no live entry leads out of the live entries. -/
def Live (t : FSETableImpl E cap) : Prop := ∀ e ∈ t.decode, Inside t.decode.length e

/-- Decoding reads the live entries and the accuracy log; the rest is scratch of the build. -/
def DecodesAs (t t' : FSETableImpl E cap) : Prop :=
  t'.decode = t.decode ∧ t'.accuracyLog = t.accuracyLog

/-- A table on which a stream can be started. -/
def Starts (t : FSETableImpl E cap) : Prop :=
  t.decode.length ≠ 0 ∧ t.decode.length = 2 ^ t.accuracyLog

theorem reset_live (t : FSETableImpl E cap) : t.reset.Live := by
  intro e he
  cases he

end FSETableImpl

theorem initState_error_iff {t : FSETableImpl E cap} {r : BitReaderReversed} :
    (∃ e, initState t r = .error e) ↔ ¬t.Starts := by
  unfold initState FSETableImpl.Starts
  split
  · rename_i h
    exact ⟨fun _ hs => hs.1 h, fun _ => ⟨_, rfl⟩⟩
  · rename_i h
    rw [Nat.one_shiftLeft]
    split
    · rename_i hne
      exact ⟨fun _ hs => hne hs.2, fun _ => ⟨_, rfl⟩⟩
    · rename_i heq
      refine ⟨fun ⟨_, he⟩ => ?_, fun hs => (hs ⟨h, not_not.mp heq⟩).elim⟩
      cases he

/-- The accuracy log a header leaves behind, read or not. -/
def headerLog (source : List UInt8) : Nat :=
  match readBits source 0 4 with
  | .error _ => 0
  | .ok log => accLogOffset + log

/-- Whether a build gets past its header. -/
def headerRead (t : FSETableImpl E cap) (source : List UInt8) (maxLog : Nat) :
    Except FSETableError Nat :=
  ({ t with accuracyLog := 0 } : FSETableImpl E cap).readProbabilities source
    (min maxLog entryMaxAccuracyLog) |>.1

omit [FseEntry E] in
/-- The header read leaves the entries alone and takes the log of the header. -/
theorem readProbabilities_keeps (t : FSETableImpl E cap) (source : List UInt8) (maxLog : Nat)
    (h0 : t.accuracyLog = 0) :
    (t.readProbabilities source maxLog).2.decode = t.decode ∧
      (t.readProbabilities source maxLog).2.accuracyLog = headerLog source := by
  cases hlog : readBits source 0 4 with
  | error e =>
    simp only [FSETableImpl.readProbabilities, headerLog, hlog]
    exact ⟨trivial, h0⟩
  | ok log =>
    simp only [FSETableImpl.readProbabilities, headerLog, hlog]
    split
    · exact ⟨rfl, rfl⟩
    · split
      · exact ⟨rfl, rfl⟩
      · split
        · exact ⟨rfl, rfl⟩
        · split
          · exact ⟨rfl, rfl⟩
          · exact ⟨rfl, rfl⟩

omit [FseEntry E] in
theorem readProbabilities_ok {t : FSETableImpl E cap} {source : List UInt8} {maxLog n : Nat}
    (h : (t.readProbabilities source maxLog).1 = .ok n) :
    (t.readProbabilities source maxLog).2.accuracyLog ≤ 16 ∧
      ∀ p ∈ (t.readProbabilities source maxLog).2.symbolProbabilities, p ≤ 2 ^ 18 := by
  cases hlog : readBits source 0 4 with
  | error e =>
    simp only [FSETableImpl.readProbabilities, hlog] at h
    cases h
  | ok log =>
    simp only [FSETableImpl.readProbabilities, hlog] at h ⊢
    split at h
    · cases h
    · rename_i hbig
      have hle : accLogOffset + log ≤ 16 := Nat.le_of_not_lt hbig
      have hsum : 1 <<< (accLogOffset + log) ≤ 2 ^ 16 := by
        rw [Nat.one_shiftLeft]
        exact Nat.pow_le_pow_right (by decide) hle
      have hsmall := @readProbabilityLoop_le source (t.maxSymbol + 1) _ hsum (t.maxSymbol + 2) 4 0
        [] (by intro p hp; cases hp)
      rw [if_neg hbig]
      split at h
      · cases h
      · rename_i hmax
        rw [if_neg hmax]
        split at h
        · cases h
        · rename_i hzero
          rw [if_neg hzero]
          split at h
          · cases h
          · rename_i hloop
            rw [hloop] at hsmall
            exact ⟨hle, hsmall⟩

section Built

variable [LawfulEntry E]

/-- A build from bounded probabilities fills the table to its size, or empties it. -/
theorem buildDecodingTableMeta_cases {t : FSETableImpl E cap} (seqMeta : SeqMeta)
    (ha : t.accuracyLog ≤ 16) (hp : ∀ p ∈ t.symbolProbabilities, p ≤ 2 ^ 18) :
    ((t.buildDecodingTableMeta seqMeta).1 = .ok () ∧ (t.buildDecodingTableMeta seqMeta).2.Live) ∨
      ((∃ e, (t.buildDecodingTableMeta seqMeta).1 = .error e) ∧
        (t.buildDecodingTableMeta seqMeta).2 = t.reset) := by
  have hprobs : ∀ p ∈ t.symbolProbabilities, p.toNat ≤ 2 ^ 18 := by
    intro p hmem
    have := hp p hmem
    omega
  have hsize : 1 <<< t.accuracyLog ≤ 2 ^ 16 := by
    rw [Nat.one_shiftLeft]
    exact Nat.pow_le_pow_right (by decide) ha
  unfold FSETableImpl.buildDecodingTableMeta
  dsimp only
  split
  · exact .inr ⟨⟨_, rfl⟩, rfl⟩
  · split
    · exact .inr ⟨⟨_, rfl⟩, rfl⟩
    · split
      · exact .inr ⟨⟨_, rfl⟩, rfl⟩
      · rename_i entries hentries
        have hlen := spreadSymbols_length t.symbolProbabilities (1 <<< t.accuracyLog)
        have hcount := @spreadSymbols_counters (2 ^ 18) (by decide) t.symbolProbabilities hprobs
          (1 <<< t.accuracyLog)
        obtain ⟨hfull, hin⟩ := buildEntries_inside ha (by
          intro s
          have := hcount s
          rw [hlen]
          omega) hentries
        rw [hlen, Nat.one_shiftLeft] at hfull
        refine .inl ⟨rfl, fun e he => ?_⟩
        exact hfull ▸ hin e he

/-- All that a build from a header can do. -/
theorem buildDecoderFused_cases (t : FSETableImpl E cap) (source : List UInt8) (maxLog : Nat)
    (seqMeta : SeqMeta) :
    ((∃ n, headerRead t source maxLog = .ok n) ∧
        (∃ n, (t.buildDecoderFused source maxLog seqMeta).1 = .ok n) ∧
        (t.buildDecoderFused source maxLog seqMeta).2.Live) ∨
      ((∃ n, headerRead t source maxLog = .ok n) ∧
        (t.buildDecoderFused source maxLog seqMeta).2.decode = []) ∨
      ((∃ e, headerRead t source maxLog = .error e) ∧
        (∃ e, (t.buildDecoderFused source maxLog seqMeta).1 = .error e) ∧
        (t.buildDecoderFused source maxLog seqMeta).2.decode = t.decode ∧
        (t.buildDecoderFused source maxLog seqMeta).2.accuracyLog = headerLog source) := by
  have hkeeps := readProbabilities_keeps ({ t with accuracyLog := 0 } : FSETableImpl E cap) source
    (min maxLog entryMaxAccuracyLog) rfl
  unfold FSETableImpl.buildDecoderFused headerRead
  cases hread : ({ t with accuracyLog := 0 } : FSETableImpl E cap).readProbabilities source
      (min maxLog entryMaxAccuracyLog) with
  | mk result t' =>
    rw [hread] at hkeeps
    cases result with
    | error e => exact .inr (.inr ⟨⟨e, rfl⟩, ⟨e, rfl⟩, hkeeps⟩)
    | ok n =>
      obtain ⟨ha, hp⟩ := readProbabilities_ok (congrArg Prod.fst hread)
      rw [hread] at ha hp
      rcases buildDecodingTableMeta_cases seqMeta ha hp with ⟨hok, hlive⟩ | ⟨⟨e, he⟩, hreset⟩
      · refine .inl ?_
        dsimp only at hok hlive ⊢
        split
        · rename_i hb
          rw [hb] at hok
          cases hok
        · rename_i hb
          rw [hb] at hlive
          exact ⟨⟨n, rfl⟩, ⟨n, rfl⟩, hlive⟩
      · refine .inr (.inl ⟨⟨n, rfl⟩, ?_⟩)
        dsimp only at he hreset ⊢
        split
        · rename_i hb
          rw [hb] at hreset
          exact congrArg FSETableImpl.decode hreset
        · rename_i hb
          rw [hb] at he
          cases he

/-- All that a build from given probabilities can do. -/
theorem buildFromProbabilities_cases (t : FSETableImpl E cap) (accLog : Nat) (probs : List Int) :
    ((t.buildFromProbabilities accLog probs).1 = .ok () ∧
        (t.buildFromProbabilities accLog probs).2.Live) ∨
      (t.buildFromProbabilities accLog probs).2.decode = [] ∨
      (t.buildFromProbabilities accLog probs).2 = t := by
  unfold FSETableImpl.buildFromProbabilities
  split
  · exact .inr (.inr rfl)
  · split
    · exact .inr (.inr rfl)
    · rename_i hlog
      split
      · exact .inr (.inr rfl)
      · dsimp only
        split
        · exact .inr (.inr rfl)
        · rename_i hfind
          split
          · exact .inr (.inr rfl)
          · have hle : accLog ≤ 16 := Nat.le_of_not_lt hlog
            have hp : ∀ p ∈ probs, p ≤ 2 ^ 18 := by
              intro p hmem
              have hrange := List.find?_eq_none.mp hfind p hmem
              have hsize : 2 ^ accLog ≤ 2 ^ 16 := Nat.pow_le_pow_right (by decide) hle
              rw [Nat.one_shiftLeft, decide_eq_true_eq] at hrange
              omega
            have hspec := @buildDecodingTableMeta_cases E _ cap _
              { t with symbolProbabilities := probs, accuracyLog := accLog } .none hle hp
            rcases hspec with hbuilt | ⟨-, hreset⟩
            · exact .inl hbuilt
            · exact .inr (.inl (congrArg FSETableImpl.decode hreset))

end Built

end Operations

/-- The operations of a table; the last three exist for the tables of the sequence section only. -/
inductive Op : (E : Type) → [FseEntry E] → Nat → Type 1 where
  | buildDecoder {E : Type} [FseEntry E] {cap : Nat} (source : List UInt8) (maxLog : Nat)
      (seqMeta : SeqMeta) : Op E cap
  | readTableProbabilities {E : Type} [FseEntry E] {cap : Nat} (source : List UInt8)
      (maxLog : Nat) : Op E cap
  | buildFromProbabilities {E : Type} [FseEntry E] {cap : Nat} (accLog : Nat)
      (probs : List Int) : Op E cap
  | reinitFrom {E : Type} [FseEntry E] {cap : Nat} (other : FSETableImpl E cap) : Op E cap
  | reset {E : Type} [FseEntry E] {cap : Nat} : Op E cap
  | buildRle (symbol : Nat) : Op SeqSymbol 512
  | enrichWithPackedSeqMeta (packed : List Nat) : Op SeqSymbol 512
  | enrichForOffsets : Op SeqSymbol 512

namespace Op

/-- What an operation returns, and the table it leaves. -/
def apply : {E : Type} → [FseEntry E] → {cap : Nat} → Op E cap → FSETableImpl E cap →
    Except FSETableError Unit × FSETableImpl E cap
  | _, _, _, buildDecoder source maxLog seqMeta, t =>
    let (result, t) := t.buildDecoderFused source maxLog seqMeta
    (result.map fun _ => (), t)
  | _, _, _, readTableProbabilities source maxLog, t =>
    let (result, t) := t.readTableProbabilities source maxLog
    (result.map fun _ => (), t)
  | _, _, _, buildFromProbabilities accLog probs, t => t.buildFromProbabilities accLog probs
  | _, _, _, reinitFrom other, t => (.ok (), t.reinitFrom other)
  | _, _, _, reset, t => (.ok (), t.reset)
  | _, _, _, buildRle symbol, t => (.ok (), t.buildRle symbol)
  | _, _, _, enrichWithPackedSeqMeta packed, t => (.ok (), t.enrichWithPackedSeqMeta packed)
  | _, _, _, enrichForOffsets, t => (.ok (), t.enrichForOffsets)

/-- A copied table keeps the invariant. -/
def Fed : {E : Type} → [FseEntry E] → {cap : Nat} → Op E cap → Prop
  | _, _, _, reinitFrom other => other.Live
  | _, _, _, _ => True

/-- A header that does not read, but names the log of entries an earlier failed read has left
under another one. -/
def Revives : {E : Type} → [FseEntry E] → {cap : Nat} → Op E cap → FSETableImpl E cap → Prop
  | _, _, _, buildDecoder source maxLog _, t =>
    (∃ e, headerRead t source maxLog = .error e) ∧ t.decode.length ≠ 2 ^ t.accuracyLog ∧
      t.decode.length = 2 ^ headerLog source
  | _, _, _, _, _ => False

/-- A failed operation changes nothing a decoder reads, or leaves a table no stream starts on. -/
def FailsSafe {E : Type} [FseEntry E] {cap : Nat} (op : Op E cap) (t : FSETableImpl E cap) :
    Prop :=
  (∃ e, (op.apply t).1 = .error e) →
    t.DecodesAs (op.apply t).2 ∨ ∀ r, ∃ e, initState (op.apply t).2 r = .error e

end Op

def run {E : Type} [FseEntry E] {cap : Nat} (ops : List (Op E cap)) (t : FSETableImpl E cap) :
    FSETableImpl E cap :=
  ops.foldl (fun t op => (op.apply t).2) t

theorem FSETableImpl.Live.of_nil {E : Type} [FseEntry E] {cap : Nat} {t : FSETableImpl E cap}
    (h : t.decode = []) : t.Live := by
  intro e he
  rw [h] at he
  cases he

/-- Attaching sequence data leaves the state machine as it is. -/
theorem FSETableImpl.Live.of_enriched {t t' : SeqFSETable} (h : t.Live) {f : Nat → SeqSymbol → SeqSymbol}
    (hf : ∀ i e, (f i e).newState = e.newState ∧ (f i e).numBits = e.numBits)
    (ht : t'.decode = t.decode.mapIdx f) : t'.Live := by
  intro e he
  rw [ht] at he ⊢
  rw [List.length_mapIdx]
  obtain ⟨i, hi, rfl⟩ := List.mem_mapIdx.mp he
  have hin := h (t.decode[i]) (List.getElem_mem hi)
  obtain ⟨hstate, hbits⟩ := hf i t.decode[i]
  change (f i t.decode[i]).newState + 2 ^ (f i t.decode[i]).numBits ≤ _
  rw [hstate, hbits]
  exact hin

theorem enrichWithPackedSeqMeta_live {t : SeqFSETable} (h : t.Live) (packed : List Nat) :
    (t.enrichWithPackedSeqMeta packed).Live := by
  refine h.of_enriched (fun i e => ?_) rfl
  dsimp only
  split
  · exact ⟨rfl, rfl⟩
  · exact ⟨rfl, rfl⟩

theorem enrichForOffsets_live {t : SeqFSETable} (h : t.Live) : t.enrichForOffsets.Live := by
  refine h.of_enriched (fun i e => ?_) rfl
  dsimp only
  split
  · exact ⟨rfl, rfl⟩
  · exact ⟨rfl, rfl⟩

theorem buildRle_live (t : SeqFSETable) (symbol : Nat) : (t.buildRle symbol).Live := by
  intro e he
  rw [List.mem_singleton.mp he]
  exact Nat.le_refl 1

theorem readTableProbabilities_decode {E : Type} {cap : Nat} (t : FSETableImpl E cap)
    (source : List UInt8) (maxLog : Nat) : (t.readTableProbabilities source maxLog).2.decode = [] :=
  (readProbabilities_keeps _ source _ rfl).1

/-- The step lemma: every operation keeps the invariant, whatever it returns. -/
theorem Op.apply_live {E : Type} [FseEntry E] [LawfulEntry E] {cap : Nat} {op : Op E cap}
    {t : FSETableImpl E cap} (hop : op.Fed) (h : t.Live) : (op.apply t).2.Live := by
  cases op with
  | buildDecoder source maxLog seqMeta =>
    rcases buildDecoderFused_cases t source maxLog seqMeta with ⟨-, -, hlive⟩ | ⟨-, hnil⟩ | hstale
    · exact hlive
    · exact .of_nil hnil
    · intro e he
      have hdecode : ((Op.buildDecoder source maxLog seqMeta).apply t).2.decode = t.decode :=
        hstale.2.2.1
      rw [hdecode] at he ⊢
      exact h e he
  | readTableProbabilities source maxLog =>
    exact .of_nil (readTableProbabilities_decode t source maxLog)
  | buildFromProbabilities accLog probs =>
    rcases buildFromProbabilities_cases t accLog probs with ⟨-, hlive⟩ | hnil | hsame
    · exact hlive
    · exact .of_nil hnil
    · have hkept : ((Op.buildFromProbabilities accLog probs).apply t).2 = t := hsame
      rw [hkept]
      exact h
  | reinitFrom other => exact hop
  | reset => exact t.reset_live
  | buildRle symbol => exact buildRle_live t symbol
  | enrichWithPackedSeqMeta packed => exact enrichWithPackedSeqMeta_live h packed
  | enrichForOffsets => exact enrichForOffsets_live h

/-- The run lemma. -/
theorem run_live {E : Type} [FseEntry E] [LawfulEntry E] {cap : Nat} {ops : List (Op E cap)}
    (hops : ∀ op ∈ ops, op.Fed) {t : FSETableImpl E cap} (h : t.Live) : (run ops t).Live := by
  induction ops generalizing t with
  | nil => exact h
  | cons op ops ih =>
    exact ih (fun op' hop => hops op' (List.mem_cons_of_mem op hop))
      (Op.apply_live (hops op List.mem_cons_self) h)

theorem FSETableImpl.not_starts_of_nil {E : Type} {cap : Nat} {t : FSETableImpl E cap}
    (h : t.decode = []) : ¬t.Starts := by
  intro hs
  exact hs.1 (by rw [h]; rfl)

/-- An operation fails safe unless it is a header read that revives stale entries. -/
theorem Op.failsSafe_iff {E : Type} [FseEntry E] [LawfulEntry E] {cap : Nat} (op : Op E cap)
    (t : FSETableImpl E cap) : op.FailsSafe t ↔ ¬op.Revives t := by
  have hsafe : ∀ {op : Op E cap}, ¬(op.apply t).2.Starts → op.FailsSafe t :=
    fun hs _ => .inr fun r => initState_error_iff.mpr hs
  cases op with
  | buildDecoder source maxLog seqMeta =>
    have hread : (∃ n, headerRead t source maxLog = .ok n) →
        ¬(Op.buildDecoder source maxLog seqMeta).Revives t := by
      rintro ⟨n, hn⟩ ⟨⟨e, he⟩, -⟩
      cases hn.symm.trans he
    rcases buildDecoderFused_cases t source maxLog seqMeta with
      ⟨hn, ⟨n, hok⟩, -⟩ | ⟨hn, hnil⟩ | ⟨herr, ⟨e, he⟩, hdecode, hlog⟩
    · refine ⟨fun _ => hread hn, fun _ ⟨e, he⟩ => ?_⟩
      simp only [Op.apply, hok] at he
      cases he
    · exact ⟨fun _ => hread hn, fun _ => hsafe (FSETableImpl.not_starts_of_nil hnil)⟩
    · have hdec : ((Op.buildDecoder source maxLog seqMeta).apply t).2.decode = t.decode := hdecode
      have hacc : ((Op.buildDecoder source maxLog seqMeta).apply t).2.accuracyLog =
        headerLog source := hlog
      have hfails : ∃ e, ((Op.buildDecoder source maxLog seqMeta).apply t).1 = .error e := by
        refine ⟨e, ?_⟩
        simp only [Op.apply, he]
        rfl
      constructor
      · rintro hsafe ⟨-, hne, heq⟩
        rcases hsafe hfails with ⟨-, hsame⟩ | hinit
        · exact hne (by rw [heq, ← hacc, hsame])
        · have hstarts : ¬((Op.buildDecoder source maxLog seqMeta).apply t).2.Starts :=
            initState_error_iff.mp (hinit (BitReaderReversed.new []))
          apply hstarts
          rw [FSETableImpl.Starts, hdec, hacc]
          exact ⟨by rw [heq]; exact (Nat.two_pow_pos _).ne', heq⟩
      · intro hrev
        by_cases hstart : t.decode.length = 2 ^ headerLog source
        · have hlen : t.decode.length = 2 ^ t.accuracyLog :=
            not_not.mp fun hne => hrev ⟨herr, hne, hstart⟩
          refine fun _ => .inl ⟨hdec, ?_⟩
          rw [hacc]
          exact Nat.pow_right_injective (Nat.le_refl 2) (hstart.symm.trans hlen)
        · refine hsafe fun hs => hstart ?_
          rw [← hdec, ← hacc]
          exact hs.2
  | readTableProbabilities source maxLog =>
    exact ⟨fun _ hr => hr, fun _ => hsafe (FSETableImpl.not_starts_of_nil
      (readTableProbabilities_decode t source maxLog))⟩
  | buildFromProbabilities accLog probs =>
    refine ⟨fun _ hr => hr, fun _ herr => ?_⟩
    rcases buildFromProbabilities_cases t accLog probs with ⟨hok, -⟩ | hnil | hsame
    · obtain ⟨e, he⟩ := herr
      cases hok.symm.trans he
    · exact hsafe (FSETableImpl.not_starts_of_nil hnil) herr
    · exact .inl ⟨congrArg FSETableImpl.decode hsame, congrArg FSETableImpl.accuracyLog hsame⟩
  | reinitFrom other => exact ⟨fun _ hr => hr, fun _ ⟨e, he⟩ => nomatch he⟩
  | reset => exact ⟨fun _ hr => hr, fun _ ⟨e, he⟩ => nomatch he⟩
  | buildRle symbol => exact ⟨fun _ hr => hr, fun _ ⟨e, he⟩ => nomatch he⟩
  | enrichWithPackedSeqMeta packed => exact ⟨fun _ hr => hr, fun _ ⟨e, he⟩ => nomatch he⟩
  | enrichForOffsets => exact ⟨fun _ hr => hr, fun _ ⟨e, he⟩ => nomatch he⟩

section Decoding

variable {E : Type} [FseEntry E] {cap : Nat}

/-- The states a decoder can stand on; each step may read from any reader. -/
inductive Reaches (t : FSETableImpl E cap) : E → Prop where
  | init {state : E} {r r' : BitReaderReversed} (h : initState t r = .ok (state, r')) :
      Reaches t state
  | update {state : E} (r : BitReaderReversed) (h : Reaches t state) :
      Reaches t (updateState t state r).1
  | updateFast {state : E} (r : BitReaderReversed) (h : Reaches t state) :
      Reaches t (updateStateFast t state r).1

/-- A table on which no lookup leaves the live entries: if a stream starts, the table is full,
every entry leads back into it, and the index of the first state and of every later one is live. -/
structure StaysInside (t : FSETableImpl E cap) : Prop where
  full : ∀ r x, initState t r = .ok x → t.decode.length = 2 ^ t.accuracyLog
  inside : ∀ r x, initState t r = .ok x → ∀ e ∈ t.decode,
    FseEntry.newState e + 2 ^ FseEntry.numBits e ≤ t.decode.length
  first : ∀ r x, initState t r = .ok x → (r.getBits t.accuracyLog).1 < t.decode.length
  next : ∀ state, Reaches t state → ∀ r : BitReaderReversed,
    FseEntry.newState state + (r.getBits (FseEntry.numBits state)).1 < t.decode.length ∧
    FseEntry.newState state + (r.getBitsUnchecked (FseEntry.numBits state)).1 < t.decode.length

theorem peekBits_lt (r : BitReaderReversed) (n : Nat) : r.peekBits n < 2 ^ n :=
  Nat.mod_lt _ (Nat.two_pow_pos n)

theorem readEntry_mem {t : FSETableImpl E cap} {i : Nat} (h : i < t.decode.length) :
    readEntry t i ∈ t.decode := by
  rw [readEntry, List.getD_eq_getElem?_getD, List.getElem?_eq_getElem h, Option.getD_some]
  exact List.getElem_mem h

theorem initState_starts {t : FSETableImpl E cap} {r : BitReaderReversed}
    {x : E × BitReaderReversed} (h : initState t r = .ok x) : t.Starts := by
  refine not_not.mp fun hs => ?_
  obtain ⟨e, he⟩ := (initState_error_iff (r := r)).mpr hs
  cases he.symm.trans h

omit [FseEntry E] in
theorem first_lt {t : FSETableImpl E cap} (h : t.Starts) (r : BitReaderReversed) :
    (r.getBits t.accuracyLog).1 < t.decode.length := by
  rw [h.2]
  exact peekBits_lt _ _

theorem next_lt {t : FSETableImpl E cap} {state : E} (h : Inside t.decode.length state)
    (r : BitReaderReversed) :
    FseEntry.newState state + r.peekBits (FseEntry.numBits state) < t.decode.length :=
  Nat.lt_of_lt_of_le (Nat.add_lt_add_left (peekBits_lt r _) _) h

/-- Every state a decoder reaches is a live entry. -/
theorem Reaches.mem {t : FSETableImpl E cap} (hlive : t.Live) {state : E} (h : Reaches t state) :
    state ∈ t.decode := by
  induction h with
  | @init state r r' h =>
    have hs := initState_starts h
    rw [initState, if_neg hs.1, if_neg (by rw [Nat.one_shiftLeft]; exact not_not.mpr hs.2)] at h
    cases h
    exact readEntry_mem (first_lt hs r)
  | update r _ ih => exact readEntry_mem (next_lt (hlive _ ih) _)
  | updateFast r _ ih => exact readEntry_mem (next_lt (hlive _ ih) _)

theorem FSETableImpl.Live.staysInside {t : FSETableImpl E cap} (h : t.Live) : StaysInside t where
  full _ _ hinit := (initState_starts hinit).2
  inside _ _ _ := h
  first r _ hinit := first_lt (initState_starts hinit) r
  next _ hstate r := ⟨next_lt (h _ (hstate.mem h)) _, next_lt (h _ (hstate.mem h)) r⟩

variable [LawfulEntry E]

/-- Over every run from a new table, with failures in it: no lookup leaves the live entries, and
every failed operation fails safe exactly when no header read revives stale entries. -/
theorem table_runs_stay_inside (maxSymbol : Nat) (ops : List (Op E cap))
    (hops : ∀ op ∈ ops, op.Fed) :
    StaysInside (run ops (.new maxSymbol)) ∧
      ((∀ before op after, ops = before ++ op :: after →
          op.FailsSafe (run before (.new maxSymbol))) ↔
        ∀ before op after, ops = before ++ op :: after →
          ¬op.Revives (run before (.new maxSymbol))) := by
  have hnew : (FSETableImpl.new maxSymbol : FSETableImpl E cap).Live := .of_nil rfl
  refine ⟨(run_live hops hnew).staysInside, ?_⟩
  constructor
  · intro h before op after heq
    exact (op.failsSafe_iff _).mp (h before op after heq)
  · intro h before op after heq
    exact (op.failsSafe_iff _).mpr (h before op after heq)

end Decoding

/-- A table of 32 entries, then a header of log 6 that ends after its first byte. -/
def staleRun : List (Op Entry 64) :=
  [.buildFromProbabilities 5 [16, 16], .buildDecoder [1] 6 .none]

theorem table_runs_stay_inside_stale :
    StaysInside (run staleRun (.new 11)) ∧
      ∀ before op after, staleRun = before ++ op :: after → op.FailsSafe (run before (.new 11)) := by
  have hfed : ∀ op ∈ staleRun, op.Fed := by
    intro op hop
    simp only [staleRun, List.mem_cons, List.not_mem_nil, or_false] at hop
    rcases hop with rfl | rfl
    · trivial
    · trivial
  obtain ⟨hinside, hsafe⟩ := table_runs_stay_inside 11 staleRun hfed
  refine ⟨hinside, hsafe.mpr ?_⟩
  intro before op after heq
  rcases before with - | ⟨first, before⟩
  · cases heq
    exact id
  · rcases before with - | ⟨second, before⟩
    · cases heq
      rintro ⟨-, hne, -⟩
      exact hne (by decide +kernel)
    · cases before with
      | nil => cases heq
      | cons third before => cases heq

/-- A second header of log 5 that fails too brings the old entries back to life. -/
theorem failed_header_revives_entries :
    ¬∀ (maxSymbol : Nat) (ops : List (Op Entry 64)), (∀ op ∈ ops, op.Fed) →
      ∀ before op after, ops = before ++ op :: after →
        op.FailsSafe (run before (.new maxSymbol)) := by
  intro h
  have hsafe := h 11 (staleRun ++ [.buildDecoder [0] 6 .none]) (by
    intro op hop
    simp only [staleRun, List.mem_append, List.mem_cons, List.not_mem_nil, or_false] at hop
    rcases hop with (rfl | rfl) | rfl
    · trivial
    · trivial
    · trivial) staleRun (.buildDecoder [0] 6 .none) [] rfl
  refine (Op.failsSafe_iff _ _).mp hsafe ⟨?_, by decide +kernel, by decide +kernel⟩
  exact ⟨.getBitsError 6 4, by decide +kernel⟩

end Fse.Decoder
