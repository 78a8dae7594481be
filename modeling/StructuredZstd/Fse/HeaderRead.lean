import StructuredZstd.Fse.HeaderRoundTrip
import StructuredZstd.Fse.RoundTrip
import StructuredZstd.Fse.TableRuns

namespace Fse.Decoder

open Bits BitIo

/-- What the header read has stored of a distribution when its counter stands at `counter`. -/
structure Stored (maxSymbols counter : Nat) (probs : List Int) : Prop where
  range : ∀ p ∈ probs, -1 ≤ p
  sum_eq : weightSum probs = counter
  length_le : probs.length ≤ maxSymbols

theorem weightSum_append (ps qs : List Int) :
    weightSum (ps ++ qs) = weightSum ps + weightSum qs := by
  simp [weightSum]

theorem weightSum_zeros (n : Nat) : weightSum (List.replicate n 0) = 0 := by
  induction n with
  | zero => rfl
  | succ n ih =>
    rw [List.replicate_succ, weightSum_cons, ih]
    rfl

theorem Stored.zeros {maxSymbols counter : Nat} {probs : List Int}
    (h : Stored maxSymbols counter probs) {n : Nat} (hn : probs.length + n ≤ maxSymbols) :
    Stored maxSymbols counter (probs ++ List.replicate n 0) where
  range := by
    intro p hp
    rcases List.mem_append.mp hp with hp | hp
    · exact h.range p hp
    · rw [List.eq_of_mem_replicate hp]
      decide
  sum_eq := by rw [weightSum_append, weightSum_zeros, h.sum_eq, Nat.add_zero]
  length_le := by simpa using hn

theorem Stored.snoc {maxSymbols counter : Nat} {probs : List Int}
    (h : Stored maxSymbols counter probs) {p : Int} (hp : -1 ≤ p)
    (hn : probs.length < maxSymbols) :
    Stored maxSymbols (counter + p.natAbs) (probs ++ [p]) where
  range := by
    intro q hq
    rcases List.mem_append.mp hq with hq | hq
    · exact h.range q hq
    · rwa [List.mem_singleton.mp hq]
  sum_eq := by
    rw [weightSum_append, h.sum_eq, weightSum_cons, weightSum_nil, weight_eq_natAbs hp,
      Nat.add_zero]
  length_le := by
    rw [List.length_append]
    exact hn

theorem readBits_ok {source : List UInt8} {bitPos n v : Nat}
    (h : readBits source bitPos n = .ok v) : n ≤ 8 * source.length - bitPos := by
  simp only [readBits] at h
  split at h
  · cases h
  · rename_i hn
    exact Nat.le_of_not_lt hn

theorem unfoldValue_width (maxRemainingValue v : Nat) :
    (unfoldValue maxRemainingValue v).2 ≤ highestBitSet maxRemainingValue := by
  simp only [unfoldValue]
  split
  · exact Nat.sub_le _ _
  · split
    · exact Nat.le_refl _
    · exact Nat.le_refl _

variable {source : List UInt8} {maxSymbols : Nat}

theorem readSkips_ok (fuel bitPos : Nat) {counter pos : Nat} {probs probs' : List Int}
    (h : Stored maxSymbols counter probs) (hpos : bitPos ≤ 8 * source.length)
    (hr : readSkips source maxSymbols fuel bitPos probs = (.ok pos, probs')) :
    Stored maxSymbols counter probs' ∧ probs.length ≤ probs'.length ∧
      pos ≤ 8 * source.length := by
  induction fuel generalizing bitPos probs with
  | zero =>
    cases hr
    exact ⟨h, Nat.le_refl _, hpos⟩
  | succ fuel ih =>
    rw [readSkips] at hr
    cases hv : readBits source bitPos 2 with
    | error e =>
      rw [hv] at hr
      cases hr
    | ok skip =>
      have hroom := readBits_ok hv
      simp only [hv] at hr
      split at hr
      · cases hr
      · rename_i hmany
        have hnext := h.zeros (Nat.le_of_not_lt hmany)
        split at hr
        · cases hr
          exact ⟨hnext, by simp, by omega⟩
        · obtain ⟨h1, h2, h3⟩ := ih _ hnext (by omega) hr
          exact ⟨h1, by rw [List.length_append] at h2; omega, h3⟩

/-- The loop ends with the whole sum: every round stores a symbol, so the symbol limit stops it
before its rounds run out. -/
theorem readProbabilityLoop_ok {sum : Nat} (fuel bitPos counter : Nat) {pos : Nat}
    {probs probs' : List Int} (hfuel : maxSymbols < fuel + probs.length)
    (h : Stored maxSymbols counter probs) (hpos : bitPos ≤ 8 * source.length)
    (hr : readProbabilityLoop source maxSymbols sum fuel bitPos counter probs =
      (.ok pos, probs')) :
    Stored maxSymbols sum probs' ∧ pos ≤ 8 * source.length := by
  induction fuel generalizing bitPos counter probs with
  | zero =>
    have := h.length_le
    omega
  | succ fuel ih =>
    rw [readProbabilityLoop] at hr
    split at hr
    · cases hv : readBits source bitPos (highestBitSet (sum - counter + 1)) with
      | error e =>
        dsimp only at hr
        rw [hv] at hr
        cases hr
      | ok v =>
        have hroom := readBits_ok hv
        have hwidth := unfoldValue_width (sum - counter + 1) v
        dsimp only at hr
        rw [hv] at hr
        dsimp only at hr
        split at hr
        · cases hr
        · rename_i hmany
          have hp : (-1 : Int) ≤ ((unfoldValue (sum - counter + 1) v).1 : Int) - 1 := by omega
          have hnext := h.snoc hp (Nat.lt_of_not_le hmany)
          split at hr
          · exact ih _ _ (by simp; omega) hnext (by omega) hr
          · rename_i hzero
            rw [not_not] at hzero
            rw [hzero] at hnext hr
            split at hr
            · cases hr
            · rename_i hs
              obtain ⟨h1, h2, h3⟩ := readSkips_ok _ _ hnext (by omega) hs
              rw [List.length_append, List.length_singleton] at h2
              exact ih _ _ (by omega) h1 h3 hr
    · split at hr
      · cases hr
      · rename_i heq
        cases hr
        rw [not_not] at heq
        subst heq
        exact ⟨h, hpos⟩

variable {E : Type} {cap : Nat}

/-- An accepted header holds a normalized distribution and ends inside its source. -/
theorem readProbabilities_distribution {t t' : FSETableImpl E cap} {maxLog n : Nat}
    (hmax : maxLog ≤ 9) (hsym : t.maxSymbol ≤ 255)
    (h : t.readProbabilities source maxLog = (.ok n, t')) :
    ∃ d : Distribution, t' = { t with symbolProbabilities := d.probs, accuracyLog := d.accLog } ∧
      d.probs.length ≤ t.maxSymbol + 1 ∧ d.accLog ≤ maxLog ∧ n ≤ source.length := by
  cases hlog : readBits source 0 4 with
  | error e =>
    simp only [FSETableImpl.readProbabilities, hlog] at h
    cases h
  | ok log =>
    have hroom := readBits_ok hlog
    simp only [FSETableImpl.readProbabilities, hlog] at h
    split at h
    · cases h
    · split at h
      · cases h
      · rename_i hle
        split at h
        · cases h
        · split at h
          · cases h
          · rename_i pos probs hloop
            cases h
            obtain ⟨hp, hend⟩ := readProbabilityLoop_ok _ _ _ (by simp)
              (⟨by simp, rfl, by simp⟩ : Stored (t.maxSymbol + 1) 0 []) (by omega) hloop
            have hlen := hp.length_le
            have hsum := hp.sum_eq
            rw [Nat.one_shiftLeft] at hsum
            refine ⟨⟨probs, accLogOffset + log, by omega, hp.range, hsum, ?_, ?_⟩, rfl, hlen,
              Nat.le_of_not_lt hle, ?_⟩
            · exact Nat.le_add_right 5 log
            · exact (Nat.le_of_not_lt hle).trans hmax
            · omega

/-- The header read does not look at the entries. -/
theorem readProbabilities_decode (t : FSETableImpl E cap) (entries : List E) (maxLog : Nat) :
    ({ t with decode := entries } : FSETableImpl E cap).readProbabilities source maxLog =
      ((t.readProbabilities source maxLog).1,
        { (t.readProbabilities source maxLog).2 with decode := entries }) := by
  cases hlog : readBits source 0 4 with
  | error e => simp only [FSETableImpl.readProbabilities, hlog]
  | ok log =>
    simp only [FSETableImpl.readProbabilities, hlog]
    split
    · rfl
    · split
      · rfl
      · split
        · rfl
        · split
          · rfl
          · rfl

/-- The encoder table of the probabilities a header gave; `none` inside is a panic of the
builder. -/
def FSETableImpl.toEncoderTable (t : FSETableImpl E cap) : Option (Option Encoder.FSETable) :=
  if t.accuracyLog = 0 ∨ t.symbolProbabilities = [] then none
  else if 9 < t.accuracyLog then none
  else some (Encoder.buildTableFromProbabilities t.symbolProbabilities t.accuracyLog)

/-- A table whose probabilities are those of a distribution. -/
structure FSETableImpl.Names (t : FSETableImpl E cap) (d : Distribution) : Prop where
  probs_eq : t.symbolProbabilities = d.probs
  log_eq : t.accuracyLog = d.accLog

/-- The probabilities of a distribution always make an encoder table. -/
theorem FSETableImpl.Names.toEncoderTable {t : FSETableImpl E cap} {d : Distribution}
    (h : t.Names d) : ∃ enc, t.toEncoderTable = some (some enc) ∧ Encoder.TableOf d enc := by
  obtain ⟨enc, hb, he⟩ := Encoder.build_spec d Encoder.FSETable.blank
  have hne : d.probs ≠ [] := by
    intro hnil
    have hsum := d.sum_eq
    rw [hnil, weightSum_nil] at hsum
    exact (Nat.two_pow_pos d.accLog).ne hsum
  have h0 := d.log_ge
  have h9 := d.log_le
  refine ⟨enc, ?_, he⟩
  rw [FSETableImpl.toEncoderTable, h.probs_eq, h.log_eq, if_neg (by simp [hne]; omega),
    if_neg (by omega), Encoder.buildTableFromProbabilities, hb]

section Built

variable [FseEntry E]

/-- Every state finds a count of its symbol; a count of zero panics. -/
def counted : List Nat → List Nat → Bool
  | [], _ => true
  | symbol :: spread, symbolNext =>
    0 < symbolNext.getD symbol 0 &&
      counted spread (symbolNext.set symbol (symbolNext.getD symbol 0 + 1))

/-- The assertions of a build from a header: those of the build step, once a header is read and
the table is large enough for it. -/
def FSETableImpl.buildAsserts (t : FSETableImpl E cap) (source : List UInt8) (maxLog : Nat) :
    Bool :=
  match ({ t with accuracyLog := 0 } : FSETableImpl E cap).readProbabilities source
      (min maxLog entryMaxAccuracyLog) with
  | (.error _, _) => true
  | (.ok _, t) =>
    let (spread, symbolNext) := spreadSymbols t.symbolProbabilities (1 <<< t.accuracyLog)
    t.maxSymbol + 1 < t.symbolProbabilities.length ∨ cap < 1 <<< t.accuracyLog ∨
      counted spread symbolNext

theorem counted_of_pos (spread next : List Nat)
    (h : ∀ s ∈ spread, s < next.length ∧ 0 < next.getD s 0) : counted spread next = true := by
  induction spread generalizing next with
  | nil => rfl
  | cons a spread ih =>
    obtain ⟨ha, hpos⟩ := h a List.mem_cons_self
    rw [counted, Bool.and_eq_true]
    refine ⟨decide_eq_true hpos, ih _ ?_⟩
    intro s hs
    obtain ⟨hlt, hspos⟩ := h s (List.mem_cons_of_mem a hs)
    refine ⟨by rwa [List.length_set], ?_⟩
    rw [List.getD_eq_getElem?_getD, List.getElem?_set]
    split
    · exact Nat.succ_pos _
    · rwa [← List.getD_eq_getElem?_getD]

/-- Both reads of a header: they fail alike, or one stores the distribution of the header and the
other builds its table as well, the assertions of the build passed. -/
theorem header_reads (t : FSETableImpl E cap) (source : List UInt8) {maxLog : Nat}
    (hmax : maxLog ≤ 9) (hcap : 2 ^ maxLog ≤ cap) (hsym : t.maxSymbol ≤ 255) :
    t.buildAsserts source maxLog = true ∧
    ((∃ e, (t.buildDecoder source maxLog).1 = .error e ∧
        (t.readTableProbabilities source maxLog).1 = .error e) ∨
      ∃ n d, n ≤ source.length ∧ (t.buildDecoder source maxLog).1 = .ok n ∧
        (t.readTableProbabilities source maxLog).1 = .ok n ∧
        (t.readTableProbabilities source maxLog).2.Names d ∧
        (t.buildDecoder source maxLog).2.Names d ∧
        TableOf d .none (t.buildDecoder source maxLog).2 ∧
        (t.buildDecoder source maxLog).2.symbolSpreadBuffer = d.slots) := by
  have hmin : min maxLog entryMaxAccuracyLog = maxLog :=
    Nat.min_eq_left (hmax.trans (by decide))
  have honly : t.readTableProbabilities source maxLog = _ :=
    readProbabilities_decode { t with accuracyLog := 0 } [] (min maxLog entryMaxAccuracyLog)
  rw [hmin] at honly
  rw [honly]
  unfold FSETableImpl.buildDecoder FSETableImpl.buildDecoderFused FSETableImpl.buildAsserts
  rw [hmin]
  cases hr : ({ t with accuracyLog := 0 } : FSETableImpl E cap).readProbabilities source maxLog with
  | mk result t1 =>
    cases result with
    | error e => exact ⟨rfl, .inl ⟨e, rfl, rfl⟩⟩
    | ok n =>
      obtain ⟨d, rfl, hfit, hlog, hn⟩ := readProbabilities_distribution hmax (by exact hsym) hr
      have hlen : d.probs.length ≤ t.maxSymbol + 1 := hfit
      have hsize : d.size ≤ cap := (Nat.pow_le_pow_right (by decide) hlog).trans hcap
      have hshift : 1 <<< d.accLog = d.size := by rw [Nat.one_shiftLeft, Distribution.size]
      have hspread := spreadSymbols_eq d
      obtain ⟨hok, htable⟩ := buildDecodingTableMeta_spec d .none
        ({ t with symbolProbabilities := d.probs, accuracyLog := d.accLog } : FSETableImpl E cap)
        rfl rfl hlen hsize
      have hcounted : counted d.slots (highCounters d.probs 0 (lowCounters d.probs 0
          (List.replicate 256 0))) = true := by
        apply counted_of_pos
        intro s hs
        obtain ⟨u, hu⟩ := List.getElem?_of_mem hs
        have hr := d.rank_lt_weight hu
        have hlt := d.lt_of_slot hu
        have hle := d.length_le
        rw [counters_getD d.length_le (by omega) List.length_replicate]
        refine ⟨?_, by omega⟩
        rw [highCounters, countersFrom_length, lowCounters, countersFrom_length,
          List.length_replicate]
        omega
      refine ⟨?_, .inr ⟨n, d, hn, ?_⟩⟩
      · simp only [hshift, hspread, hcounted]
        simp
      · simp only
        unfold FSETableImpl.buildDecodingTableMeta at hok htable ⊢
        simp only [hshift, hspread] at hok htable ⊢
        rw [if_neg (Nat.not_lt.mpr hlen), if_neg (Nat.not_lt.mpr hsize)] at hok htable ⊢
        split at hok
        · cases hok
        · rename_i hentries
          rw [hentries] at htable
          exact ⟨rfl, trivial, ⟨rfl, rfl⟩, ⟨rfl, rfl⟩, htable, rfl⟩

end Built

section Enriched

variable {d : Distribution} {t : SeqFSETable}

/-- What a sequence table attaches to a symbol: its base value and its extra bits. -/
def SeqMeta.meaning : SeqMeta → Nat → Nat × Nat
  | .none, _ => (0, 0)
  | .packed codes, symbol =>
    let m := codes.getD symbol 0
    (m &&& 0x00FFFFFF, (m >>> 24) % 256)
  | .offsets, symbol => if symbol < 32 then (1 <<< symbol, symbol) else (0, 0)

theorem enrich_fromRaw (newState symbol numBits : Nat) (seqMeta : SeqMeta) :
    enrich (FseEntry.fromRaw newState symbol numBits : SeqSymbol) symbol seqMeta =
      ⟨newState, numBits, (seqMeta.meaning symbol).2, (seqMeta.meaning symbol).1⟩ := by
  cases seqMeta with
  | none => rfl
  | packed packed => rfl
  | offsets =>
    rw [enrich, SeqMeta.meaning]
    split
    · rfl
    · rfl

/-- The later enrichment leaves the table the fused build makes. -/
theorem TableOf.enrichWithPackedSeqMeta (h : TableOf d .none t)
    (hs : t.symbolSpreadBuffer = d.slots) (packed : List Nat) :
    TableOf d (.packed packed) (t.enrichWithPackedSeqMeta packed) where
  log_eq := h.log_eq
  length_eq := by rw [FSETableImpl.enrichWithPackedSeqMeta, List.length_mapIdx, h.length_eq]
  entry := by
    intro u s hu
    rw [FSETableImpl.enrichWithPackedSeqMeta, List.getElem?_mapIdx, h.entry u s hu,
      Option.map_some, hs, List.getD_eq_getElem?_getD, hu, Option.getD_some, rawEntry,
      enrich_fromRaw, enrich_fromRaw]
    dsimp only
    split
    · rfl
    · rename_i hge
      have hzero : packed.getD s 0 = 0 := by
        rw [List.getD_eq_getElem?_getD, List.getElem?_eq_none (Nat.le_of_not_lt hge),
          Option.getD_none]
      rw [SeqMeta.meaning, hzero]
      rfl

theorem TableOf.enrichForOffsets (h : TableOf d .none t) (hs : t.symbolSpreadBuffer = d.slots) :
    TableOf d .offsets t.enrichForOffsets where
  log_eq := h.log_eq
  length_eq := by rw [FSETableImpl.enrichForOffsets, List.length_mapIdx, h.length_eq]
  entry := by
    intro u s hu
    rw [FSETableImpl.enrichForOffsets, List.getElem?_mapIdx, h.entry u s hu,
      Option.map_some, hs, List.getD_eq_getElem?_getD, hu, Option.getD_some, rawEntry,
      enrich_fromRaw, enrich_fromRaw]
    dsimp only [SeqMeta.meaning]
    split
    · rfl
    · rfl

/-- An encoder and a sequence decoder table that undo each other: what the encoder emits on a
transition leads the decoder back, and what the decoder consumes the encoder emits. -/
structure Inverse (probs : List Int) (log : Nat) (meaning : Nat → Nat × Nat)
    (enc : Encoder.FSETable) (dec : SeqFSETable) : Prop where
  size_eq : enc.tableSize = 2 ^ log
  log_eq : dec.accuracyLog = log
  length_eq : dec.decode.length = 2 ^ log
  decodes : ∀ s p, probs[s]? = some p → p ≠ 0 → ∀ i < 2 ^ log, ∃ state entry,
    enc.nextState s i = some state ∧ dec.decode[state.index]? = some entry ∧
      entry.numBits = state.numBits ∧
      entry.newState + Encoder.transitionBits i state.numBits = i ∧
      (entry.baseValue, entry.numAdditionalBits) = meaning s
  starts : ∀ s p, probs[s]? = some p → p ≠ 0 → ∃ state entry,
    enc.startState s = some state ∧ dec.decode[state.index]? = some entry ∧
      (entry.baseValue, entry.numAdditionalBits) = meaning s
  encodes : ∀ u entry, dec.decode[u]? = some entry → ∃ s p, probs[s]? = some p ∧ p ≠ 0 ∧
    (entry.baseValue, entry.numAdditionalBits) = meaning s ∧
    ∀ b < 2 ^ entry.numBits, enc.nextState s (entry.newState + b) = some ⟨entry.numBits, u⟩

/-- The transition a decode entry undoes: every value of its bits is a state that leads to it. -/
theorem nextState_entry {enc : Encoder.FSETable} (he : Encoder.TableOf d enc) {u s : Nat}
    (hu : d.slots[u]? = some s) {n nb : Nat}
    (hn : n = weight (d.probs.getD s 0) + rank d.slots u s) (hnb : nb = d.accLog - Nat.log2 n)
    {b : Nat} (hb : b < 2 ^ nb) :
    enc.nextState s (n * 2 ^ nb - d.size + b) = some ⟨nb, u⟩ := by
  have hlt := d.lt_of_slot hu
  have hs : d.probs[s]? = some d.probs[s] := List.getElem?_eq_getElem hlt
  have hrank := d.rank_lt_weight hu
  have hp : d.probs.getD s 0 = d.probs[s] := by
    rw [List.getD_eq_getElem?_getD, hs, Option.getD_some]
  rw [hp] at hrank hn
  have h0 : d.probs[s] ≠ 0 := by
    intro hz
    rw [hz, weight] at hrank
    simp at hrank
  obtain ⟨hw, -⟩ := Encoder.weight_le hs
  -- the count and its width span the upper half of the doubled table
  have hn0 : n ≠ 0 := by omega
  have hlog : Nat.log2 n ≤ d.accLog :=
    Nat.lt_succ_iff.mp ((Nat.log2_lt hn0).mpr (by rw [Nat.pow_succ]; omega))
  have hge : d.size ≤ n * 2 ^ nb := by
    rw [Distribution.size, hnb]
    calc 2 ^ d.accLog = 2 ^ Nat.log2 n * 2 ^ (d.accLog - Nat.log2 n) := by
          rw [← Nat.pow_add, Nat.add_sub_cancel' hlog]
      _ ≤ n * 2 ^ (d.accLog - Nat.log2 n) := Nat.mul_le_mul_right _ (Nat.log2_self_le hn0)
  have hi : n * 2 ^ nb - d.size + b < d.size := by
    have hhi : (n + 1) * 2 ^ nb ≤ 2 * d.size := by
      rw [Distribution.size, hnb]
      calc (n + 1) * 2 ^ (d.accLog - Nat.log2 n)
          ≤ 2 ^ (Nat.log2 n + 1) * 2 ^ (d.accLog - Nat.log2 n) :=
            Nat.mul_le_mul_right _ Nat.lt_log2_self
        _ = 2 * 2 ^ d.accLog := by
          rw [Nat.pow_succ, Nat.mul_comm _ 2, Nat.mul_assoc, ← Nat.pow_add,
            Nat.add_sub_cancel' hlog]
    rw [Nat.succ_mul] at hhi
    omega
  obtain ⟨nb', u', hnext, -, hu', hq⟩ := he.nextState_spec hs h0 hi
  have hrank' := d.rank_lt_weight hu'
  rw [hp] at hrank'
  have hsum : d.size + (n * 2 ^ nb - d.size + b) = n * 2 ^ nb + b := by omega
  rw [hsum] at hq
  -- a quotient at another width leaves the counts of the symbol
  have hwidth : nb' = nb := by
    rcases Nat.lt_trichotomy nb' nb with hlt | heq | hgt
    · exfalso
      have : 2 * n ≤ (n * 2 ^ nb + b) / 2 ^ nb' := by
        rw [Nat.le_div_iff_mul_le (Nat.two_pow_pos _)]
        calc 2 * n * 2 ^ nb' = n * 2 ^ (nb' + 1) := by rw [Nat.pow_succ]; ring
          _ ≤ n * 2 ^ nb := Nat.mul_le_mul_left _ (Nat.pow_le_pow_right (by decide) hlt)
          _ ≤ n * 2 ^ nb + b := Nat.le_add_right _ _
      omega
    · exact heq
    · exfalso
      have : (n * 2 ^ nb + b) / 2 ^ nb' < weight d.probs[s] := by
        rw [Nat.div_lt_iff_lt_mul (Nat.two_pow_pos _)]
        calc n * 2 ^ nb + b < (n + 1) * 2 ^ nb := by rw [Nat.succ_mul]; omega
          _ ≤ weight d.probs[s] * 2 * 2 ^ nb := Nat.mul_le_mul_right _ (by omega)
          _ = weight d.probs[s] * 2 ^ (nb + 1) := by rw [Nat.pow_succ]; ring
          _ ≤ weight d.probs[s] * 2 ^ nb' :=
            Nat.mul_le_mul_left _ (Nat.pow_le_pow_right (by decide) hgt)
      omega
  subst hwidth
  have hdiv : (n * 2 ^ nb' + b) / 2 ^ nb' = n := by
    rw [Nat.mul_comm, Nat.mul_add_div (Nat.two_pow_pos _), Nat.div_eq_of_lt hb, Nat.add_zero]
  rw [hdiv] at hq
  rw [hnext, rank_injective hu' hu (by omega)]

/-- The two tables of a distribution are inverse. -/
theorem inverse_of_tables {seqMeta : SeqMeta} {enc : Encoder.FSETable}
    (he : Encoder.TableOf d enc) (hd : TableOf d seqMeta t) :
    Inverse d.probs d.accLog seqMeta.meaning enc t where
  size_eq := he.size_eq
  log_eq := hd.log_eq
  length_eq := hd.length_eq
  decodes := by
    intro s p hs h0 i hi
    obtain ⟨nb, u, hn, -, -, hent⟩ := nextState_inverse he hd ⟨p, hs, h0⟩ hi
    rw [enrich_fromRaw] at hent
    refine ⟨⟨nb, u⟩, _, hn, hent, rfl, ?_, rfl⟩
    rw [transitionBits_eq]
    exact Nat.sub_add_cancel (Nat.mod_le _ _)
  starts := by
    intro s p hs h0
    obtain ⟨u, n, hst, -, hent⟩ := startState_inverse he hd ⟨p, hs, h0⟩
    rw [rawEntry, enrich_fromRaw] at hent
    exact ⟨⟨0, u⟩, _, hst, hent, rfl⟩
  encodes := by
    intro u entry hentry
    have hin : u < d.slots.length := by
      rw [d.slots_length, ← hd.length_eq]
      exact (List.getElem?_eq_some_iff.mp hentry).1
    have hu : d.slots[u]? = some d.slots[u] := List.getElem?_eq_getElem hin
    have hlt := d.lt_of_slot hu
    have hs : d.probs[d.slots[u]]? = some d.probs[d.slots[u]] := List.getElem?_eq_getElem hlt
    have hrank := d.rank_lt_weight hu
    rw [List.getD_eq_getElem?_getD, hs, Option.getD_some] at hrank
    have h0 : d.probs[d.slots[u]] ≠ 0 := by
      intro hz
      rw [hz, weight] at hrank
      simp at hrank
    rw [hd.entry u _ hu, rawEntry, enrich_fromRaw, Option.some.injEq] at hentry
    subst hentry
    refine ⟨_, _, hs, h0, rfl, ?_⟩
    intro b hb
    have hbase : ∀ n, n < 2 ^ (d.accLog + 1) → n ≠ 0 →
        (n <<< (d.accLog - Nat.log2 n) - 1 <<< d.accLog) % 2 ^ 16 =
          n * 2 ^ (d.accLog - Nat.log2 n) - d.size := by
      intro n hn hn0
      have hlog : Nat.log2 n ≤ d.accLog :=
        Nat.lt_succ_iff.mp ((Nat.log2_lt hn0).mpr hn)
      have hhi : n * 2 ^ (d.accLog - Nat.log2 n) < 2 ^ (d.accLog + 1) := by
        calc n * 2 ^ (d.accLog - Nat.log2 n)
            < 2 ^ (Nat.log2 n + 1) * 2 ^ (d.accLog - Nat.log2 n) :=
              Nat.mul_lt_mul_of_pos_right Nat.lt_log2_self (Nat.two_pow_pos _)
          _ = 2 ^ (d.accLog + 1) := by
            rw [← Nat.pow_add]
            congr 1
            omega
      have hcap : 2 ^ (d.accLog + 1) ≤ 2 ^ 10 :=
        Nat.pow_le_pow_right (by decide) (by have := d.log_le; omega)
      rw [Nat.shiftLeft_eq, Nat.one_shiftLeft, Distribution.size, Nat.mod_eq_of_lt (by omega)]
    obtain ⟨hw, -⟩ := Encoder.weight_le hs
    have hp : d.probs.getD d.slots[u] 0 = d.probs[d.slots[u]] := by
      rw [List.getD_eq_getElem?_getD, hs, Option.getD_some]
    dsimp only at hb ⊢
    rw [hbase _ (by rw [hp, Nat.pow_succ]; omega) (by rw [hp]; omega)]
    exact nextState_entry he hu rfl rfl hb

end Enriched

end Fse.Decoder
