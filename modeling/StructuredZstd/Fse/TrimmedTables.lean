import StructuredZstd.Fse.HeaderRead
import StructuredZstd.Fse.NormalizeSpec
import StructuredZstd.Fse.RoundTrip

namespace Fse

open Bits BitIo

section Trimmed

theorem lowFrom_zeros (ps : List Int) (n s : Nat) :
    lowFrom (ps ++ List.replicate n 0) s = lowFrom ps s := by
  induction ps generalizing s with
  | nil =>
    induction n generalizing s with
    | zero => rfl
    | succ n ih => exact ih (s + 1)
  | cons p ps ih =>
    rw [List.cons_append, lowFrom, lowFrom, ih]

theorem itemsFrom_zeros (ps : List Int) (n s : Nat) :
    itemsFrom (ps ++ List.replicate n 0) s = itemsFrom ps s := by
  induction ps generalizing s with
  | nil =>
    induction n generalizing s with
    | zero => rfl
    | succ n ih =>
      rw [List.nil_append, List.replicate_succ, itemsFrom]
      exact ih (s + 1)
  | cons p ps ih =>
    rw [List.cons_append, itemsFrom, itemsFrom, ih]

theorem walk_ext {w w' : Walk} (hsize : w.size = w'.size) (hstep : w.step = w'.step)
    (hlimit : w.limit = w'.limit) : w = w' := by
  cases w
  cases w'
  cases hsize
  cases hstep
  cases hlimit
  rfl

/-- The same distribution, no zeros listed behind its last symbol. -/
structure TrimmedTo (d d' : Distribution) : Prop where
  log_eq : d'.accLog = d.accLog
  zeros : ∃ n, d.probs = d'.probs ++ List.replicate n 0
  last : d'.probs.getLast? ≠ some 0

theorem exists_trimmed {d : Distribution} {probs : List Int} {n : Nat}
    (h : d.probs = probs ++ List.replicate n 0) (hlast : probs.getLast? ≠ some 0) :
    ∃ d', TrimmedTo d d' ∧ d'.probs = probs := by
  have hlen := d.length_le
  have hsum := d.sum_eq
  rw [h, List.length_append] at hlen
  rw [h, Decoder.weightSum_append, Decoder.weightSum_zeros, Nat.add_zero] at hsum
  exact ⟨⟨probs, d.accLog, by omega, fun p hp => d.range p (h ▸ List.mem_append_left _ hp), hsum,
    d.log_ge, d.log_le⟩, ⟨rfl, ⟨n, h⟩, hlast⟩, rfl⟩

namespace TrimmedTo

variable {d d' : Distribution} (h : TrimmedTo d d')

include h

theorem getD_eq (k : Nat) : d.probs.getD k 0 = d'.probs.getD k 0 := by
  obtain ⟨n, hn⟩ := h.zeros
  rw [hn, List.getD_eq_getElem?_getD, List.getD_eq_getElem?_getD]
  rcases Nat.lt_or_ge k d'.probs.length with hk | hk
  · rw [List.getElem?_append_left hk]
  · rw [List.getElem?_append_right hk, List.getElem?_eq_none hk, List.getElem?_replicate]
    split <;> rfl

theorem slots_eq : d.slots = d'.slots := by
  obtain ⟨n, hn⟩ := h.zeros
  have hlow : d.low = d'.low := by
    rw [Distribution.low, hn, lowFrom_zeros]
    rfl
  have hitems : d.items = d'.items := by
    rw [Distribution.items, hn, itemsFrom_zeros]
    rfl
  have hsize : d.size = d'.size := by rw [Distribution.size, Distribution.size, h.log_eq]
  have hlimit : d.limit = d'.limit := by rw [Distribution.limit, Distribution.limit, hsize, hlow]
  have hwalk : d.walk = d'.walk :=
    walk_ext hsize (by rw [Distribution.walk_step, Distribution.walk_step, hsize]) hlimit
  rw [Distribution.slots, Distribution.slots, hlow, hitems, hsize, hlimit, hwalk]

/-- A table of the one is a table of the other. -/
theorem tableOf {E : Type} [Decoder.FseEntry E] {cap : Nat} {seqMeta : Decoder.SeqMeta}
    {t : Decoder.FSETableImpl E cap} (ht : Decoder.TableOf d' seqMeta t) :
    Decoder.TableOf d seqMeta t where
  log_eq := ht.log_eq.trans h.log_eq
  length_eq := by
    rw [ht.length_eq, Distribution.size, Distribution.size, h.log_eq]
  entry := by
    intro u s hs
    rw [h.slots_eq] at hs ⊢
    rw [ht.entry u s hs, h.log_eq, h.getD_eq]

end TrimmedTo

/-- With two symbols present neither fills the table. -/
theorem Distribution.weight_lt_size {d : Distribution} {x y : Nat} (hy : d.Present y)
    (hne : x ≠ y) : weight (d.probs.getD x 0) < d.size := by
  rw [← d.slots_count, ← d.slots_length]
  apply List.count_le_length.lt_of_ne
  intro hall
  have hnone : d.slots.count y = 0 := by
    apply List.count_eq_zero.mpr
    intro hmem
    exact hne (List.count_eq_length.mp hall y hmem)
  obtain ⟨p, hp, h0⟩ := hy
  rw [d.slots_count, List.getD_eq_getElem?_getD, hp, Option.getD_some, weight] at hnone
  have hrange := d.range p (List.mem_of_getElem? hp)
  split_ifs at hnone
  omega

end Trimmed

/-- A build leaves the largest symbol its table admits. -/
theorem Decoder.buildDecodingTableMeta_maxSymbol {E : Type} [Decoder.FseEntry E] {cap : Nat}
    (t : Decoder.FSETableImpl E cap) (seqMeta : Decoder.SeqMeta) :
    (t.buildDecodingTableMeta seqMeta).2.maxSymbol = t.maxSymbol := by
  rw [Decoder.FSETableImpl.buildDecodingTableMeta]
  dsimp only
  split
  · rfl
  · split
    · rfl
    · split
      · rfl
      · rfl

section Reads

variable {d d' : Distribution} {enc : Encoder.FSETable} {E : Type} {cap : Nat}

/-- A written description reads back from its bytes, whatever follows it. -/
theorem writeTable_reads (he : Encoder.TableOf d enc) (htrim : TrimmedTo d d')
    {t : Decoder.FSETableImpl E cap} (ht : d.probs.length ≤ t.maxSymbol + 1) {maxLog : Nat}
    (hlog : d.accLog ≤ maxLog) {w₀ f₀ : BitWriter}
    (hw₀ : enc.writeTable (.ofOutput []) = some w₀) (hf₀ : w₀.flush = some f₀) {tail : List UInt8}
    (htail : tail ≠ []) :
    t.readProbabilities (f₀.output ++ tail) maxLog = (.ok f₀.output.length,
      { t with accuracyLog := d'.accLog, symbolProbabilities := d'.probs }) := by
  obtain ⟨n, hn⟩ := htrim.zeros
  have hshort : d'.probs.length ≤ d.probs.length := by
    rw [hn, List.length_append]
    exact Nat.le_add_right _ _
  have hlen := d.length_le
  have hw : (BitWriter.ofOutput []).index % 8 = 0 := rfl
  have hprob : ∀ k, (enc.states k).probability = d'.probs.getD k 0 := fun k =>
    (he.probability k).trans (htrim.getD_eq k)
  obtain ⟨body, hbody, hfields⟩ := writeNcountBody_spec
    (show d'.probs.length ≤ 256 from hshort.trans hlen) hprob (.ofOutput [])
  have hmis := body.misaligned_lt
  obtain ⟨written, hpad, hwritten⟩ := body.writeBits_spec (b := 0) (n := body.misaligned)
    (Nat.two_pow_pos _) (by omega)
  obtain ⟨after, hafter, hout, -⟩ := BitWriter.flush_aligned (BitWriter.fill_aligned hwritten)
  have hsame : written = w₀ := by
    rw [Encoder.FSETable.writeTable, he.accLog_eq, ← htrim.log_eq, writeNcount_eq hw,
      hbody] at hw₀
    exact Option.some.inj (hpad.symm.trans hw₀)
  subst hsame
  cases hf₀.symm.trans hafter
  have hbytes : Stack.ofBytes f₀.output = Stack.empty.pushAll
      (bodyFields d' 256 ++ [(0, body.misaligned)]) := by
    rw [hout, hwritten, hfields, BitWriter.ofOutput_toStack, Stack.pushAll_append]
    rfl
  have hwidth : 8 * f₀.output.length = widths (bodyFields d' 256) + body.misaligned := by
    have := congrArg Stack.len hbytes
    rw [Stack.ofBytes_len, Stack.pushAll_len, Stack.empty_len, Nat.zero_add] at this
    rw [this]
    exact widths_append _ [(0, body.misaligned)]
  have hahead := (@ahead_of_bytes f₀.output tail _ (by
    intro f hf
    rcases List.mem_append.mp hf with hf | hf
    · exact bodyFields_clean d' 256 f hf
    · rw [List.mem_singleton.mp hf]
      exact Nat.two_pow_pos _) hbytes).append.1
  have htail' : 0 < tail.length := List.length_pos_of_ne_nil htail
  rw [readProbabilities_fields hahead (by rw [List.length_append]; omega) htrim.last
    (hshort.trans hlen) (hshort.trans ht) (by rw [htrim.log_eq]; exact hlog)]
  congr 2
  omega

/-- A decoder builds its table of such a description. -/
theorem buildDecoder_reads [Decoder.FseEntry E] (he : Encoder.TableOf d enc) (htrim : TrimmedTo d d')
    {t : Decoder.FSETableImpl E cap} (ht : d.probs.length ≤ t.maxSymbol + 1) {maxLog : Nat}
    (hlog : d.accLog ≤ maxLog) (hmax : maxLog ≤ 9) (hcap : 2 ^ maxLog ≤ cap) {w₀ f₀ : BitWriter}
    (hw₀ : enc.writeTable (.ofOutput []) = some w₀) (hf₀ : w₀.flush = some f₀) {tail : List UInt8}
    (htail : tail ≠ []) :
    ∃ dec, t.buildDecoder (f₀.output ++ tail) maxLog = (.ok f₀.output.length, dec) ∧
      Decoder.TableOf d .none dec ∧ dec.maxSymbol = t.maxSymbol := by
  have hmin : min maxLog Decoder.entryMaxAccuracyLog = maxLog :=
    Nat.min_eq_left (hmax.trans (by decide))
  have hread := writeTable_reads he htrim
    (t := ({ t with accuracyLog := 0 } : Decoder.FSETableImpl E cap)) ht hlog hw₀ hf₀ htail
  obtain ⟨n, hn⟩ := htrim.zeros
  have hshort : d'.probs.length ≤ t.maxSymbol + 1 := by
    refine Nat.le_trans ?_ ht
    rw [hn, List.length_append]
    exact Nat.le_add_right _ _
  have hsize : d'.size ≤ cap := by
    refine (Nat.pow_le_pow_right (by decide) ?_).trans hcap
    rw [htrim.log_eq]
    exact hlog
  obtain ⟨hok, htable⟩ := Decoder.buildDecodingTableMeta_spec d' .none
    ({ t with accuracyLog := d'.accLog, symbolProbabilities := d'.probs } :
      Decoder.FSETableImpl E cap) rfl rfl hshort hsize
  rw [Decoder.FSETableImpl.buildDecoder, Decoder.FSETableImpl.buildDecoderFused, hmin, hread]
  dsimp only
  cases hb : Decoder.FSETableImpl.buildDecodingTableMeta
      ({ t with accuracyLog := d'.accLog, symbolProbabilities := d'.probs } :
        Decoder.FSETableImpl E cap) .none with
  | mk result dec =>
    rw [hb] at hok htable
    cases hok
    refine ⟨dec, rfl, htrim.tableOf htable, ?_⟩
    have hkept := Decoder.buildDecodingTableMeta_maxSymbol
      ({ t with accuracyLog := d'.accLog, symbolProbabilities := d'.probs } :
        Decoder.FSETableImpl E cap) .none
    rwa [hb] at hkept

end Reads

end Fse
