import StructuredZstd.Fse.NormalizeSpec
import StructuredZstd.Fse.TrimmedTables

namespace Fse.Encoder

open Bits BitIo

variable {d : Distribution} {t t' : FSETable}

/-- Two tables no reader tells apart: they may differ past the live part of the state table. -/
structure Same (t t' : FSETable) : Prop where
  states_eq : t.states = t'.states
  tableSize_eq : t.tableSize = t'.tableSize
  flat_eq : t.stateTableFlat.take t.tableSize = t'.stateTableFlat.take t'.tableSize
  symbolTT_eq : t.symbolTT = t'.symbolTT
  live_eq : t.liveSymbols = t'.liveSymbols

theorem TableOf.flat_getD (h : TableOf d t) (h' : TableOf d t') {i : Nat} (hi : i < d.size) :
    t.stateTableFlat[i]? = t'.stateTableFlat[i]? := by
  obtain ⟨u, s, hu, rfl⟩ := d.exists_filing hi
  rw [h.filed u s hu, h'.filed u s hu]

/-- A symbol has one entry whatever the table was built over. -/
theorem TableOf.entry_eq (h : TableOf d t) (h' : TableOf d t') (s : Nat) :
    t.states s = t'.states s ∧ t.symbolTT s = t'.symbolTT s := by
  cases hs : d.probs[s]? with
  | none =>
    have hdead := List.getElem?_eq_none_iff.mp hs
    obtain ⟨h1, h2⟩ := t.dead s (by rwa [h.live_eq])
    obtain ⟨h1', h2'⟩ := t'.dead s (by rwa [h'.live_eq])
    exact ⟨h1.trans h1'.symm, h2.trans h2'.symm⟩
  | some p =>
    have he := h.entry s p hs
    have he' := h'.entry s p hs
    have hflat : symbolEntry d.accLog t.stateTableFlat (d.first s) p =
        symbolEntry d.accLog t'.stateTableFlat (d.first s) p := by
      by_cases h0 : p = 0
      · rw [symbolEntry, symbolEntry, if_pos h0, if_pos h0]
      · have hpos : 0 < weight p := by
          have := d.range p (List.mem_of_getElem? hs)
          unfold weight
          split <;> omega
        obtain ⟨hw, hf⟩ := weight_le hs
        obtain ⟨ht, _⟩ := h.symbolTT hs h0
        obtain ⟨_, _, hinit⟩ := transform_spec (by have := d.log_ge; omega) d.log_le hw ht
        have hstart : initState (t.symbolTT s) t.stateTableFlat =
            initState (t.symbolTT s) t'.stateTableFlat := by
          rw [hinit, hinit, List.getD_eq_getElem?_getD, List.getD_eq_getElem?_getD,
            h.flat_getD h' (by omega)]
        simp only [symbolEntry, if_neg h0, ht, Option.bind_eq_bind, Option.bind_some, hstart]
    have hpair := Option.some.inj (he.trans (hflat.trans he'.symm))
    exact ⟨congrArg Prod.fst hpair, congrArg Prod.snd hpair⟩

theorem TableOf.same (h : TableOf d t) (h' : TableOf d t') : Same t t' where
  states_eq := funext fun s => (h.entry_eq h' s).1
  tableSize_eq := h.size_eq.trans h'.size_eq.symm
  flat_eq := by
    rw [h.size_eq, h'.size_eq]
    apply List.ext_getElem?
    intro i
    by_cases hi : i < d.size
    · rw [List.getElem?_take_of_lt hi, List.getElem?_take_of_lt hi, h.flat_getD h' hi]
    · rw [List.getElem?_eq_none (by simp; omega), List.getElem?_eq_none (by simp; omega)]
  symbolTT_eq := funext fun s => (h.entry_eq h' s).2
  live_eq := h.live_eq.trans h'.live_eq.symm

namespace Same

variable (h : Same t t')

include h

theorem flat_getD_eq {i : Nat} (hi : i < t.tableSize) :
    t.stateTableFlat.getD i 0 = t'.stateTableFlat.getD i 0 := by
  have htake := congrArg (·[i]?) h.flat_eq
  simp only [List.getElem?_take_of_lt hi, List.getElem?_take_of_lt (h.tableSize_eq ▸ hi)] at htake
  rw [List.getD_eq_getElem?_getD, List.getD_eq_getElem?_getD, htake]

theorem nextState_eq : t.nextState = t'.nextState := by
  funext s i
  simp only [FSETable.nextState, ← h.symbolTT_eq, ← h.tableSize_eq]
  split
  · rename_i hslot
    rw [h.flat_getD_eq (by omega)]
  · rfl

theorem startState_eq : t.startState = t'.startState := by
  funext s
  rw [FSETable.startState, FSETable.startState, h.states_eq]

theorem accLog_eq : t.accLog = t'.accLog := by rw [FSETable.accLog, FSETable.accLog, h.tableSize_eq]

theorem writeTable_eq : t.writeTable = t'.writeTable := by
  funext w
  rw [FSETable.writeTable, FSETable.writeTable, h.states_eq, h.accLog_eq]

theorem encodeSymbol_eq : encodeSymbolWithState t = encodeSymbolWithState t' := by
  funext w i s
  rw [encodeSymbolWithState, encodeSymbolWithState, h.nextState_eq]

theorem encodePair_eq : encodePair t = encodePair t' := by
  funext x y u v w
  rw [encodePair, encodePair, h.encodeSymbol_eq]

theorem encodePairs_eq (xs : List Nat) (u v : Nat) (w : BitWriter) :
    encodePairs t xs u v w = encodePairs t' xs u v w := by
  match xs with
  | [] => rfl
  | [_] => rfl
  | x :: y :: rest =>
    simp only [encodePairs, h.encodePair_eq]
    apply Option.bind_congr
    intro r _
    exact encodePairs_eq rest _ _ _

theorem startInterleaved_eq (xs : List Nat) (odd : Bool) (w : BitWriter) :
    startInterleaved t xs odd w = startInterleaved t' xs odd w := by
  match xs, odd with
  | [], true | [], false | [_], true | [_], false | [_, _], true => rfl
  | _ :: _ :: _ :: _, true => simp only [startInterleaved, h.startState_eq, h.encodeSymbol_eq]
  | _ :: _ :: _, false => simp only [startInterleaved, h.startState_eq]

theorem encodeLeadingPair_eq : encodeLeadingPair t = encodeLeadingPair t' := by
  funext n xs u v w
  unfold encodeLeadingPair
  rw [h.encodePair_eq]

/-- The stream is the distribution's, whichever table it was written with. -/
theorem encodeInterleaved_eq (data : List Nat) (w : BitWriter) :
    encodeInterleaved t data w = encodeInterleaved t' data w := by
  simp only [encodeInterleaved, h.writeTable_eq, h.startInterleaved_eq, h.encodeLeadingPair_eq,
    h.encodePairs_eq, h.accLog_eq]

end Same

/-- Building over an earlier table leaves nothing of it behind. -/
theorem build_same (d : Distribution) (out : FSETable) :
    ∃ t t₀, buildTableFromProbabilitiesInto d.probs d.accLog out = some t ∧
      buildTableFromProbabilities d.probs d.accLog = some t₀ ∧ Same t t₀ := by
  obtain ⟨t, ht, htable⟩ := build_spec d out
  obtain ⟨t₀, ht₀, htable₀⟩ := build_spec d FSETable.blank
  exact ⟨t, t₀, ht, ht₀, htable.same htable₀⟩

section Histograms

variable {counts : List Nat} {maxLog : Nat}

/-- A histogram has one distribution, whatever table it is built over. -/
theorem buildTableFromCountsInto_spec (avoid0Numbit : Bool) (htwo : 2 ≤ counts.sum)
    (hle : counts.sum ≤ 2 ^ 31) (hlen : counts.length ≤ 256) (hmin : 5 ≤ maxLog) (hmax : maxLog ≤ 9)
    (hsym : 2 * lastCounted counts < 2 ^ (maxLog - 1)) :
    ∃ d d' : Distribution, TrimmedTo d d' ∧ d.accLog ≤ maxLog ∧
      (∀ s, counts.getD s 0 ≠ 0 → d.Present s) ∧
      ∀ out, ∃ t, buildTableFromCountsInto counts maxLog avoid0Numbit out = some t ∧
        TableOf d t := by
  obtain ⟨hlast, hoccurs, hzero⟩ := lastCounted_spec (show 0 < counts.sum by omega)
  obtain ⟨log, hlog, hlow, hhigh, hroom⟩ :=
    optimalTableLog_spec 2 htwo hmin (hmax.trans (by decide)) hsym
  have htake : (counts.take (lastCounted counts + 1)).length = lastCounted counts + 1 := by
    rw [List.length_take]
    omega
  have hsum : (counts.take (lastCounted counts + 1)).sum = counts.sum := sum_take_of_zero hzero
  have hroomy : Roomy log (counts.take (lastCounted counts + 1)) counts.sum := by
    refine ⟨hsum, by omega, le_fixedPoint hle (by omega), by omega, ?_⟩
    rw [htake]
    exact hroom
  obtain ⟨probs, hprobs, hnorm⟩ := normalizeCounts_spec hroomy avoid0Numbit
  have hplen : probs.length = lastCounted counts + 1 := by rw [← hnorm.served.length_eq, htake]
  have hrange : ∀ p ∈ probs, -1 ≤ p := by
    intro p hp
    obtain ⟨i, hi, rfl⟩ := List.mem_iff_getElem.mp hp
    exact (hnorm.served.get (by rwa [hnorm.served.length_eq]) hi).1
  have hkept : ∀ s, counts.getD s 0 ≠ 0 → ∃ p, probs[s]? = some p ∧ p ≠ 0 := by
    intro s hs
    have hin : s < lastCounted counts + 1 := by
      by_contra hout
      exact hs (hzero s (by omega))
    have hs' : s < counts.length := by omega
    have hcount : (counts.take (lastCounted counts + 1))[s]? = some (counts.getD s 0) := by
      rw [List.getElem?_take_of_lt hin, List.getD_eq_getElem?_getD, List.getElem?_eq_getElem hs',
        Option.getD_some]
    have hserved := (forall₂_getD hnorm.served hcount).2
    refine ⟨probs.getD s 0, ?_, fun h0 => hs (hserved.mp h0)⟩
    rw [List.getD_eq_getElem?_getD, List.getElem?_eq_getElem (by omega), Option.getD_some]
  have hend : probs.getLast? ≠ some 0 := by
    obtain ⟨p, hp, h0⟩ := hkept _ (Nat.ne_of_gt hoccurs)
    rw [List.getLast?_eq_getElem?, hplen, Nat.add_sub_cancel, hp]
    exact fun he => h0 (Option.some.inj he)
  obtain ⟨zeros, hzeros⟩ : ∃ n, n = counts.length - (lastCounted counts + 1) := ⟨_, rfl⟩
  obtain ⟨d, hdprobs, hdlog⟩ : ∃ d : Distribution,
      d.probs = probs ++ List.replicate zeros 0 ∧ d.accLog = log := by
    refine ⟨⟨probs ++ List.replicate zeros 0, log, ?_, ?_, ?_, hlow, by omega⟩, rfl, rfl⟩
    · rw [List.length_append, List.length_replicate]
      omega
    · intro p hp
      rcases List.mem_append.mp hp with hp | hp
      · exact hrange p hp
      · rw [List.eq_of_mem_replicate hp]
        decide
    · rw [Decoder.weightSum_append, Decoder.weightSum_zeros, Nat.add_zero, hnorm.sum_eq]
  obtain ⟨d', htrim, -⟩ := exists_trimmed hdprobs hend
  refine ⟨d, d', htrim, hdlog.trans_le hhigh, ?_, ?_⟩
  · intro s hs
    obtain ⟨p, hp, h0⟩ := hkept s hs
    refine ⟨p, ?_, h0⟩
    rw [hdprobs, List.getElem?_append_left (List.getElem?_eq_some_iff.mp hp).1, hp]
  · intro out
    obtain ⟨t, ht, htable⟩ := build_spec d out
    refine ⟨t, ?_, htable⟩
    rw [hdprobs, hdlog, hzeros] at ht
    simp only [buildTableFromCountsInto, normalizeHistogram, hlog, hprobs, Option.bind_eq_bind,
      Option.bind_some]
    exact ht

end Histograms

end Fse.Encoder
