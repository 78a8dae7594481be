import StructuredZstd.Fse.FseEncoder

namespace Fse.Encoder

open Bits

theorem bump_eq_weight (p : Int) : bump p = weight p := by
  unfold bump weight
  split_ifs <;> omega

theorem and_mask (d : Distribution) (x : Nat) : x &&& (d.size - 1) = x % d.size := by
  rw [Distribution.size, Nat.and_two_pow_sub_one_eq_mod]

/-- Phase 1 fills the table from the top with the `-1` symbols. -/
theorem distributeLowProb_eq (ps : List Int) (s n : Nat) (above : List Nat)
    (hs : s + ps.length ≤ 256) (hn : (lowFrom ps s).length ≤ n) :
    distributeLowProb ps s (List.replicate n 0 ++ above) ((n : Int) - 1) =
      (List.replicate (n - (lowFrom ps s).length) 0 ++ ((lowFrom ps s).reverse ++ above),
        ((n - (lowFrom ps s).length : Nat) : Int) - 1) := by
  induction ps generalizing s n above with
  | nil => simp [distributeLowProb, lowFrom]
  | cons p ps ih =>
    simp only [List.length_cons] at hs
    by_cases hp : p = -1
    · simp only [lowFrom, distributeLowProb, if_pos hp, List.length_cons] at hn ⊢
      obtain ⟨m, rfl⟩ : ∃ m, n = m + 1 := ⟨n - 1, by omega⟩
      have hset : (List.replicate (m + 1) 0 ++ above).set (((m + 1 : Nat) : Int) - 1).toNat (s % 256)
          = List.replicate m 0 ++ (s :: above) := by
        have hi : (((m + 1 : Nat) : Int) - 1).toNat = m := by omega
        rw [hi, List.replicate_succ', List.append_assoc, List.set_append_right _ _ (by simp)]
        simp [Nat.mod_eq_of_lt (show s < 256 by omega)]
      have hi : ((m + 1 : Nat) : Int) - 1 - 1 = (m : Int) - 1 := by omega
      rw [hset, hi, ih (s + 1) m (s :: above) (by omega) (by omega)]
      simp
    · simp only [lowFrom, distributeLowProb, if_neg hp] at hn ⊢
      exact ih (s + 1) n above (by omega) hn

theorem skipLowProbArea_eq (d : Distribution) (fuel p : Nat) :
    skipLowProbArea d.size ((d.limit : Int) - 1) fuel p = d.walk.skip fuel p := by
  induction fuel generalizing p with
  | zero => rfl
  | succ fuel ih =>
    rw [skipLowProbArea, Walk.skip, and_mask, d.walk_limit]
    by_cases h : p < d.limit
    · rw [if_neg (by omega), if_pos h]
    · rw [if_pos (by omega), if_neg h, ih]
      rfl

theorem spreadSymbol_eq (d : Distribution) {s : Nat} (hs : s < 256) (n p : Nat) (table : List Nat) :
    spreadSymbol d.size ((d.limit : Int) - 1) s n p table =
      d.walk.layDown (List.replicate n s) p table := by
  induction n generalizing p table with
  | zero => rfl
  | succ n ih =>
    rw [spreadSymbol, List.replicate_succ, Walk.layDown, ih, skipLowProbArea_eq, and_mask,
      Nat.mod_eq_of_lt hs]
    rfl

/-- Phase 2 lays the positive symbols down along the walk. -/
theorem spread_eq (d : Distribution) (ps : List Int) (s p : Nat) (table : List Nat)
    (hs : s + ps.length ≤ 256) :
    spread d.size ((d.limit : Int) - 1) ps s p table = d.walk.layDown (itemsFrom ps s) p table := by
  induction ps generalizing s p table with
  | nil => rfl
  | cons q ps ih =>
    simp only [List.length_cons] at hs
    rw [spread, itemsFrom]
    split
    · exact ih (s + 1) p table (by omega)
    · simp only
      rw [Walk.layDown_append, spreadSymbol_eq d (by omega), ih _ _ _ (by omega)]

/-- The walk ends where it began and leaves the slots of the distribution. -/
theorem spread_slots (d : Distribution) :
    d.walk.layDown d.items 0 (List.replicate d.limit 0 ++ d.low.reverse) = (0, d.slots) :=
  d.walk.layDown_round d.items_length _

/-- The writes of phase 3, in order. -/
def filings : List Nat → Nat → List Nat → List (Nat × Nat)
  | [], _, _ => []
  | s :: symbols, u, cursor =>
    (cursor.getD s 0, u) :: filings symbols (u + 1) (cursor.set s (cursor.getD s 0 + 1))

theorem scatter_eq (symbols : List Nat) (u : Nat) (cursor flat : List Nat) :
    scatter symbols u cursor flat = Walk.setAll flat (filings symbols u cursor) := by
  induction symbols generalizing u cursor flat with
  | nil => rfl
  | cons s symbols ih => exact ih _ _ _

@[simp] theorem filings_length (symbols : List Nat) (u : Nat) (cursor : List Nat) :
    (filings symbols u cursor).length = symbols.length := by
  induction symbols generalizing u cursor with
  | nil => rfl
  | cons s symbols ih => simp [filings, ih]

theorem filings_getElem? (symbols : List Nat) (u : Nat) (cursor : List Nat)
    (hc : ∀ s ∈ symbols, s < cursor.length) (i : Nat) :
    (filings symbols u cursor)[i]? =
      symbols[i]?.map (fun s => (cursor.getD s 0 + rank symbols i s, u + i)) := by
  induction symbols generalizing u cursor i with
  | nil => simp [filings]
  | cons a symbols ih =>
    have ha : a < cursor.length := hc a (by simp)
    rcases i with _ | i
    · simp [filings, rank]
    · have htail : ∀ s ∈ symbols, s < (cursor.set a (cursor.getD a 0 + 1)).length := by
        intro s hs
        rw [List.length_set]
        exact hc s (by simp [hs])
      rw [filings, List.getElem?_cons_succ, ih _ _ htail, List.getElem?_cons_succ]
      cases hs : symbols[i]? with
      | none => rfl
      | some s =>
        simp only [Option.map_some, Option.some.injEq, Prod.mk.injEq]
        refine ⟨?_, by omega⟩
        by_cases he : a = s
        · subst he
          simp [rank, List.getD_eq_getElem?_getD, ha]
          omega
        · simp [rank, List.getD_eq_getElem?_getD, he]

theorem scanl_getElem? (ps : List Int) (acc s : Nat) (h : s ≤ ps.length) :
    (ps.scanl (fun acc p => acc + bump p) acc)[s]? = some (acc + weightSum (ps.take s)) := by
  induction ps generalizing acc s with
  | nil =>
    have : s = 0 := by simpa using h
    subst this
    simp
  | cons p ps ih =>
    rcases s with _ | s
    · simp
    · rw [List.scanl_cons, List.getElem?_cons_succ, ih _ _ (by simpa using h), bump_eq_weight,
        List.take_succ_cons, weightSum_cons, Nat.add_assoc]

theorem cumulative_getD (d : Distribution) {s : Nat} (h : s ≤ d.probs.length) :
    (cumulative d.probs).getD s 0 = d.first s := by
  rw [List.getD_eq_getElem?_getD, cumulative, scanl_getElem? _ _ _ h]
  simp [Distribution.first]

/-- After phase 3 every slot is found where it was filed. -/
theorem scatter_filing (d : Distribution) {flat : List Nat} (hf : flat.length = maxFseTableSize)
    {u s : Nat} (h : d.slots[u]? = some s) :
    (scatter d.slots 0 (cumulative d.probs) flat)[d.filing u s]? = some u := by
  have hlen : (cumulative d.probs).length = d.probs.length + 1 := by simp [cumulative]
  have hget : ∀ i s, d.slots[i]? = some s →
      (filings d.slots 0 (cumulative d.probs))[i]? = some (d.filing i s, i) := by
    intro i s hi
    rw [filings_getElem?, hi]
    · rw [Option.map_some, cumulative_getD d (Nat.le_of_lt (d.lt_of_slot hi)), Nat.zero_add]
      rfl
    · intro s' hs'
      have := d.lt_of_mem_slots hs'
      omega
  rw [scatter_eq]
  apply setAll_getElem?_of_mem
  · rw [List.nodup_iff_getElem?_ne_getElem?]
    intro i j hij hj he
    rw [List.length_map, filings_length] at hj
    have hsi : d.slots[i]? = some d.slots[i] := List.getElem?_eq_getElem _
    have hsj : d.slots[j]? = some d.slots[j] := List.getElem?_eq_getElem _
    rw [List.getElem?_map, List.getElem?_map, hget i _ hsi, hget j _ hsj] at he
    have := d.filing_injective hsi hsj (by simpa using he)
    omega
  · exact List.mem_of_getElem? (hget u s h)
  · have := d.filing_lt h
    have := d.size_le
    rw [hf, maxFseTableSize]
    omega

theorem transform_isSome (accLog total : Nat) {p : Int} (h : -1 ≤ p) (h0 : p ≠ 0) :
    ∃ tt, transform accLog total p = some tt := by
  unfold transform
  split_ifs
  · exact ⟨_, rfl⟩
  · exact ⟨_, rfl⟩
  · omega

theorem symbolEntry_isSome (accLog : Nat) (flat : List Nat) (total : Nat) {p : Int} (h : -1 ≤ p) :
    ∃ e, symbolEntry accLog flat total p = some e := by
  unfold symbolEntry
  split_ifs with h0
  · exact ⟨_, rfl⟩
  · obtain ⟨tt, ht⟩ := transform_isSome accLog total h h0
    exact ⟨_, by rw [ht]; rfl⟩

theorem natAbs_eq_weight {p : Int} (h : -1 ≤ p) : p.natAbs = weight p := by
  unfold weight
  split_ifs <;> omega

/-- Phase 4 visits each symbol with the number of slots before it. -/
theorem symbolTables_spec (accLog : Nat) (flat : List Nat) (ps : List Int) (total : Nat)
    (hp : ∀ p ∈ ps, -1 ≤ p) :
    ∃ entries, symbolTables accLog flat ps total = some entries ∧ entries.length = ps.length ∧
      ∀ k p, ps[k]? = some p →
        entries[k]? = symbolEntry accLog flat (total + weightSum (ps.take k)) p := by
  induction ps generalizing total with
  | nil => exact ⟨[], rfl, rfl, by simp⟩
  | cons q ps ih =>
    have hq : -1 ≤ q := hp q (by simp)
    obtain ⟨e, he⟩ := symbolEntry_isSome accLog flat total hq
    obtain ⟨rest, hr, hl, hk⟩ := ih (total + q.natAbs) (fun p h => hp p (by simp [h]))
    refine ⟨e :: rest, by simp [symbolTables, he, hr], by simp [hl], ?_⟩
    intro k p hkp
    rcases k with _ | k
    · simp only [List.getElem?_cons_zero, Option.some.injEq] at hkp
      subst hkp
      simp [he]
    · rw [List.getElem?_cons_succ] at hkp ⊢
      rw [hk k p hkp, natAbs_eq_weight hq, List.take_succ_cons, weightSum_cons, Nat.add_assoc]

/-- What a finished table holds for its distribution. -/
structure TableOf (d : Distribution) (t : FSETable) : Prop where
  size_eq : t.tableSize = d.size
  filed : ∀ u s, d.slots[u]? = some s → t.stateTableFlat[d.filing u s]? = some u
  entry : ∀ s p, d.probs[s]? = some p →
    some (t.states s, t.symbolTT s) = symbolEntry d.accLog t.stateTableFlat (d.first s) p
  live_eq : t.liveSymbols = d.probs.length

/-- The builder never panics on a normalized distribution, whatever table it writes over. -/
theorem build_spec (d : Distribution) (out : FSETable) :
    ∃ t, buildTableFromProbabilitiesInto d.probs d.accLog out = some t ∧ TableOf d t := by
  have hsize : 1 <<< d.accLog = d.size := by rw [Nat.one_shiftLeft, Distribution.size]
  have hpos := d.size_pos
  have hlow : distributeLowProb d.probs 0 (List.replicate d.size 0) ((d.size : Int) - 1) =
      (List.replicate d.limit 0 ++ d.low.reverse, (d.limit : Int) - 1) := by
    have hn : (lowFrom d.probs 0).length ≤ d.size := by
      have := d.low_add_items
      rw [Distribution.low] at this
      omega
    have := distributeLowProb_eq d.probs 0 d.size [] (by have := d.length_le; omega) hn
    simpa [Distribution.limit, Distribution.low] using this
  have hspread : spread d.size ((d.limit : Int) - 1) d.probs 0 0
      (List.replicate d.limit 0 ++ d.low.reverse) = (0, d.slots) := by
    rw [spread_eq d _ _ _ _ (by have := d.length_le; omega)]
    exact spread_slots d
  obtain ⟨entries, he, hl, hk⟩ := symbolTables_spec d.accLog
    (scatter d.slots 0 (cumulative d.probs) out.stateTableFlat) d.probs 0 d.range
  refine ⟨out.install d.size d.slots (cumulative d.probs) entries, ?_, rfl, ?_, ?_, hl⟩
  · have hmax : ¬ maxFseTableSize < d.size := Nat.not_lt.mpr d.size_le
    have hcum : (cumulative d.probs).getD d.probs.length 0 = d.size := by
      rw [cumulative_getD d (Nat.le_refl _), d.first_length]
    unfold buildTableFromProbabilitiesInto
    simp only [hsize, hlow, hspread, he, hcum, if_neg hmax]
    simp
  · intro u s h
    exact scatter_filing d out.flat_length h
  · intro s p hp
    have hs := hk s p hp
    rw [Nat.zero_add] at hs
    obtain ⟨e, hes⟩ : ∃ e, entries[s]? = some e := by
      refine ⟨_, List.getElem?_eq_getElem ?_⟩
      rw [hl]
      exact (List.getElem?_eq_some_iff.mp hp).1
    rw [hes] at hs
    simp only [FSETable.install, hes]
    exact hs

theorem symbolEntry_probability {accLog total : Nat} {flat : List Nat} {p : Int}
    {e : SymbolStates × SymbolTT} (h : symbolEntry accLog flat total p = some e) :
    e.1.probability = p := by
  unfold symbolEntry at h
  split at h
  · cases h
    symm
    assumption
  · cases ht : transform accLog total p with
    | none => rw [ht] at h; cases h
    | some tt =>
      rw [ht] at h
      cases h
      rfl

/-- The table remembers the distribution it was built from. -/
theorem TableOf.probability {d : Distribution} {t : FSETable} (h : TableOf d t) (s : Nat) :
    (t.states s).probability = d.probs.getD s 0 := by
  rw [List.getD_eq_getElem?_getD]
  cases hs : d.probs[s]? with
  | none =>
    rw [(t.dead s (by rw [h.live_eq]; exact List.getElem?_eq_none_iff.mp hs)).1]
    rfl
  | some p => exact symbolEntry_probability (h.entry s p hs).symm

theorem TableOf.accLog_eq {d : Distribution} {t : FSETable} (h : TableOf d t) :
    t.accLog = d.accLog := by
  rw [FSETable.accLog, h.size_eq, Distribution.size, Nat.log2_two_pow]

end Fse.Encoder
