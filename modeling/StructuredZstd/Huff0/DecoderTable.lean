import StructuredZstd.Huff0.HuffmanDecoder
import Mathlib.Algebra.BigOperators.Group.Finset.Basic
import Mathlib.Algebra.BigOperators.Intervals
import Mathlib.Algebra.Order.BigOperators.Group.Finset

namespace Huff0.Decoder

open Bits BitIo Fse.Decoder Decoding Finset

/-- The slots of one code length, in the order of its symbols. -/
def groupSlots (maxBits : Nat) (bitRanks symOff : List Nat) (sorted : List UInt8) (len : Nat) :
    List PackedEntry :=
  (List.range' 0 (bitRanks.getD len 0)).flatMap fun s =>
    List.replicate (1 <<< (maxBits - len)) ⟨len, sorted.getD (symOff.getD len 0 + s) 0⟩

/-- The slots of the code lengths from `k` down. -/
def slotsDown (maxBits : Nat) (bitRanks symOff : List Nat) (sorted : List UInt8) :
    Nat → List PackedEntry
  | 0 => []
  | k + 1 => groupSlots maxBits bitRanks symOff sorted (k + 1) ++
      slotsDown maxBits bitRanks symOff sorted k

theorem fillGroup_eq (sorted : List UInt8) (len runLen grp count s u : Nat)
    (slots : List PackedEntry) (h : u + count * runLen ≤ slots.length) :
    fillGroup sorted len runLen grp count s u slots =
      slots.take u ++
        (List.range' s count).flatMap (fun j =>
          List.replicate runLen ⟨len, sorted.getD (grp + j) 0⟩) ++
        slots.drop (u + count * runLen) := by
  induction count generalizing s u slots with
  | zero => simp [fillGroup]
  | succ count ih =>
    have hu : u + runLen + count * runLen ≤ slots.length := by
      rw [Nat.succ_mul] at h
      omega
    have hlen : (slots.take u).length = u := by simp; omega
    have hrun : (fillRun slots u runLen ⟨len, sorted.getD (grp + s) 0⟩).length =
        slots.length := by
      simp only [fillRun, List.length_append, List.length_take, List.length_replicate,
        List.length_drop]
      omega
    rw [fillGroup, ih (s + 1) (u + runLen) _ (by omega), List.range'_succ, List.flatMap_cons]
    have htake : (fillRun slots u runLen ⟨len, sorted.getD (grp + s) 0⟩).take (u + runLen) =
        slots.take u ++ List.replicate runLen ⟨len, sorted.getD (grp + s) 0⟩ := by
      rw [fillRun, List.take_left']
      simp [hlen]
    have hdrop : (fillRun slots u runLen ⟨len, sorted.getD (grp + s) 0⟩).drop
        (u + runLen + count * runLen) = slots.drop (u + (count + 1) * runLen) := by
      rw [fillRun, List.drop_append, List.drop_of_length_le (by simp [hlen]), List.nil_append,
        List.drop_drop]
      congr 1
      simp only [List.length_append, hlen, List.length_replicate]
      rw [Nat.succ_mul]
      omega
    rw [htake, hdrop]
    simp only [List.append_assoc]

/-- The slots of the codes longer than `len`. -/
def slotsAbove (maxBits : Nat) (bitRanks : List Nat) (len : Nat) : Nat :=
  ∑ l ∈ Ioc len maxBits, bitRanks.getD l 0 * 2 ^ (maxBits - l)

theorem slotsAbove_pred {maxBits len : Nat} (bitRanks : List Nat) (h0 : 0 < len)
    (h : len ≤ maxBits) :
    slotsAbove maxBits bitRanks (len - 1) =
      slotsAbove maxBits bitRanks len + bitRanks.getD len 0 * 2 ^ (maxBits - len) := by
  have hset : Ioc (len - 1) maxBits = insert len (Ioc len maxBits) := by
    ext l
    simp only [mem_Ioc, mem_insert]
    omega
  rw [slotsAbove, hset, sum_insert (by simp), Nat.add_comm]
  rfl

/-- After `k` rounds the starts of the `k + 1` longest lengths are in place. -/
theorem rankStarts_round (maxBits : Nat) (bitRanks : List Nat) (hm : maxBits ≤ 15) (k : Nat)
    (hk : k ≤ maxBits) :
    let starts := (List.range k).foldl
      (fun starts k => starts.set (maxBits - k - 1)
        (starts.getD (maxBits - k) 0 +
          bitRanks.getD (maxBits - k) 0 * 1 <<< (maxBits - (maxBits - k))))
      (List.replicate 16 0)
    starts.length = 16 ∧
      ∀ len, maxBits - k ≤ len → len ≤ maxBits →
        starts.getD len 0 = slotsAbove maxBits bitRanks len := by
  induction k with
  | zero =>
    refine ⟨by simp, ?_⟩
    intro len h1 h2
    have hlen : len = maxBits := by omega
    subst hlen
    rw [List.range_zero, List.foldl_nil, List.getD_eq_getElem?_getD, List.getElem?_replicate,
      if_pos (by omega), slotsAbove, Ioc_self, sum_empty, Option.getD_some]
  | succ k ih =>
    obtain ⟨hl, hstarts⟩ := ih (by omega)
    rw [List.range_succ, List.foldl_append]
    simp only [List.foldl_cons, List.foldl_nil]
    refine ⟨by rw [List.length_set]; exact hl, ?_⟩
    intro len h1 h2
    rw [List.getD_eq_getElem?_getD, List.getElem?_set]
    split
    · rename_i he
      rw [if_pos (by omega), Option.getD_some, hstarts (maxBits - k) (by omega) (by omega),
        Nat.one_shiftLeft, ← he, slotsAbove_pred bitRanks (by omega) (by omega)]
    · rename_i he
      rw [← List.getD_eq_getElem?_getD]
      exact hstarts len (by omega) h2

theorem rankStarts_getD {maxBits : Nat} (bitRanks : List Nat) (hm : maxBits ≤ 15) {len : Nat}
    (h : len ≤ maxBits) :
    (rankStarts maxBits bitRanks).getD len 0 = slotsAbove maxBits bitRanks len :=
  (rankStarts_round maxBits bitRanks hm maxBits (Nat.le_refl _)).2 len (by omega) h

theorem groupSlots_length (maxBits : Nat) (bitRanks symOff : List Nat) (sorted : List UInt8)
    (len : Nat) :
    (groupSlots maxBits bitRanks symOff sorted len).length =
      bitRanks.getD len 0 * 2 ^ (maxBits - len) := by
  simp [groupSlots, List.length_flatMap, Nat.one_shiftLeft]

/-- The fill loop lays the groups out from the longest codes to the shortest. -/
theorem fillSlots_eq {maxBits : Nat} (bitRanks symOff : List Nat) (sorted : List UInt8)
    (hm : maxBits ≤ 15) (hkraft : slotsAbove maxBits bitRanks 0 = 2 ^ maxBits) :
    fillSlots maxBits bitRanks (rankStarts maxBits bitRanks) symOff sorted =
      slotsDown maxBits bitRanks symOff sorted maxBits := by
  -- after `k` rounds everything from the start of length `k` on is final
  suffices ∀ k ≤ maxBits, ∃ pre : List PackedEntry,
      pre.length = slotsAbove maxBits bitRanks k ∧
      (List.range k).foldl
        (fun slots k => fillGroup sorted (k + 1) (1 <<< (maxBits - (k + 1)))
          (symOff.getD (k + 1) 0) (bitRanks.getD (k + 1) 0) 0
          ((rankStarts maxBits bitRanks).getD (k + 1) 0) slots)
        (List.replicate (1 <<< maxBits) {}) =
        pre ++ slotsDown maxBits bitRanks symOff sorted k by
    obtain ⟨pre, hpre, he⟩ := this maxBits (Nat.le_refl _)
    have hnil : pre = [] := by
      apply List.eq_nil_of_length_eq_zero
      rw [hpre, slotsAbove, Ioc_self, sum_empty]
    rw [fillSlots, he, hnil, List.nil_append]
  intro k hk
  induction k with
  | zero =>
    exact ⟨List.replicate (1 <<< maxBits) {}, by simp [hkraft, Nat.one_shiftLeft],
      by simp [slotsDown]⟩
  | succ k ih =>
    obtain ⟨pre, hpre, he⟩ := ih (by omega)
    have hstart := rankStarts_getD bitRanks hm hk
    have hstep := slotsAbove_pred bitRanks (Nat.succ_pos k) hk
    rw [Nat.succ_eq_add_one, Nat.add_sub_cancel] at hstep
    refine ⟨pre.take (slotsAbove maxBits bitRanks (k + 1)), by simp; omega, ?_⟩
    rw [List.range_succ, List.foldl_append, he]
    simp only [List.foldl_cons, List.foldl_nil]
    rw [hstart, fillGroup_eq _ _ _ _ _ _ _ _ (by
      rw [List.length_append, Nat.one_shiftLeft]
      omega)]
    rw [List.take_append_of_le_length (by omega), Nat.one_shiftLeft, ← hstep, ← hpre,
      List.drop_left, List.append_assoc]
    congr 1
    rw [slotsDown, groupSlots, Nat.one_shiftLeft]

theorem slotsDown_length (maxBits : Nat) (bitRanks symOff : List Nat) (sorted : List UInt8)
    (hkraft : slotsAbove maxBits bitRanks 0 = 2 ^ maxBits) :
    (slotsDown maxBits bitRanks symOff sorted maxBits).length = 2 ^ maxBits := by
  suffices ∀ k ≤ maxBits, (slotsDown maxBits bitRanks symOff sorted k).length +
      slotsAbove maxBits bitRanks k = 2 ^ maxBits by
    have h := this maxBits (Nat.le_refl _)
    rwa [slotsAbove, Ioc_self, sum_empty] at h
  intro k hk
  induction k with
  | zero => simp [slotsDown, hkraft]
  | succ k ih =>
    have hstep := slotsAbove_pred bitRanks (Nat.succ_pos k) hk
    rw [Nat.succ_eq_add_one, Nat.add_sub_cancel] at hstep
    have hk' := ih (by omega)
    rw [slotsDown, List.length_append, groupSlots_length]
    omega

/-- What the accumulator of the weight loops stands for. -/
structure WeightAcc.Sound (acc : WeightAcc) : Prop where
  ranks : acc.weightRankCount.length = maxMaxNumBits + 1
  count : ∀ w, acc.weightRankCount.getD w 0 = acc.weights.count w
  le : ∀ w ∈ acc.weights, w ≤ maxMaxNumBits
  sum : acc.weightSum = (acc.weights.map fun w => 2 ^ w / 2).sum

theorem WeightAcc.sound_empty : WeightAcc.Sound {} where
  ranks := rfl
  count := by
    intro w
    rw [List.getD_eq_getElem?_getD, List.getElem?_replicate]
    split <;> rfl
  le := by simp
  sum := rfl

theorem WeightAcc.Sound.push {acc : WeightAcc} (h : acc.Sound) {w : Nat}
    (hw : w ≤ maxMaxNumBits) : (acc.push w).Sound where
  ranks := by simp [WeightAcc.push, h.ranks]
  count := by
    intro v
    rw [WeightAcc.push, List.count_append, List.count_singleton, List.getD_eq_getElem?_getD,
      List.getElem?_set]
    split
    · rename_i he
      subst he
      rw [if_pos (by rw [h.ranks]; omega), Option.getD_some, h.count]
      simp
    · rename_i he
      rw [← List.getD_eq_getElem?_getD, h.count]
      simp [he]
  le := by
    intro v hv
    simp only [WeightAcc.push, List.mem_append, List.mem_singleton] at hv
    rcases hv with hv | rfl
    · exact h.le v hv
    · exact hw
  sum := by
    simp only [WeightAcc.push, List.map_append, List.map_singleton, List.sum_append,
      List.sum_singleton, ← h.sum, Nat.one_shiftLeft]
    cases w with
    | zero => simp
    | succ w => simp [Nat.pow_succ]

theorem pushWeightLimited_sound {acc acc' : WeightAcc} {w : Nat} (h : acc.Sound)
    (hp : pushWeightLimited acc w = .ok acc') : acc'.Sound := by
  unfold pushWeightLimited at hp
  split at hp
  · cases hp
  · split at hp
    · cases hp
    · cases hp
      exact h.push (by omega)

theorem pushWeightRaw_sound {acc acc' : WeightAcc} {w : Nat} (h : acc.Sound)
    (hp : pushWeightRaw acc w = .ok acc') : acc'.Sound := by
  unfold pushWeightRaw at hp
  split at hp
  · cases hp
  · cases hp
    exact h.push (by omega)

theorem decodeWeights_sound (t : FSETableImpl Entry 64) (fuel : Nat) (state1 state2 : Entry)
    (br : BitReaderReversed) {acc acc' : WeightAcc} (h : acc.Sound)
    (hd : decodeWeights t fuel state1 state2 br acc = (.ok (), acc')) : acc'.Sound := by
  induction fuel generalizing state1 state2 br acc with
  | zero =>
    cases hd
    exact h
  | succ fuel ih =>
    simp only [decodeWeights] at hd
    split at hd
    · cases hd
    · rename_i acc1 h1
      have s1 := pushWeightLimited_sound h h1
      split at hd
      · split at hd
        · cases hd
        · rename_i acc2 h2
          cases hd
          exact pushWeightLimited_sound s1 h2
      · split at hd
        · cases hd
        · rename_i acc2 h2
          have s2 := pushWeightLimited_sound s1 h2
          split at hd
          · split at hd
            · cases hd
            · rename_i acc3 h3
              cases hd
              exact pushWeightLimited_sound s2 h3
          · exact ih _ _ _ s2 hd

theorem readNibbles_sound (numWeights : Nat) (bytes : List UInt8) (idx : Nat)
    {acc acc' : WeightAcc} (h : acc.Sound)
    (hr : readNibbles numWeights bytes idx acc = (.ok (), acc')) : acc'.Sound := by
  induction bytes generalizing idx acc with
  | nil =>
    cases hr
    exact h
  | cons byte rest ih =>
    simp only [readNibbles] at hr
    split at hr
    · cases hr
    · rename_i acc1 h1
      have s1 := pushWeightRaw_sound h h1
      split at hr
      · split at hr
        · cases hr
        · rename_i acc2 h2
          exact ih _ (pushWeightRaw_sound s1 h2) hr
      · exact ih _ s1 hr

namespace HuffmanTable

/-- The weights of a table and what has been counted of them. -/
def WeightsSound (t : HuffmanTable) : Prop :=
  WeightAcc.Sound ⟨t.weights, t.weightSum, t.weightRankCount⟩

theorem readWeights_ok {t t' : HuffmanTable} {source : List UInt8} {n : Nat}
    (h : t.readWeights source = (.ok n, t')) : t'.WeightsSound := by
  cases source with
  | nil => cases h
  | cons header rest =>
    simp only [readWeights] at h
    split at h
    · simp only [readCompressedWeights] at h
      repeat' split at h
      all_goals cases h
      rename_i acc hacc
      exact decodeWeights_sound _ _ _ _ _ WeightAcc.sound_empty hacc
    · simp only [readRawWeights] at h
      repeat' split at h
      all_goals cases h
      rename_i acc hacc
      exact readNibbles_sound _ _ _ WeightAcc.sound_empty hacc

end HuffmanTable

/-- The weights of a list against how often each of them occurs. -/
theorem sum_weights_eq_sum_count {ws : List Nat} {m : Nat} (h : ∀ w ∈ ws, w ≤ m) :
    (ws.map fun w => 2 ^ w / 2).sum = ∑ w ∈ Ioc 0 m, ws.count w * (2 ^ w / 2) := by
  induction ws with
  | nil => simp
  | cons x ws ih =>
    have hrest := ih fun w hw => h w (List.mem_cons_of_mem x hw)
    have hx : (∑ w ∈ Ioc 0 m, (if x = w then 1 else 0) * (2 ^ w / 2)) = 2 ^ x / 2 := by
      cases x with
      | zero =>
        apply sum_eq_zero
        intro w hw
        rw [mem_Ioc] at hw
        simp [show ¬ 0 = w by omega]
      | succ x =>
        have hm := h (x + 1) (by simp)
        simp only [ite_mul, one_mul, zero_mul]
        rw [sum_ite_eq, if_pos (by rw [mem_Ioc]; omega)]
    rw [List.map_cons, List.sum_cons, hrest, ← hx, ← sum_add_distrib]
    apply sum_congr rfl
    intro w _
    rw [← add_mul, List.count_cons, Nat.add_comm]
    simp only [beq_iff_eq]

theorem rankCodes_round {maxBits : Nat} (weightRankCount init : List Nat)
    (hl : init.length = maxMaxNumBits + 1) (hm : maxBits ≤ maxMaxNumBits) (k : Nat)
    (hk : k ≤ maxBits) :
    let ranks := (List.range k).foldl
      (fun ranks k => ranks.set (maxBits + 1 - (k + 1)) (weightRankCount.getD (k + 1) 0)) init
    ranks.length = maxMaxNumBits + 1 ∧
      ∀ len, maxBits - k < len → len ≤ maxBits →
        ranks.getD len 0 = weightRankCount.getD (maxBits + 1 - len) 0 := by
  induction k with
  | zero =>
    refine ⟨hl, ?_⟩
    intro len h1 h2
    omega
  | succ k ih =>
    obtain ⟨hlen, hranks⟩ := ih (by omega)
    rw [List.range_succ, List.foldl_append]
    simp only [List.foldl_cons, List.foldl_nil]
    refine ⟨by rw [List.length_set]; exact hlen, ?_⟩
    intro len h1 h2
    rw [List.getD_eq_getElem?_getD, List.getElem?_set]
    split
    · rename_i he
      rw [if_pos (by omega), Option.getD_some]
      congr 1
      omega
    · rename_i he
      rw [← List.getD_eq_getElem?_getD]
      exact hranks len (by omega) h2

/-- The codes of a length are the weights it belongs to, the implied one with them. -/
theorem rankCodes_getD {maxBits lastWeight len : Nat} (weightRankCount : List Nat)
    (hm : maxBits ≤ maxMaxNumBits) (h0 : 0 < len) (h : len ≤ maxBits) :
    (rankCodes maxBits lastWeight weightRankCount).getD len 0 =
      weightRankCount.getD (maxBits + 1 - len) 0 +
        (if maxBits + 1 - lastWeight = len then 1 else 0) := by
  have hround := rankCodes_round weightRankCount
    ((List.replicate (maxMaxNumBits + 1) 0).set 0 (weightRankCount.getD 0 0)) (by simp) hm
    maxBits (Nat.le_refl _)
  obtain ⟨hlen, hranks⟩ := hround
  simp only [rankCodes]
  rw [List.getD_eq_getElem?_getD, List.getElem?_set]
  split
  · rename_i he
    rw [if_pos (by rw [hlen]; omega), Option.getD_some, he]
    rw [hranks len (by omega) h]
  · rename_i he
    rw [← List.getD_eq_getElem?_getD, hranks len (by omega) h]
    rfl

/-- No weight is larger than the width of the table it completes to. -/
theorem WeightAcc.Sound.le_width {acc : WeightAcc} (hs : acc.Sound) {maxBits lastWeight : Nat}
    (hsum : acc.weightSum + 2 ^ (lastWeight - 1) = 2 ^ maxBits) : ∀ w ∈ acc.weights, w ≤ maxBits := by
  intro w hw
  have h1 : 2 ^ w / 2 ≤ acc.weightSum := by
    rw [hs.sum]
    exact List.single_le_sum (by simp) _ (List.mem_map_of_mem hw)
  by_contra hlt
  have h2 : 2 ^ maxBits ≤ 2 ^ w / 2 := by
    obtain ⟨v, rfl⟩ : ∃ v, w = v + 1 := ⟨w - 1, by omega⟩
    rw [Nat.pow_succ, Nat.mul_div_cancel _ (by decide)]
    exact Nat.pow_le_pow_right (by decide) (by omega)
  have h3 := Nat.two_pow_pos (lastWeight - 1)
  omega

/-- The codes fill the table. -/
theorem rankCodes_kraft {acc : WeightAcc} (hs : acc.Sound) {maxBits lastWeight : Nat}
    (hm : maxBits ≤ maxMaxNumBits) (hl0 : 0 < lastWeight) (hl : lastWeight ≤ maxBits)
    (hsum : acc.weightSum + 2 ^ (lastWeight - 1) = 2 ^ maxBits) :
    slotsAbove maxBits (rankCodes maxBits lastWeight acc.weightRankCount) 0 = 2 ^ maxBits := by
  rw [← hsum, hs.sum, sum_weights_eq_sum_count (hs.le_width hsum)]
  have hlast : 2 ^ (lastWeight - 1) =
      ∑ w ∈ Ioc 0 maxBits, (if lastWeight = w then 1 else 0) * (2 ^ w / 2) := by
    simp only [ite_mul, one_mul, zero_mul]
    rw [sum_ite_eq, if_pos (by rw [mem_Ioc]; omega)]
    obtain ⟨v, rfl⟩ : ∃ v, lastWeight = v + 1 := ⟨lastWeight - 1, by omega⟩
    rw [Nat.pow_succ, Nat.mul_div_cancel _ (by decide), Nat.add_sub_cancel]
  rw [hlast, ← sum_add_distrib, slotsAbove]
  apply sum_nbij' (fun len => maxBits + 1 - len) (fun w => maxBits + 1 - w)
  · intro len hlen
    rw [mem_Ioc] at *
    omega
  · intro w hw
    rw [mem_Ioc] at *
    omega
  · intro len hlen
    rw [mem_Ioc] at hlen
    omega
  · intro w hw
    rw [mem_Ioc] at hw
    omega
  · intro len hlen
    rw [mem_Ioc] at hlen
    have hpow : 2 ^ (maxBits + 1 - len) / 2 = 2 ^ (maxBits - len) := by
      rw [show maxBits + 1 - len = maxBits - len + 1 by omega, Nat.pow_succ,
        Nat.mul_div_cancel _ (by decide)]
    have hiff : (maxBits + 1 - lastWeight = len) ↔ (lastWeight = maxBits + 1 - len) := by omega
    rw [rankCodes_getD _ hm hlen.1 hlen.2, hs.count, hpow, ← add_mul]
    simp only [hiff]

theorem highestBitSet_of_ne_zero {x : Nat} (h : x ≠ 0) :
    0 < highestBitSet x ∧ 2 ^ (highestBitSet x - 1) ≤ x ∧ x < 2 ^ highestBitSet x := by
  rw [highestBitSet, if_neg h]
  exact ⟨Nat.succ_pos _, Nat.log2_self_le h, Nat.lt_log2_self⟩

theorem highestBitSet_two_pow (k : Nat) : highestBitSet (2 ^ k) = k + 1 := by
  rw [highestBitSet, if_neg (Nat.two_pow_pos k).ne', Nat.log2_two_pow]

namespace HuffmanTable

/-- What a successful `computeHuffmanBits` has found: a width within the limit and the weight
that completes the others. -/
theorem computeHuffmanBits_ok {t t' : HuffmanTable} {maxBits : Nat}
    (h : t.computeHuffmanBits = (.ok maxBits, t')) :
    ∃ lastWeight, 0 < lastWeight ∧ lastWeight ≤ maxBits ∧ 0 < maxBits ∧
      maxBits ≤ maxMaxNumBits ∧ t.weightSum + 2 ^ (lastWeight - 1) = 2 ^ maxBits ∧
      t' = { t with
        lastWeight := lastWeight
        bits := codeLengths t.weights maxBits lastWeight
        maxNumBits := maxBits
        stateMask := 1 <<< maxBits - 1 } := by
  simp only [computeHuffmanBits] at h
  split at h
  · cases h
  · rename_i hsum
    obtain ⟨hpos, hlow, hhigh⟩ := highestBitSet_of_ne_zero hsum
    split at h
    · cases h
    · rename_i hpow
      obtain ⟨k, hk⟩ := Classical.not_not.mp hpow
      rw [Nat.one_shiftLeft] at hk
      have hlast : highestBitSet (1 <<< highestBitSet t.weightSum - t.weightSum) = k + 1 := by
        rw [Nat.one_shiftLeft, hk, highestBitSet_two_pow]
      split at h
      · cases h
      · rename_i hmax
        cases h
        have hhalf : 2 ^ highestBitSet t.weightSum = 2 * 2 ^ (highestBitSet t.weightSum - 1) := by
          conv_lhs => rw [← Nat.sub_add_cancel hpos]
          rw [Nat.pow_succ, Nat.mul_comm]
        have hle : k < highestBitSet t.weightSum :=
          (Nat.pow_lt_pow_iff_right (by decide : 1 < 2)).mp (by omega)
        refine ⟨k + 1, Nat.succ_pos _, hle, hpos, by omega, ?_, ?_⟩
        · rw [Nat.add_sub_cancel, ← hk]
          omega
        · rw [hlast]

/-- A decode table with a slot for every value of its width. -/
structure Filled (t : HuffmanTable) : Prop where
  length : t.packedDecode.length = 2 ^ t.maxNumBits
  pos : 0 < t.maxNumBits
  le : t.maxNumBits ≤ maxMaxNumBits

/-- The decode table a successful build leaves. -/
theorem buildTableFromWeights_ok {t t' : HuffmanTable} (hs : t.WeightsSound)
    (h : t.buildTableFromWeights = (.ok (), t')) : t'.Filled := by
  simp only [buildTableFromWeights] at h
  split at h
  · cases h
  · rename_i maxBits t1 h1
    cases h
    obtain ⟨lastWeight, hl0, hl, hm0, hm, hsum, rfl⟩ := computeHuffmanBits_ok h1
    refine ⟨?_, hm0, hm⟩
    have hkraft := rankCodes_kraft hs hm hl0 hl hsum
    show (fillSlots _ _ _ _ _).length = _
    rw [fillSlots_eq _ _ _ (Nat.le_trans hm (by decide)) hkraft, slotsDown_length _ _ _ _ hkraft]

theorem buildDecoder_ok {t t' : HuffmanTable} {source : List UInt8} {n : Nat}
    (h : t.buildDecoder source = (.ok n, t')) : t'.Filled := by
  simp only [buildDecoder] at h
  split at h
  · cases h
  · rename_i n1 t1 h1
    split at h
    · cases h
    · rename_i t2 h2
      cases h
      exact buildTableFromWeights_ok (readWeights_ok h1) h2

theorem readWeights_packedDecode (t : HuffmanTable) (source : List UInt8) :
    (t.readWeights source).2.packedDecode = t.packedDecode := by
  cases source with
  | nil => rfl
  | cons header rest =>
    simp only [readWeights, readCompressedWeights, readRawWeights, withWeights]
    repeat' split
    all_goals rfl

theorem computeHuffmanBits_packedDecode (t : HuffmanTable) :
    t.computeHuffmanBits.2.packedDecode = t.packedDecode := by
  simp only [computeHuffmanBits]
  repeat' split
  all_goals rfl

/-- A failed build has emptied the decode table. -/
theorem buildDecoder_error {t t' : HuffmanTable} {source : List UInt8} {e : HuffmanTableError}
    (h : t.buildDecoder source = (.error e, t')) : t'.packedDecode = [] := by
  have hread := readWeights_packedDecode { t with packedDecode := [] } source
  simp only [buildDecoder] at h
  split at h
  · rename_i h1
    cases h
    rw [h1] at hread
    exact hread
  · rename_i n1 t1 h1
    rw [h1] at hread
    split at h
    · rename_i h2
      cases h
      have hbits := computeHuffmanBits_packedDecode t1
      simp only [buildTableFromWeights] at h2
      split at h2
      · rename_i h3
        cases h2
        rw [h3] at hbits
        rw [hbits]
        exact hread
      · cases h2
    · cases h

end HuffmanTable

end Huff0.Decoder
