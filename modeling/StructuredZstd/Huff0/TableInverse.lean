import StructuredZstd.Bits.Canonical
import StructuredZstd.Fse.EncoderBuild
import StructuredZstd.Huff0.DecoderTable
import StructuredZstd.Huff0.HuffmanEncoder

namespace Huff0

open Bits Finset

/-- The weight of a code length. -/
def weightOf (maxBits len : Nat) : Nat := if len = 0 then 0 else maxBits - len + 1

namespace Encoder

variable {lengths : List Nat} {maxBits : Nat}

theorem count_weightOf (hle : ∀ l ∈ lengths, l ≤ maxBits) {w : Nat} (h0 : 0 < w)
    (hw : w ≤ maxBits) :
    (lengths.map (weightOf maxBits)).count w = lengths.count (maxBits + 1 - w) := by
  induction lengths with
  | nil => rfl
  | cons l ls ih =>
    have hl := hle l List.mem_cons_self
    have ih' := ih fun x hx => hle x (List.mem_cons_of_mem l hx)
    rw [List.map_cons, List.count_cons, List.count_cons, ih']
    congr 1
    unfold weightOf
    simp only [beq_iff_eq]
    split_ifs <;> omega

theorem count_weightOf_large (hle : ∀ l ∈ lengths, l ≤ maxBits) {w : Nat} (hw : maxBits < w) :
    (lengths.map (weightOf maxBits)).count w = 0 := by
  rw [List.count_eq_zero]
  intro hmem
  obtain ⟨l, hl, he⟩ := List.mem_map.mp hmem
  have := hle l hl
  unfold weightOf at he
  split_ifs at he <;> omega

theorem weightSum_eq_sum (perWeight : Nat → Nat) :
    weightSum perWeight = ∑ w ∈ Ioc 0 12, perWeight w * 2 ^ (w - 1) := by
  simp only [weightSum, Nat.shiftLeft_eq]
  simp [List.range', Finset.sum_Ioc_succ_top]
  omega

/-- The weights of a complete code add up to its table. -/
theorem weightSum_complete (h : CompleteCode lengths maxBits) (hmax : maxBits ≤ 12) :
    weightSum (fun w => (lengths.map (weightOf maxBits)).count w) = 2 ^ maxBits := by
  have hcut : ∑ w ∈ Ioc 0 12, (lengths.map (weightOf maxBits)).count w * 2 ^ (w - 1) =
      ∑ w ∈ Ioc 0 maxBits, (lengths.map (weightOf maxBits)).count w * 2 ^ (w - 1) := by
    symm
    apply sum_subset (Ioc_subset_Ioc_right hmax)
    intro w _ hw
    rw [mem_Ioc] at *
    rw [count_weightOf_large h.le (by omega), Nat.zero_mul]
  rw [weightSum_eq_sum, hcut, ← h.full, longer]
  apply sum_nbij' (fun w => maxBits + 1 - w) (fun l => maxBits + 1 - l)
  · intro w hw
    rw [mem_Ioc] at *
    omega
  · intro l hl
    rw [mem_Ioc] at *
    omega
  · intro w hw
    rw [mem_Ioc] at hw
    omega
  · intro l hl
    rw [mem_Ioc] at hl
    omega
  · intro w hw
    rw [mem_Ioc] at hw
    have he : maxBits - (maxBits + 1 - w) = w - 1 := by omega
    rw [count_weightOf h.le hw.1 hw.2, he]

/-- What the loop over the widths has found when those above `len` are behind it. -/
structure FirstCodes (lengths : List Nat) (maxBits len : Nat) (acc : List Nat × Nat) : Prop where
  length_eq : acc.1.length = 13
  min_eq : acc.2 = firstCode lengths maxBits len
  found : ∀ l, len < l → l ≤ maxBits → acc.1.getD l 0 = firstCode lengths maxBits l

theorem FirstCodes.step (h : CompleteCode lengths maxBits) (hmax : maxBits ≤ 12)
    (hlen : lengths.length ≤ 256) {k : Nat} (hk : k < maxBits) {acc : List Nat × Nat}
    (hacc : FirstCodes lengths maxBits (maxBits - k) acc) :
    FirstCodes lengths maxBits (maxBits - (k + 1)) (firstCodesStep
      (fun w => (lengths.map (weightOf maxBits)).count w) maxBits k acc) := by
  have hcount : (lengths.map (weightOf maxBits)).count (maxBits + 1 - (maxBits - k)) =
      lengths.count (maxBits - k) := by
    rw [count_weightOf h.le (by omega) (by omega)]
    congr 1
    omega
  refine ⟨?_, ?_, ?_⟩
  · rw [firstCodesStep, List.length_set]
    exact hacc.length_eq
  · -- the running minimum stays far inside its sixteen bits
    have hbound : firstCode lengths maxBits (maxBits - k) ≤ 2 ^ 12 :=
      (Nat.div_le_self _ _).trans
        ((h.longer_le _).trans (Nat.pow_le_pow_right (by decide) hmax))
    have hcl : lengths.count (maxBits - k) ≤ 256 := List.count_le_length.trans hlen
    have hpred : firstCode lengths maxBits (maxBits - k - 1) =
        (firstCode lengths maxBits (maxBits - k) + lengths.count (maxBits - k)) / 2 :=
      h.firstCode_pred (by omega) (by omega)
    simp only [firstCodesStep]
    rw [hacc.min_eq, hcount, Nat.mod_eq_of_lt (by omega), Nat.shiftRight_eq_div_pow, Nat.pow_one,
      ← hpred]
    rfl
  · intro l h1 h2
    rw [firstCodesStep, List.getD_eq_getElem?_getD, List.getElem?_set]
    split
    · rename_i heq
      rw [if_pos (by rw [hacc.length_eq]; omega), Option.getD_some, hacc.min_eq, heq]
    · rw [← List.getD_eq_getElem?_getD]
      exact hacc.found l (by omega) h2

/-- The loop finds the first code of every width. -/
theorem FirstCodes.run (h : CompleteCode lengths maxBits) (hmax : maxBits ≤ 12)
    (hlen : lengths.length ≤ 256) (k : Nat) (hk : k ≤ maxBits) :
    FirstCodes lengths maxBits (maxBits - k) ((List.range k).foldl (fun acc k => firstCodesStep
      (fun w => (lengths.map (weightOf maxBits)).count w) maxBits k acc)
      (List.replicate 13 0, 0)) := by
  induction k with
  | zero =>
    refine ⟨rfl, ?_, ?_⟩
    · simp [firstCode, longer]
    · intro l h1 h2
      omega
  | succ k ih =>
    rw [List.range_succ, List.foldl_append]
    exact FirstCodes.step h hmax hlen hk (ih (by omega))

/-- The codes of each width count up from its first code. -/
theorem assignCodes_getElem? (hle : ∀ l ∈ lengths, l ≤ maxBits) (vals : List Nat)
    (hvals : maxBits < vals.length) (s len : Nat) (hs : lengths[s]? = some len) :
    (assignCodes maxBits (lengths.map (weightOf maxBits)) vals)[s]? =
      some (if len = 0 then (0, 0) else (vals.getD len 0 + rank lengths s len, len)) := by
  induction lengths generalizing vals s with
  | nil => simp at hs
  | cons l ls ih =>
    have hl := hle l List.mem_cons_self
    have ih' := ih fun x hx => hle x (List.mem_cons_of_mem l hx)
    rw [List.map_cons, assignCodes]
    by_cases h0 : l = 0
    · have hw : weightOf maxBits l = 0 := by rw [weightOf, if_pos h0]
      rw [if_pos hw]
      cases s with
      | zero =>
        rw [List.getElem?_cons_zero, Option.some.injEq] at hs
        simp [← hs, h0]
      | succ s =>
        rw [List.getElem?_cons_succ] at hs ⊢
        rw [ih' vals hvals s hs]
        split
        · rfl
        · rename_i hne
          have : rank (l :: ls) (s + 1) len = rank ls s len := by
            rw [rank, rank, List.take_succ_cons, List.count_cons_of_ne (by omega)]
          rw [this]
    · have hw : weightOf maxBits l ≠ 0 := by
        rw [weightOf, if_neg h0]
        omega
      have hnb : maxBits + 1 - weightOf maxBits l = l := by
        rw [weightOf, if_neg h0]
        omega
      simp only [if_neg hw, hnb]
      cases s with
      | zero =>
        rw [List.getElem?_cons_zero, Option.some.injEq] at hs
        subst hs
        simp [h0, rank]
      | succ s =>
        rw [List.getElem?_cons_succ] at hs ⊢
        rw [ih' _ (by rwa [List.length_set]) s hs]
        split
        · rfl
        · rename_i hne
          have hr : (vals.set l (vals.getD l 0 + 1)).getD len 0 + rank ls s len =
              vals.getD len 0 + rank (l :: ls) (s + 1) len := by
            rw [rank, rank, List.take_succ_cons, List.count_cons, List.getD_eq_getElem?_getD,
              List.getElem?_set]
            by_cases heq : l = len
            · subst heq
              rw [if_pos rfl, if_pos (by omega), Option.getD_some]
              simp
              omega
            · rw [if_neg heq, ← List.getD_eq_getElem?_getD]
              simp [heq]
          rw [hr]

/-- The encoder table of a complete code: every symbol has its canonical code. -/
structure TableOf (lengths : List Nat) (maxBits : Nat) (t : HuffmanTable) : Prop where
  log_eq : t.tableLog = maxBits
  length_eq : t.codes.length = lengths.length
  code : ∀ s len, lengths[s]? = some len → t.codes[s]? =
    some (if len = 0 then (0, 0) else (codeAt lengths maxBits s len, len))
  packed : ∀ s len, lengths[s]? = some len → t.packedCodes.getD s 0 =
    if len = 0 then 0 else packHufCelt (codeAt lengths maxBits s len) len

theorem buildFromWeightsReusing_spec (h : CompleteCode lengths maxBits) (h0 : 0 < maxBits)
    (hmax : maxBits ≤ 12) (hlen : lengths.length ≤ 256) (spare : Option HuffmanTable) :
    ∃ t, HuffmanTable.buildFromWeightsReusing (lengths.map (weightOf maxBits)) spare = some t ∧
      TableOf lengths maxBits t := by
  have hall : (lengths.map (weightOf maxBits)).all (· ≤ 12) = true := by
    rw [List.all_eq_true]
    intro w hw
    obtain ⟨l, hl, rfl⟩ := List.mem_map.mp hw
    have := h.le l hl
    apply decide_eq_true
    unfold weightOf
    split_ifs <;> omega
  have hsum := weightSum_complete h hmax
  have hlog : Fse.Decoder.highestBitSet (2 ^ maxBits) - 1 = maxBits := by
    rw [Decoder.highestBitSet_two_pow]
    omega
  obtain ⟨hl, -, hfirst⟩ := FirstCodes.run h hmax hlen maxBits (Nat.le_refl _)
  have hcode : ∀ s len, lengths[s]? = some len →
      (assignCodes maxBits (lengths.map (weightOf maxBits))
        (firstCodes (fun w => (lengths.map (weightOf maxBits)).count w) maxBits))[s]? =
      some (if len = 0 then (0, 0) else (codeAt lengths maxBits s len, len)) := by
    intro s len hs
    rw [assignCodes_getElem? h.le _ (by rw [firstCodes, hl]; omega) s len hs]
    split
    · rfl
    · rename_i hne
      have hle := h.le len (List.mem_of_getElem? hs)
      rw [firstCodes, hfirst len (by omega) hle, codeAt]
  unfold HuffmanTable.buildFromWeightsReusing
  simp only [hall, if_true, hsum]
  rw [dif_pos ⟨⟨maxBits, rfl⟩, by rwa [List.length_map], hlog.trans_le hmax⟩]
  refine ⟨_, rfl, hlog, ?_, ?_, ?_⟩
  · simp only
    rw [assignCodes_length, List.length_map]
  · simpa only [hlog] using hcode
  · intro s len hs
    have hin := (List.getElem?_eq_some_iff.mp hs).1
    simp only [hlog]
    unfold packCodes
    rw [List.getD_eq_getElem?_getD, List.getElem?_append_left (by
      rw [List.length_map, assignCodes_length, List.length_map]; exact hin), List.getElem?_map,
      hcode s len hs]
    split
    · rfl
    · rfl

end Encoder

namespace Decoder

open BitIo
open Fse.Decoder (FSETableImpl Entry)
open Fse.Encoder (filings filings_getElem? filings_length)

theorem repeats_getElem? {α : Type} (f : Nat → α) (run n a r x : Nat) (hr : r < n)
    (hx : x < run) :
    ((List.range' a n).flatMap fun s => List.replicate run (f s))[r * run + x]? =
      some (f (a + r)) := by
  induction n generalizing a r with
  | zero => omega
  | succ n ih =>
    rw [List.range'_succ, List.flatMap_cons]
    cases r with
    | zero =>
      rw [List.getElem?_append_left (by rw [List.length_replicate]; omega),
        List.getElem?_replicate, if_pos (by omega), Nat.add_zero]
    | succ r =>
      have hi : (r + 1) * run + x = run + (r * run + x) := by
        rw [Nat.succ_mul]
        omega
      rw [hi, List.getElem?_append_right (by rw [List.length_replicate]; omega),
        List.length_replicate, Nat.add_sub_cancel_left, ih (a + 1) r (by omega)]
      congr 2
      omega

/-- A group of slots starts where the longer codes end. -/
theorem slotsDown_getElem? {maxBits len : Nat} (bitRanks symOff : List Nat) (sorted : List UInt8)
    (h0 : 0 < len) (k : Nat) (hlk : len ≤ k) (hk : k ≤ maxBits) (j : Nat)
    (hj : j < bitRanks.getD len 0 * 2 ^ (maxBits - len)) :
    (slotsDown maxBits bitRanks symOff sorted k)[
      slotsAbove maxBits bitRanks len - slotsAbove maxBits bitRanks k + j]? =
      (groupSlots maxBits bitRanks symOff sorted len)[j]? := by
  induction k with
  | zero => omega
  | succ k ih =>
    rw [slotsDown]
    rcases Nat.eq_or_lt_of_le hlk with rfl | hlt
    · rw [Nat.sub_self, Nat.zero_add,
        List.getElem?_append_left (by rw [groupSlots_length]; exact hj)]
    · have hpred := slotsAbove_pred bitRanks (Nat.succ_pos k) hk
      rw [Nat.succ_eq_add_one, Nat.add_sub_cancel] at hpred
      have hmono : slotsAbove maxBits bitRanks k ≤ slotsAbove maxBits bitRanks len :=
        sum_le_sum_of_subset (Ioc_subset_Ioc_left (by omega))
      rw [List.getElem?_append_right (by rw [groupSlots_length]; omega), groupSlots_length,
        ← ih (by omega) (by omega)]
      congr 1
      omega

theorem symOffsets_getElem? (ranks : List Nat) (acc k : Nat) (hk : k < ranks.length) :
    (symOffsets ranks acc)[k]? = some (acc + (ranks.take k).sum) := by
  induction ranks generalizing acc k with
  | nil => simp at hk
  | cons r ranks ih =>
    rw [symOffsets]
    cases k with
    | zero => simp
    | succ k =>
      rw [List.getElem?_cons_succ, ih _ _ (by simpa using hk), List.take_succ_cons, List.sum_cons,
        Nat.add_assoc]

/-- The offsets of the counts of a list are the places its sort starts from. -/
theorem symOffsets_below {ranks items : List Nat} {m : Nat}
    (hr : ∀ l, l ≤ m → ranks[l]? = some (items.count l)) {l : Nat} (hl : l ≤ m) :
    (symOffsets ranks 0).getD l 0 = below items l := by
  have hin : ∀ l, l ≤ m → l < ranks.length := fun l h => (List.getElem?_eq_some_iff.mp (hr l h)).1
  rw [List.getD_eq_getElem?_getD, symOffsets_getElem? _ _ _ (hin l hl), Option.getD_some,
    Nat.zero_add]
  induction l with
  | zero =>
    symm
    simp [below]
  | succ l ih =>
    rw [List.take_add_one, hr l (by omega), List.sum_append, ih (by omega), below_succ]
    simp

/-- The counting sort files every symbol at its place. -/
theorem sortSymbols_eq (lens : List Nat) (hlens : ∀ l ∈ lens, l < 16) (symbol : Nat)
    (cursor : List Nat) (sorted : List UInt8) :
    sortSymbols lens symbol cursor sorted =
      Walk.setAll sorted ((filings lens symbol cursor).map fun f => (f.1, UInt8.ofNat f.2)) := by
  induction lens generalizing symbol cursor sorted with
  | nil => rfl
  | cons l lens ih =>
    have hl := hlens l List.mem_cons_self
    have hmask : l &&& 0xF = l := by
      rw [show (0xF : Nat) = 2 ^ 4 - 1 from rfl, Nat.and_two_pow_sub_one_eq_mod]
      exact Nat.mod_eq_of_lt hl
    rw [sortSymbols, filings, List.map_cons, Walk.setAll]
    simp only [hmask]
    exact ih (fun x hx => hlens x (List.mem_cons_of_mem l hx)) _ _ _

theorem sortSymbols_place {lens cursor : List Nat} (hlens : ∀ l ∈ lens, l < 16)
    (hcursor : ∀ l ∈ lens, l < cursor.length ∧ cursor.getD l 0 = below lens l)
    {sorted : List UInt8} (hs : lens.length ≤ sorted.length) {s len : Nat}
    (h : lens[s]? = some len) :
    (sortSymbols lens 0 cursor sorted)[below lens len + rank lens s len]? =
      some (UInt8.ofNat s) := by
  have hget : ∀ i l, lens[i]? = some l →
      (filings lens 0 cursor)[i]? = some (below lens l + rank lens i l, i) := by
    intro i l hi
    rw [filings_getElem? _ _ _ fun l hl => (hcursor l hl).1, hi, Option.map_some,
      (hcursor l (List.mem_of_getElem? hi)).2, Nat.zero_add]
  rw [sortSymbols_eq _ hlens]
  apply setAll_getElem?_of_mem
  · rw [List.map_map, List.nodup_iff_getElem?_ne_getElem?]
    intro i j hij hj he
    rw [List.length_map, filings_length] at hj
    have hi : lens[i]? = some lens[i] := List.getElem?_eq_getElem _
    have hj : lens[j]? = some lens[j] := List.getElem?_eq_getElem _
    rw [List.getElem?_map, List.getElem?_map, hget i _ hi, hget j _ hj] at he
    have := place_injective hi hj (by simpa using he)
    omega
  · exact List.mem_map_of_mem (List.mem_of_getElem? (hget s len h))
  · exact Nat.lt_of_lt_of_le (place_lt h) hs

section Completed

variable {acc : WeightAcc} {maxBits lastWeight : Nat}

/-- Every weight becomes a code length of its own rank; the completing one adds to its own. -/
theorem codeLengths_count {weights : List Nat} (hle : ∀ w ∈ weights, w ≤ maxBits) {len : Nat}
    (h : len ≤ maxBits) :
    (codeLengths weights maxBits lastWeight).count len =
      weights.count (if len = 0 then 0 else maxBits + 1 - len) +
        if maxBits + 1 - lastWeight = len then 1 else 0 := by
  have hmap : (weights.map fun w => if 0 < w then maxBits + 1 - w else 0).count len =
      weights.count (if len = 0 then 0 else maxBits + 1 - len) := by
    induction weights with
    | nil => rfl
    | cons w ws ih =>
      have hw := hle w List.mem_cons_self
      rw [List.map_cons, List.count_cons, List.count_cons,
        ih fun x hx => hle x (List.mem_cons_of_mem w hx)]
      congr 1
      simp only [beq_iff_eq]
      split_ifs <;> omega
  rw [codeLengths, List.count_append, hmap, List.count_singleton]
  simp only [beq_iff_eq]

theorem rankCodes_zero (weightRankCount : List Nat) (hl : lastWeight ≤ maxBits) :
    (rankCodes maxBits lastWeight weightRankCount).getD 0 0 = weightRankCount.getD 0 0 := by
  have hround : ∀ k ≤ maxBits, ((List.range k).foldl
      (fun ranks k => ranks.set (maxBits + 1 - (k + 1)) (weightRankCount.getD (k + 1) 0))
      ((List.replicate (maxMaxNumBits + 1) 0).set 0 (weightRankCount.getD 0 0)))[0]? =
        some (weightRankCount.getD 0 0) := by
    intro k hk
    induction k with
    | zero => simp [maxMaxNumBits]
    | succ k ih =>
      rw [List.range_succ, List.foldl_append, List.foldl_cons, List.foldl_nil,
        List.getElem?_set_ne (by omega)]
      exact ih (by omega)
  simp only [rankCodes]
  rw [List.getD_eq_getElem?_getD, List.getElem?_set_ne (by omega), hround maxBits (Nat.le_refl _),
    Option.getD_some]

theorem rankCodes_length (weightRankCount : List Nat) (hm : maxBits ≤ maxMaxNumBits) :
    (rankCodes maxBits lastWeight weightRankCount).length = maxMaxNumBits + 1 := by
  simp only [rankCodes, List.length_set]
  exact (rankCodes_round weightRankCount _ (by simp) hm maxBits (Nat.le_refl _)).1

/-- The histogram of the code lengths, taken from the weights instead of the lengths. -/
theorem rankCodes_count (hs : acc.Sound) (hm : maxBits ≤ maxMaxNumBits) (hl : lastWeight ≤ maxBits)
    (hsum : acc.weightSum + 2 ^ (lastWeight - 1) = 2 ^ maxBits) {len : Nat} (h : len ≤ maxBits) :
    (rankCodes maxBits lastWeight acc.weightRankCount)[len]? =
      some ((codeLengths acc.weights maxBits lastWeight).count len) := by
  have hin : len < (rankCodes maxBits lastWeight acc.weightRankCount).length := by
    rw [rankCodes_length _ hm]
    omega
  have hval : (rankCodes maxBits lastWeight acc.weightRankCount).getD len 0 =
      (codeLengths acc.weights maxBits lastWeight).count len := by
    rw [codeLengths_count (hs.le_width hsum) h]
    rcases Nat.eq_zero_or_pos len with rfl | h0
    · rw [rankCodes_zero _ hl, hs.count, if_pos rfl, if_neg (by omega), Nat.add_zero]
    · rw [rankCodes_getD _ hm h0 h, hs.count, if_neg (show ¬ len = 0 by omega)]
  rw [← hval, List.getD_eq_getElem?_getD, List.getElem?_eq_getElem hin, Option.getD_some]

theorem slotsAbove_eq_longer {lengths bitRanks : List Nat}
    (hr : ∀ l, l ≤ maxBits → bitRanks[l]? = some (lengths.count l)) (len : Nat) :
    slotsAbove maxBits bitRanks len = longer lengths maxBits len := by
  apply sum_congr rfl
  intro l hl
  rw [mem_Ioc] at hl
  rw [List.getD_eq_getElem?_getD, hr l hl.2, Option.getD_some]

/-- The completed weights describe a complete code. -/
theorem codeLengths_complete (hs : acc.Sound) (hm : maxBits ≤ maxMaxNumBits)
    (hl0 : 0 < lastWeight) (hl : lastWeight ≤ maxBits)
    (hsum : acc.weightSum + 2 ^ (lastWeight - 1) = 2 ^ maxBits) :
    CompleteCode (codeLengths acc.weights maxBits lastWeight) maxBits where
  le := by
    intro len hlen
    rcases List.mem_append.mp hlen with hlen | hlen
    · obtain ⟨w, hw, rfl⟩ := List.mem_map.mp hlen
      split_ifs <;> omega
    · rw [List.mem_singleton.mp hlen]
      omega
  full := by
    rw [← slotsAbove_eq_longer fun l h => rankCodes_count hs hm hl hsum h]
    exact rankCodes_kraft hs hm hl0 hl hsum

end Completed

/-- The decode table of a complete code: all slots a code leads to hold its symbol. -/
structure TableOf (lengths : List Nat) (maxBits : Nat) (t : HuffmanTable) : Prop where
  log_eq : t.maxNumBits = maxBits
  bits_eq : t.bits = lengths
  slot : ∀ s len x, lengths[s]? = some len → 0 < len → x < 2 ^ (maxBits - len) →
    t.packedDecode[codeAt lengths maxBits s len * 2 ^ (maxBits - len) + x]? =
      some ⟨len, UInt8.ofNat s⟩

/-- The fill lays the symbols of a complete code where their codes lead. -/
theorem fillSlots_slot {lengths bitRanks : List Nat} {maxBits : Nat}
    (h : CompleteCode lengths maxBits) (hm : maxBits ≤ maxMaxNumBits)
    (hr : ∀ l, l ≤ maxBits → bitRanks[l]? = some (lengths.count l))
    (hlen : lengths.length ≤ 256) {s len x : Nat} (hs : lengths[s]? = some len) (h0 : 0 < len)
    (hx : x < 2 ^ (maxBits - len)) :
    (fillSlots maxBits bitRanks (rankStarts maxBits bitRanks) (symOffsets bitRanks 0)
      (sortSymbols lengths 0 (symOffsets bitRanks 0) (List.replicate 256 0)))[
        codeAt lengths maxBits s len * 2 ^ (maxBits - len) + x]? = some ⟨len, UInt8.ofNat s⟩ := by
  have hle := h.le len (List.mem_of_getElem? hs)
  have hrank := rank_lt_count hs
  have hm16 : maxBits ≤ 15 := Nat.le_trans hm (by decide)
  have hkraft : slotsAbove maxBits bitRanks 0 = 2 ^ maxBits := by
    rw [slotsAbove_eq_longer hr, h.full]
  have hget : bitRanks.getD len 0 = lengths.count len := by
    rw [List.getD_eq_getElem?_getD, hr len hle, Option.getD_some]
  have hpos : codeAt lengths maxBits s len * 2 ^ (maxBits - len) + x =
      slotsAbove maxBits bitRanks len - slotsAbove maxBits bitRanks maxBits +
        (rank lengths s len * 2 ^ (maxBits - len) + x) := by
    have hnone : slotsAbove maxBits bitRanks maxBits = 0 := by
      rw [slotsAbove, Ioc_self, sum_empty]
    rw [hnone, slotsAbove_eq_longer hr, codeAt, Nat.add_mul, h.firstCode_mul hle, Nat.sub_zero,
      Nat.add_assoc]
  have hj : rank lengths s len * 2 ^ (maxBits - len) + x <
      bitRanks.getD len 0 * 2 ^ (maxBits - len) := by
    calc rank lengths s len * 2 ^ (maxBits - len) + x
        < rank lengths s len * 2 ^ (maxBits - len) + 2 ^ (maxBits - len) := by omega
      _ = (rank lengths s len + 1) * 2 ^ (maxBits - len) := (Nat.succ_mul _ _).symm
      _ ≤ bitRanks.getD len 0 * 2 ^ (maxBits - len) := by
        rw [hget]
        exact Nat.mul_le_mul_right _ hrank
  have hcursor : ∀ l ∈ lengths, l < (symOffsets bitRanks 0).length ∧
      (symOffsets bitRanks 0).getD l 0 = below lengths l := by
    intro l hl
    have hlm := h.le l hl
    have hin := (List.getElem?_eq_some_iff.mp (hr l hlm)).1
    exact ⟨(List.getElem?_eq_some_iff.mp (symOffsets_getElem? bitRanks 0 l hin)).1,
      symOffsets_below hr hlm⟩
  have hsorted : (sortSymbols lengths 0 (symOffsets bitRanks 0) (List.replicate 256 0))[
      below lengths len + rank lengths s len]? = some (UInt8.ofNat s) := by
    apply sortSymbols_place _ hcursor (by rwa [List.length_replicate]) hs
    intro l hl
    have := h.le l hl
    omega
  rw [fillSlots_eq _ _ _ hm16 hkraft, hpos,
    slotsDown_getElem? _ _ _ h0 maxBits hle (Nat.le_refl _) _ hj, groupSlots, Nat.one_shiftLeft,
    repeats_getElem? (fun j => (⟨len, _⟩ : PackedEntry)) _ _ _ _ _ (by rw [hget]; exact hrank) hx,
    symOffsets_below hr hle, Nat.zero_add, List.getD_eq_getElem?_getD, hsorted, Option.getD_some]


theorem pushWeightLimited_length {acc acc' : WeightAcc} {w : Nat}
    (h : pushWeightLimited acc w = .ok acc') : acc'.weights.length ≤ 255 := by
  unfold pushWeightLimited at h
  split at h
  · cases h
  · split at h
    · cases h
    · cases h
      simp only [WeightAcc.push, List.length_append, List.length_singleton]
      omega

theorem decodeWeights_length (t : FSETableImpl Entry 64) (fuel : Nat) (state1 state2 : Entry)
    (br : BitReaderReversed) {acc acc' : WeightAcc} (h : acc.weights.length ≤ 255)
    (hd : decodeWeights t fuel state1 state2 br acc = (.ok (), acc')) :
    acc'.weights.length ≤ 255 := by
  induction fuel generalizing state1 state2 br acc with
  | zero =>
    cases hd
    exact h
  | succ fuel ih =>
    simp only [decodeWeights] at hd
    split at hd
    · cases hd
    · split at hd
      · split at hd
        · cases hd
        · rename_i h2
          cases hd
          exact pushWeightLimited_length h2
      · split at hd
        · cases hd
        · rename_i h2
          split at hd
          · split at hd
            · cases hd
            · rename_i h3
              cases hd
              exact pushWeightLimited_length h3
          · exact ih _ _ _ (pushWeightLimited_length h2) hd

theorem pushWeightRaw_length {acc acc' : WeightAcc} {w : Nat}
    (h : pushWeightRaw acc w = .ok acc') : acc'.weights.length = acc.weights.length + 1 := by
  unfold pushWeightRaw at h
  split at h
  · cases h
  · cases h
    simp [WeightAcc.push]

theorem readNibbles_length (numWeights : Nat) (bytes : List UInt8) (idx : Nat)
    {acc acc' : WeightAcc} (hr : readNibbles numWeights bytes idx acc = (.ok (), acc')) :
    acc'.weights.length ≤ acc.weights.length + 2 * bytes.length := by
  induction bytes generalizing idx acc with
  | nil =>
    cases hr
    simp
  | cons byte rest ih =>
    simp only [readNibbles] at hr
    split at hr
    · cases hr
    · rename_i acc1 h1
      have l1 := pushWeightRaw_length h1
      rw [List.length_cons]
      split at hr
      · split at hr
        · cases hr
        · rename_i acc2 h2
          have l2 := pushWeightRaw_length h2
          have := ih _ hr
          omega
      · have := ih _ hr
        omega

/-- A description is read from inside its source and names at most 255 weights. -/
theorem HuffmanTable.readWeights_bounds {t t' : HuffmanTable} {source : List UInt8} {n : Nat}
    (h : t.readWeights source = (.ok n, t')) : t'.weights.length ≤ 255 ∧ n ≤ source.length := by
  cases source with
  | nil => cases h
  | cons header rest =>
    have hbyte := header.toNat_lt
    simp only [HuffmanTable.readWeights] at h
    split at h
    · simp only [HuffmanTable.readCompressedWeights] at h
      repeat' split at h
      all_goals cases h
      rename_i hin _ _ _ _ _ _ _ _ _ _ _ _ _ _ acc hacc
      refine ⟨decodeWeights_length _ _ _ _ _ (by simp) hacc, ?_⟩
      rw [List.length_cons]
      omega
    · simp only [HuffmanTable.readRawWeights] at h
      repeat' split at h
      all_goals cases h
      rename_i hin _ _ acc hacc
      have hlen := readNibbles_length _ _ _ hacc
      rw [List.length_take] at hlen
      refine ⟨?_, ?_⟩
      · simp only [HuffmanTable.withWeights]
        simp only [List.length_nil] at hlen
        omega
      · rw [List.length_cons]
        omega


namespace HuffmanTable

/-- The assertions of the table fill: the code lengths end at the table's size, and no group of
codes leaves the table. -/
def fillAsserts (t : HuffmanTable) : Bool :=
  match t.computeHuffmanBits with
  | (.error _, _) => true
  | (.ok maxBits, t) =>
    let bitRanks := rankCodes maxBits t.lastWeight t.weightRankCount
    let rankStart := rankStarts maxBits bitRanks
    rankStart.getD 0 0 = 1 <<< maxBits ∧
      (List.range' 1 maxBits).all fun len => bitRanks.getD len 0 = 0 ∨
        rankStart.getD len 0 + bitRanks.getD len 0 * 1 <<< (maxBits - len) ≤ 1 <<< maxBits

/-- What both builds find in weights that complete to a code. -/
structure Completed (t : HuffmanTable) : Prop where
  complete : CompleteCode t.bits t.maxNumBits
  pos : 0 < t.maxNumBits
  le : t.maxNumBits ≤ maxMaxNumBits
  length_le : t.bits.length ≤ 256

variable {t t' : HuffmanTable}

theorem fillAsserts_of_sound (hs : t.WeightsSound) : t.fillAsserts = true := by
  unfold fillAsserts
  cases hc : t.computeHuffmanBits with
  | mk result t1 =>
    cases result with
    | error e => rfl
    | ok maxBits =>
      obtain ⟨lastWeight, hl0, hl, hm0, hm, hsum, rfl⟩ := computeHuffmanBits_ok hc
      have hkraft := rankCodes_kraft hs hm hl0 hl hsum
      have h15 : maxBits ≤ 15 := Nat.le_trans hm (by decide)
      apply decide_eq_true
      simp only
      refine ⟨?_, ?_⟩
      · rw [rankStarts_getD _ h15 (Nat.zero_le _), Nat.one_shiftLeft]
        exact hkraft
      · rw [List.all_eq_true]
        intro len hlen
        rw [List.mem_range'_1] at hlen
        apply decide_eq_true
        right
        have hpred : slotsAbove maxBits (rankCodes maxBits lastWeight t.weightRankCount) (len - 1) =
            _ := slotsAbove_pred _ (by omega) (by omega)
        have hle : slotsAbove maxBits (rankCodes maxBits lastWeight t.weightRankCount) (len - 1) ≤
            slotsAbove maxBits (rankCodes maxBits lastWeight t.weightRankCount) 0 :=
          sum_le_sum_of_subset (Ioc_subset_Ioc_left (Nat.zero_le _))
        rw [rankStarts_getD _ h15 (by omega), Nat.one_shiftLeft, Nat.one_shiftLeft, ← hpred]
        exact hle.trans_eq hkraft

theorem computeHuffmanBits_completed (hs : t.WeightsSound) (hlen : t.weights.length ≤ 255)
    {maxBits : Nat} (h : t.computeHuffmanBits = (.ok maxBits, t')) :
    t'.Completed ∧ t'.maxNumBits = maxBits := by
  obtain ⟨lastWeight, hl0, hl, hm0, hm, hsum, rfl⟩ := computeHuffmanBits_ok h
  refine ⟨⟨?_, hm0, hm, ?_⟩, rfl⟩
  · exact codeLengths_complete hs hm hl0 hl hsum
  · simp only [codeLengths, List.length_append, List.length_map, List.length_singleton]
    omega

/-- The full build takes the code lengths of the weights-only build and fills the slots. -/
theorem buildTableFromWeights_tableOf (hs : t.WeightsSound) (hlen : t.weights.length ≤ 255)
    {maxBits : Nat} (h : t.computeHuffmanBits = (.ok maxBits, t')) :
    t.buildTableFromWeights.1 = .ok () ∧
      TableOf t'.bits t'.maxNumBits t.buildTableFromWeights.2 := by
  obtain ⟨hc, hmax⟩ := computeHuffmanBits_completed hs hlen h
  obtain ⟨lastWeight, hl0, hl, hm0, hm, hsum, rfl⟩ := computeHuffmanBits_ok h
  simp only [buildTableFromWeights, h]
  refine ⟨trivial, rfl, rfl, ?_⟩
  intro s len x hlens h0 hx
  exact fillSlots_slot hc.complete hm (fun l hl' => rankCodes_count hs hm hl hsum hl')
    hc.length_le hlens h0 hx

/-- Both builds of a description: they fail alike, or find one complete code, and the full build
fills its slots. -/
theorem description_builds (t : HuffmanTable) (source : List UInt8) :
    (∃ e, (t.buildDecoder source).1 = .error e ∧ (t.buildWeightsOnly source).1 = .error e) ∨
      ∃ n, n ≤ source.length ∧ (t.buildDecoder source).1 = .ok n ∧
        (t.buildWeightsOnly source).1 = .ok n ∧ (t.buildWeightsOnly source).2.Completed ∧
        TableOf (t.buildWeightsOnly source).2.bits (t.buildWeightsOnly source).2.maxNumBits
          (t.buildDecoder source).2 := by
  unfold buildDecoder buildWeightsOnly
  cases hr : ({ t with packedDecode := [] } : HuffmanTable).readWeights source with
  | mk result t1 =>
    cases result with
    | error e => exact .inl ⟨e, rfl, rfl⟩
    | ok n =>
      have hs := readWeights_ok hr
      obtain ⟨hlen, hn⟩ := readWeights_bounds hr
      cases hc : t1.computeHuffmanBits with
      | mk result t2 =>
        cases result with
        | error e =>
          refine .inl ⟨e, ?_, ?_⟩
          · simp only [buildTableFromWeights, hc]
          · simp only [hc]
        | ok maxBits =>
          obtain ⟨hcomp, -⟩ := computeHuffmanBits_completed hs hlen hc
          obtain ⟨hok, htable⟩ := buildTableFromWeights_tableOf hs hlen hc
          refine .inr ⟨n, hn, ?_⟩
          cases hb : t1.buildTableFromWeights with
          | mk result t3 =>
            rw [hb] at hok htable
            cases hok
            simp only [hb, hc]
            exact ⟨trivial, trivial, hcomp, htable⟩

/-- The code lengths of a complete code always make an encoder table. -/
theorem Completed.toEncoderTable (h : t.Completed) :
    ∃ enc, t.toEncoderTable = some (some enc) ∧ Encoder.TableOf t.bits t.maxNumBits enc := by
  obtain ⟨enc, hb, he⟩ := Encoder.buildFromWeightsReusing_spec h.complete h.pos h.le h.length_le none
  have hne : t.bits ≠ [] := by
    intro hnil
    have hfull := h.complete.full
    rw [hnil] at hfull
    simp only [longer, List.count_nil, Nat.zero_mul, sum_const_zero] at hfull
    exact (Nat.two_pow_pos _).ne hfull
  have h0 := h.pos
  refine ⟨enc, ?_, he⟩
  rw [HuffmanTable.toEncoderTable, if_neg (by simp [hne]; omega),
    Encoder.HuffmanTable.buildFromWeights]
  exact congrArg some hb

end HuffmanTable

/-- An encoder and a decoder table that undo each other: every code leads to its symbol whatever
follows it, and every slot is reached by the code of the symbol it holds. -/
structure Inverse (enc : Encoder.HuffmanTable) (dec : HuffmanTable) : Prop where
  log_eq : enc.tableLog = dec.maxNumBits
  decodes : ∀ s code len, enc.codes[s]? = some (code, len) → 0 < len →
    len ≤ dec.maxNumBits ∧ code < 2 ^ len ∧ ∀ x < 2 ^ (dec.maxNumBits - len),
      dec.packedDecode[code * 2 ^ (dec.maxNumBits - len) + x]? = some ⟨len, UInt8.ofNat s⟩
  encodes : ∀ slot < 2 ^ dec.maxNumBits, ∃ s len, s < 256 ∧
    dec.packedDecode[slot]? = some ⟨len, UInt8.ofNat s⟩ ∧ 0 < len ∧
    enc.codes[s]? = some (slot / 2 ^ (dec.maxNumBits - len), len)

theorem inverse_of_tables {lengths : List Nat} {maxBits : Nat} {enc : Encoder.HuffmanTable}
    {dec : HuffmanTable} (h : CompleteCode lengths maxBits) (hlen : lengths.length ≤ 256)
    (he : Encoder.TableOf lengths maxBits enc) (hd : TableOf lengths maxBits dec) :
    Inverse enc dec where
  log_eq := by rw [he.log_eq, hd.log_eq]
  decodes := by
    intro s code len hs h0
    have hin : s < lengths.length := by
      rw [← he.length_eq]
      exact (List.getElem?_eq_some_iff.mp hs).1
    have hl : lengths[s]? = some lengths[s] := List.getElem?_eq_getElem hin
    rw [he.code s _ hl] at hs
    split at hs
    · cases hs
      omega
    · cases hs
      rw [hd.log_eq]
      exact ⟨h.le _ (List.mem_of_getElem? hl), h.codeAt_lt hl h0,
        fun x hx => hd.slot s _ x hl h0 hx⟩
  encodes := by
    intro slot hslot
    rw [hd.log_eq] at hslot ⊢
    obtain ⟨s, len, hs, h0, hcode⟩ := h.exists_codeAt hslot
    have hin := (List.getElem?_eq_some_iff.mp hs).1
    have hslotAt := hd.slot s len (slot % 2 ^ (maxBits - len)) hs h0
      (Nat.mod_lt _ (Nat.two_pow_pos _))
    rw [hcode, Nat.div_add_mod'] at hslotAt
    refine ⟨s, len, by omega, hslotAt, h0, ?_⟩
    rw [he.code s len hs, if_neg (by omega), hcode]

end Decoder

end Huff0
