import StructuredZstd.Huff0.LeafSymbols
import StructuredZstd.Huff0.LegacyWeights
import StructuredZstd.Huff0.WeightDescription

namespace Huff0.Encoder

open Bits Finset

/-- The slots a weight takes of its code's table. -/
def slots (w : Nat) : Nat := 2 ^ w / 2

theorem slots_of_pos {w : Nat} (h : 0 < w) : slots w = 2 ^ (w - 1) := by
  obtain ⟨v, rfl⟩ : ∃ v, w = v + 1 := ⟨w - 1, by omega⟩
  rw [slots, Nat.pow_succ, Nat.mul_div_cancel _ (by decide), Nat.add_sub_cancel]

/-- The weights of a complete code of `maxBits`. -/
structure CompleteWeights (weights : List Nat) (maxBits : Nat) : Prop where
  pos : 0 < maxBits
  le_twelve : maxBits ≤ 12
  le : ∀ w ∈ weights, w ≤ maxBits
  full : (weights.map slots).sum = 2 ^ maxBits

/-- The code length of a weight. -/
def lengthOf (maxBits w : Nat) : Nat := if w = 0 then 0 else maxBits + 1 - w

theorem weightOf_lengthOf {maxBits w : Nat} (h : w ≤ maxBits) :
    weightOf maxBits (lengthOf maxBits w) = w := by
  unfold weightOf lengthOf
  split_ifs <;> omega

namespace CompleteWeights

variable {weights : List Nat} {maxBits : Nat} (h : CompleteWeights weights maxBits)

include h

theorem map_weightOf :
    (weights.map (lengthOf maxBits)).map (weightOf maxBits) = weights := by
  rw [List.map_map]
  conv_rhs => rw [← List.map_id weights]
  apply List.map_congr_left
  intro w hw
  exact weightOf_lengthOf (h.le w hw)

theorem completeCode : CompleteCode (weights.map (lengthOf maxBits)) maxBits := by
  have hle : ∀ l ∈ weights.map (lengthOf maxBits), l ≤ maxBits := by
    intro l hl
    obtain ⟨w, -, rfl⟩ := List.mem_map.mp hl
    unfold lengthOf
    split <;> omega
  refine ⟨hle, ?_⟩
  have hcount : ∀ w, 0 < w → w ≤ maxBits →
      (weights.map (lengthOf maxBits)).count (maxBits + 1 - w) = weights.count w := by
    intro w h0 hw
    rw [← count_weightOf hle h0 hw, h.map_weightOf]
  rw [← h.full]
  change _ = (weights.map fun w => 2 ^ w / 2).sum
  rw [Decoder.sum_weights_eq_sum_count h.le, longer]
  apply sum_nbij' (fun l => maxBits + 1 - l) (fun w => maxBits + 1 - w)
  · intro l hl
    rw [mem_Ioc] at *
    omega
  · intro w hw
    rw [mem_Ioc] at *
    omega
  · intro l hl
    rw [mem_Ioc] at hl
    omega
  · intro w hw
    rw [mem_Ioc] at hw
    omega
  · intro l hl
    rw [mem_Ioc] at hl
    have hslots : 2 ^ (maxBits + 1 - l) / 2 = 2 ^ (maxBits - l) := by
      rw [show maxBits + 1 - l = maxBits - l + 1 by omega, Nat.pow_succ,
        Nat.mul_div_cancel _ (by decide)]
    have hback := hcount (maxBits + 1 - l) (by omega) (by omega)
    rw [show maxBits + 1 - (maxBits + 1 - l) = l by omega] at hback
    rw [hback, hslots]

end CompleteWeights

/-- Weights by the symbol they are given to. -/
def setAll (out : List Nat) (entries : List (Nat × Nat)) : List Nat :=
  entries.foldl (fun out entry => out.set entry.1 entry.2) out

section SetAll

variable {out : List Nat} {entries : List (Nat × Nat)}

theorem setAll_length (out : List Nat) (entries : List (Nat × Nat)) :
    (setAll out entries).length = out.length := by
  induction entries generalizing out with
  | nil => rfl
  | cons entry entries ih => exact (ih _).trans List.length_set

theorem setAll_other {s : Nat} (h : s ∉ entries.map Prod.fst) :
    (setAll out entries).getD s 0 = out.getD s 0 := by
  induction entries generalizing out with
  | nil => rfl
  | cons entry entries ih =>
    rw [List.map_cons, List.mem_cons, not_or] at h
    refine (ih h.2).trans ?_
    rw [List.getD_eq_getElem?_getD, List.getElem?_set_ne (fun he => h.1 he.symm),
      ← List.getD_eq_getElem?_getD]

theorem setAll_given (hnodup : (entries.map Prod.fst).Nodup) {s w : Nat} (hmem : (s, w) ∈ entries)
    (hs : s < out.length) : (setAll out entries).getD s 0 = w := by
  induction entries generalizing out with
  | nil => cases hmem
  | cons entry entries ih =>
    obtain ⟨hnew, hrest⟩ := List.nodup_cons.mp hnodup
    rcases List.mem_cons.mp hmem with rfl | hmem
    · refine (setAll_other hnew).trans ?_
      rw [List.getD_eq_getElem?_getD, List.getElem?_set_self hs]
      rfl
    · exact ih hrest hmem (by rwa [List.length_set])

theorem mem_setAll {w : Nat} (h : w ∈ setAll out entries) :
    w ∈ out ∨ ∃ s, (s, w) ∈ entries := by
  induction entries generalizing out with
  | nil => exact .inl h
  | cons entry entries ih =>
    rcases ih h with hout | ⟨s, hs⟩
    · rcases List.mem_or_eq_of_mem_set hout with hold | rfl
      · exact .inl hold
      · exact .inr ⟨entry.1, List.mem_cons_self⟩
    · exact .inr ⟨s, List.mem_cons_of_mem _ hs⟩

/-- Every place that held nothing adds its weight's slots. -/
theorem setAll_slots (hnodup : (entries.map Prod.fst).Nodup)
    (hin : ∀ s ∈ entries.map Prod.fst, s < out.length)
    (hblank : ∀ s ∈ entries.map Prod.fst, out.getD s 0 = 0) :
    ((setAll out entries).map slots).sum =
      (out.map slots).sum + (entries.map fun entry => slots entry.2).sum := by
  induction entries generalizing out with
  | nil => rfl
  | cons entry entries ih =>
    obtain ⟨hnew, hrest⟩ := List.nodup_cons.mp hnodup
    have hs := hin entry.1 (by simp)
    have hb := hblank entry.1 (by simp)
    have hset : ((out.set entry.1 entry.2).map slots).sum = (out.map slots).sum + slots entry.2 := by
      have hold : out[entry.1] = 0 := by
        rw [List.getD_eq_getElem?_getD, List.getElem?_eq_getElem hs] at hb
        exact hb
      have hsplit := List.take_append_drop entry.1 out
      rw [List.drop_eq_getElem_cons hs, hold] at hsplit
      rw [List.set_eq_take_cons_drop _ hs]
      conv_rhs => rw [← hsplit]
      simp only [List.map_append, List.map_cons, List.sum_append, List.sum_cons]
      rw [show slots 0 = 0 from rfl]
      omega
    have hnext := @ih (out.set entry.1 entry.2) hrest (by
      intro s hmem
      rw [List.length_set]
      exact hin s (List.mem_cons_of_mem _ hmem)) (by
      intro s hmem
      have hne : entry.1 ≠ s := fun he => hnew (he ▸ hmem)
      rw [List.getD_eq_getElem?_getD, List.getElem?_set_ne hne, ← List.getD_eq_getElem?_getD]
      exact hblank s (List.mem_cons_of_mem _ hmem))
    refine hnext.trans ?_
    rw [hset, List.map_cons, List.sum_cons, Nat.add_assoc]

end SetAll

/-- A weight for every symbol that occurs, and together those of a complete code. -/
structure CodesFor (counts weights : List Nat) (maxBits : Nat) : Prop where
  complete : CompleteWeights weights maxBits
  length_eq : weights.length = counts.length
  covers : ∀ s, 0 < counts.getD s 0 → 0 < weights.getD s 0

theorem CodesFor.of_setAll {counts : List Nat} {entries : List (Nat × Nat)} {maxBits : Nat}
    (hpos : 0 < maxBits) (hmax : maxBits ≤ 12) (hnodup : (entries.map Prod.fst).Nodup)
    (hkeys : ∀ s, s ∈ entries.map Prod.fst ↔ 0 < counts.getD s 0)
    (hvals : ∀ e ∈ entries, 0 < e.2 ∧ e.2 ≤ maxBits)
    (hfull : (entries.map fun e => slots e.2).sum = 2 ^ maxBits) :
    CodesFor counts (setAll (List.replicate counts.length 0) entries) maxBits := by
  have hin : ∀ s ∈ entries.map Prod.fst, s < (List.replicate counts.length 0).length := by
    intro s hs
    rw [List.length_replicate]
    by_contra hge
    have := (hkeys s).mp hs
    rw [List.getD_eq_getElem?_getD, List.getElem?_eq_none (Nat.le_of_not_lt hge)] at this
    cases this
  have hblank : ∀ s, (List.replicate counts.length 0).getD s 0 = 0 := by
    intro s
    rw [List.getD_eq_getElem?_getD, List.getElem?_replicate]
    split <;> rfl
  refine ⟨⟨hpos, hmax, ?_, ?_⟩, ?_, ?_⟩
  · intro w hw
    rcases mem_setAll hw with hold | ⟨s, hs⟩
    · rw [List.eq_of_mem_replicate hold]
      exact Nat.zero_le _
    · exact (hvals _ hs).2
  · rw [setAll_slots hnodup hin fun s _ => hblank s, hfull]
    simp [slots]
  · rw [setAll_length, List.length_replicate]
  · intro s hs
    obtain ⟨e, he, rfl⟩ := List.mem_map.mp ((hkeys s).mpr hs)
    rw [setAll_given hnodup he (hin _ (List.mem_map_of_mem he))]
    exact (hvals e he).1

section Leaves

variable {counts : List Nat} {leaves : List HuffNode}

theorem presentLeaves_symbols (counts : List Nat) : (presentLeaves counts).map HuffNode.symbol =
    ((counts.zipIdx.filter fun c => 0 < c.1).map Prod.snd) := by
  rw [presentLeaves, List.map_map]
  rfl

theorem presentLeaves_nodup (counts : List Nat) :
    ((presentLeaves counts).map HuffNode.symbol).Nodup := by
  rw [presentLeaves_symbols]
  apply List.Nodup.sublist (List.filter_sublist.map _)
  rw [List.zipIdx_map_snd]
  exact List.nodup_range'

theorem mem_presentLeaves {s : Nat} :
    s ∈ (presentLeaves counts).map HuffNode.symbol ↔ 0 < counts.getD s 0 := by
  rw [presentLeaves_symbols, List.mem_map, List.getD_eq_getElem?_getD]
  constructor
  · rintro ⟨⟨c, s⟩, hmem, rfl⟩
    obtain ⟨hmem, hpos⟩ := List.mem_filter.mp hmem
    rw [List.mem_zipIdx_iff_getElem?] at hmem
    simp only at hmem
    rw [hmem]
    exact of_decide_eq_true hpos
  · intro hs
    cases hget : counts[s]? with
    | none =>
      rw [hget] at hs
      cases hs
    | some c =>
      rw [hget] at hs
      refine ⟨(c, s), List.mem_filter.mpr ⟨?_, decide_eq_true hs⟩, rfl⟩
      rw [List.mem_zipIdx_iff_getElem?]
      exact hget

/-- What the limiter gives back, once checked, are the weights of a complete code. -/
theorem limitedWeights_codesFor (htwo : 2 ≤ leaves.length) (hnodup : (leaves.map HuffNode.symbol).Nodup)
    (hsyms : ∀ s, s ∈ leaves.map HuffNode.symbol ↔ 0 < counts.getD s 0) {maxNbBits : Nat}
    (hpos : 0 < maxNbBits) (hmax : maxNbBits ≤ 12) {weights : List Nat}
    (h : limitedWeights leaves counts.length maxNbBits = some weights) :
    CodesFor counts weights maxNbBits := by
  have hwork := enforceMaxHeight_symbols leaves maxNbBits
  have hlen : (enforceMaxHeight leaves maxNbBits).length = leaves.length := by
    have := congrArg List.length hwork
    rwa [List.length_map, List.length_map] at this
  unfold limitedWeights at h
  simp only at h
  rw [if_neg (by omega)] at h
  generalize enforceMaxHeight leaves maxNbBits = work at hwork hlen h
  split at h
  · cases h
  · rename_i hshort
    split at h
    · cases h
    · rename_i hsum
      rw [not_not] at hsum
      cases h
      have hbits : ∀ leaf ∈ work, leaf.nbBits ≤ maxNbBits := by
        intro leaf hleaf
        by_contra hlong
        apply hshort
        exact List.any_eq_true.mpr ⟨leaf, hleaf, decide_eq_true (Nat.lt_of_not_le hlong)⟩
      have hone : ∀ leaf ∈ work, 0 < leaf.nbBits := by
        -- a leaf at the root would fill the table alone
        intro leaf hleaf
        by_contra h0
        obtain ⟨before, after, rfl⟩ := List.append_of_mem hleaf
        have hothers : ∃ other, other ∈ before ++ after := by
          apply List.exists_mem_of_length_pos
          simp only [List.length_append, List.length_cons] at hlen ⊢
          omega
        obtain ⟨other, hother⟩ := hothers
        have hle := List.le_sum_of_mem
          (List.mem_map_of_mem (f := fun leaf => 1 <<< (maxNbBits - leaf.nbBits)) hother)
        have hp : 0 < 1 <<< (maxNbBits - other.nbBits) := by
          rw [Nat.one_shiftLeft]
          exact Nat.two_pow_pos _
        rw [List.map_append, List.sum_append] at hle
        rw [List.map_append, List.sum_append, List.map_cons, List.sum_cons,
          Nat.eq_zero_of_not_pos h0, Nat.sub_zero] at hsum
        omega
      have hentries : work.foldl (fun out leaf =>
          out.set leaf.symbol (maxNbBits - leaf.nbBits + 1)) (List.replicate counts.length 0) =
          setAll (List.replicate counts.length 0)
            (work.map fun leaf => (leaf.symbol, maxNbBits - leaf.nbBits + 1)) := by
        rw [setAll, List.foldl_map]
      have hkeys : (work.map fun leaf => (leaf.symbol, maxNbBits - leaf.nbBits + 1)).map Prod.fst =
          leaves.map HuffNode.symbol := by
        rw [List.map_map, ← hwork]
        rfl
      rw [hentries]
      apply CodesFor.of_setAll hpos hmax
      · rwa [hkeys]
      · rwa [hkeys]
      · intro e he
        obtain ⟨leaf, hleaf, rfl⟩ := List.mem_map.mp he
        have := hone leaf hleaf
        have := hbits leaf hleaf
        exact ⟨Nat.succ_pos _, by simp only; omega⟩
      · rw [List.map_map, ← Nat.one_shiftLeft, ← hsum]
        congr 1
        apply List.map_congr_left
        intro leaf _
        rw [Function.comp_apply, slots_of_pos (Nat.succ_pos _), Nat.one_shiftLeft]
        rfl

end Leaves

end Huff0.Encoder
