import StructuredZstd.Bits.Rank
import Mathlib.Algebra.Order.BigOperators.Group.Finset
import Mathlib.Order.Interval.Finset.Nat
import Mathlib.Algebra.BigOperators.Ring.Finset

namespace Bits

open Finset

/-- The slots of a table of `2 ^ maxBits` that codes longer than `len` take up. -/
def longer (lengths : List Nat) (maxBits len : Nat) : Nat :=
  ∑ l ∈ Ioc len maxBits, lengths.count l * 2 ^ (maxBits - l)

/-- The code lengths of a complete prefix code, zero for an absent symbol. -/
structure CompleteCode (lengths : List Nat) (maxBits : Nat) : Prop where
  le : ∀ l ∈ lengths, l ≤ maxBits
  full : longer lengths maxBits 0 = 2 ^ maxBits

/-- The first code of a length: the longer codes come before it. -/
def firstCode (lengths : List Nat) (maxBits len : Nat) : Nat :=
  longer lengths maxBits len / 2 ^ (maxBits - len)

/-- The canonical code of symbol `s`: the codes of a length go out in symbol order. -/
def codeAt (lengths : List Nat) (maxBits s len : Nat) : Nat :=
  firstCode lengths maxBits len + rank lengths s len

variable {lengths : List Nat} {maxBits : Nat}

theorem longer_pred {len : Nat} (h0 : 0 < len) (h : len ≤ maxBits) :
    longer lengths maxBits (len - 1) =
      longer lengths maxBits len + lengths.count len * 2 ^ (maxBits - len) := by
  have hset : Ioc (len - 1) maxBits = insert len (Ioc len maxBits) := by
    ext l
    simp only [mem_Ioc, mem_insert]
    omega
  rw [longer, hset, sum_insert (by simp), longer, Nat.add_comm]

theorem longer_anti {a b : Nat} (h : a ≤ b) : longer lengths maxBits b ≤ longer lengths maxBits a :=
  sum_le_sum_of_subset (Ioc_subset_Ioc_left h)

theorem longer_split {len : Nat} (h : len ≤ maxBits) : longer lengths maxBits 0 =
    longer lengths maxBits len + ∑ l ∈ Ioc 0 len, lengths.count l * 2 ^ (maxBits - l) := by
  rw [longer, longer, ← sum_union (Ioc_disjoint_Ioc_of_le (Nat.le_refl len)).symm]
  congr 1
  ext l
  simp only [mem_Ioc, mem_union]
  omega

namespace CompleteCode

variable (h : CompleteCode lengths maxBits)

include h

theorem longer_le (len : Nat) : longer lengths maxBits len ≤ 2 ^ maxBits := by
  rw [← h.full]
  exact longer_anti (Nat.zero_le len)

/-- The longer codes end on a boundary of the length. -/
theorem dvd_longer {len : Nat} (hl : len ≤ maxBits) :
    2 ^ (maxBits - len) ∣ longer lengths maxBits len := by
  have hsplit := @longer_split lengths maxBits len hl
  rw [h.full] at hsplit
  have hsum : 2 ^ (maxBits - len) ∣ ∑ l ∈ Ioc 0 len, lengths.count l * 2 ^ (maxBits - l) := by
    apply dvd_sum
    intro l hmem
    rw [mem_Ioc] at hmem
    exact Dvd.dvd.mul_left (Nat.pow_dvd_pow 2 (by omega)) _
  have hall : 2 ^ (maxBits - len) ∣ longer lengths maxBits len +
      ∑ l ∈ Ioc 0 len, lengths.count l * 2 ^ (maxBits - l) := by
    rw [← hsplit]
    exact Nat.pow_dvd_pow 2 (Nat.sub_le _ _)
  exact (Nat.dvd_add_left hsum).mp hall

theorem firstCode_mul {len : Nat} (hl : len ≤ maxBits) :
    firstCode lengths maxBits len * 2 ^ (maxBits - len) = longer lengths maxBits len :=
  Nat.div_mul_cancel (h.dvd_longer hl)

/-- The recurrence that finds the first codes, from the longest length down. -/
theorem firstCode_pred {len : Nat} (h0 : 0 < len) (hl : len ≤ maxBits) :
    firstCode lengths maxBits (len - 1) =
      (firstCode lengths maxBits len + lengths.count len) / 2 := by
  have hpow : 2 ^ (maxBits - (len - 1)) = 2 ^ (maxBits - len) * 2 := by
    rw [← Nat.pow_succ]
    congr 1
    omega
  rw [firstCode, longer_pred h0 hl, ← h.firstCode_mul hl, ← Nat.add_mul, hpow, Nat.mul_comm,
    Nat.mul_div_mul_left _ _ (Nat.two_pow_pos _)]

variable {s len : Nat}

/-- The slots of a code, inside those of its length. -/
theorem codeAt_span (hs : lengths[s]? = some len) (h0 : 0 < len) :
    longer lengths maxBits len ≤ codeAt lengths maxBits s len * 2 ^ (maxBits - len) ∧
      (codeAt lengths maxBits s len + 1) * 2 ^ (maxBits - len) ≤
        longer lengths maxBits (len - 1) := by
  have hl := h.le len (List.mem_of_getElem? hs)
  have hr := rank_lt_count hs
  rw [longer_pred h0 hl, ← h.firstCode_mul hl, ← Nat.add_mul, codeAt]
  exact ⟨Nat.mul_le_mul_right _ (by omega), Nat.mul_le_mul_right _ (by omega)⟩

theorem codeAt_lt (hs : lengths[s]? = some len) (h0 : 0 < len) :
    codeAt lengths maxBits s len < 2 ^ len := by
  have hl := h.le len (List.mem_of_getElem? hs)
  have hspan := (h.codeAt_span hs h0).2.trans (h.longer_le _)
  have hpow : 2 ^ maxBits = 2 ^ len * 2 ^ (maxBits - len) := by
    rw [← Nat.pow_add]
    congr 1
    omega
  rw [hpow] at hspan
  exact Nat.le_of_mul_le_mul_right hspan (Nat.two_pow_pos _)

/-- The codes leave no slot out. -/
theorem exists_codeAt {slot : Nat} (hslot : slot < 2 ^ maxBits) :
    ∃ s len, lengths[s]? = some len ∧ 0 < len ∧
      codeAt lengths maxBits s len = slot / 2 ^ (maxBits - len) := by
  -- the longest length whose slots reach past the one looked for
  suffices ∀ k ≤ maxBits, slot < longer lengths maxBits k ∨ ∃ s len, lengths[s]? = some len ∧
      0 < len ∧ codeAt lengths maxBits s len = slot / 2 ^ (maxBits - len) by
    rcases this maxBits (Nat.le_refl _) with hlt | hfound
    · rw [longer, Ioc_self, sum_empty] at hlt
      omega
    · exact hfound
  intro k hk
  induction k with
  | zero =>
    left
    rwa [h.full]
  | succ k ih =>
    rcases ih (by omega) with hlt | hfound
    · have hpred := @longer_pred lengths maxBits (k + 1) (Nat.succ_pos k) hk
      rw [Nat.add_sub_cancel] at hpred
      rcases Nat.lt_or_ge slot (longer lengths maxBits (k + 1)) with hin | hge
      · exact .inl hin
      · right
        have hrank : (slot - longer lengths maxBits (k + 1)) / 2 ^ (maxBits - (k + 1)) <
            lengths.count (k + 1) := by
          rw [Nat.div_lt_iff_lt_mul (Nat.two_pow_pos _)]
          omega
        obtain ⟨s, hs, hr⟩ := exists_rank lengths (k + 1) hrank
        refine ⟨s, k + 1, hs, Nat.succ_pos k, ?_⟩
        have hsplit : slot = 2 ^ (maxBits - (k + 1)) * firstCode lengths maxBits (k + 1) +
            (slot - longer lengths maxBits (k + 1)) := by
          rw [Nat.mul_comm, h.firstCode_mul hk]
          omega
        rw [codeAt, hr]
        conv_rhs => rw [hsplit]
        rw [Nat.mul_add_div (Nat.two_pow_pos _)]
    · exact .inr hfound

end CompleteCode

/-- A table no wider than its longest code holds the same code. -/
theorem longer_shrink {m : Nat} (hm : ∀ l ∈ lengths, l ≤ m) (hle : m ≤ maxBits) (len : Nat) :
    longer lengths maxBits len = longer lengths m len * 2 ^ (maxBits - m) := by
  have hcut : ∑ l ∈ Ioc len m, lengths.count l * 2 ^ (maxBits - l) = longer lengths maxBits len := by
    apply sum_subset (Ioc_subset_Ioc_right hle)
    intro l _ hl
    have hnone : lengths.count l = 0 := by
      apply List.count_eq_zero.mpr
      intro hmem
      have := hm l hmem
      rw [mem_Ioc] at *
      omega
    rw [hnone, Nat.zero_mul]
  rw [← hcut, longer, sum_mul]
  apply sum_congr rfl
  intro l hl
  rw [mem_Ioc] at hl
  rw [Nat.mul_assoc, ← Nat.pow_add]
  congr 2
  omega

namespace CompleteCode

theorem shrink (h : CompleteCode lengths maxBits) {m : Nat} (hm : ∀ l ∈ lengths, l ≤ m)
    (hle : m ≤ maxBits) : CompleteCode lengths m := by
  refine ⟨hm, ?_⟩
  have hfull := h.full
  rw [longer_shrink hm hle, ← Nat.sub_add_cancel hle, Nat.pow_add, Nat.add_sub_cancel,
    Nat.mul_comm] at hfull
  exact Nat.eq_of_mul_eq_mul_left (Nat.two_pow_pos _) hfull

theorem codeAt_shrink {m : Nat} (hm : ∀ l ∈ lengths, l ≤ m) (hle : m ≤ maxBits) (s : Nat)
    {len : Nat} (hlen : len ≤ m) : codeAt lengths maxBits s len = codeAt lengths m s len := by
  have hwidth : 2 ^ (maxBits - len) = 2 ^ (m - len) * 2 ^ (maxBits - m) := by
    rw [← Nat.pow_add]
    congr 1
    omega
  rw [codeAt, codeAt, firstCode, firstCode, longer_shrink hm hle, hwidth,
    Nat.mul_div_mul_right _ _ (Nat.two_pow_pos _)]

end CompleteCode

end Bits
