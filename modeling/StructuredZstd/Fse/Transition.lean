import StructuredZstd.Fse.EncoderBuild

namespace Fse.Encoder

open Bits

/-- Dividing a state by the width of its transition lands in the symbol's own range. -/
structure Lands (accLog w nb value : Nat) : Prop where
  width_le : nb ≤ accLog
  ge : w ≤ value / 2 ^ nb
  lt : value / 2 ^ nb < 2 * w

theorem log2_bounds {p : Nat} (hp : 2 ≤ p) :
    2 ^ Nat.log2 (p - 1) < p ∧ p ≤ 2 ^ (Nat.log2 (p - 1) + 1) := by
  have h1 := Nat.log2_self_le (n := p - 1) (by omega)
  have h2 := Nat.lt_log2_self (n := p - 1)
  omega

/-- A symbol with a single state emits the whole state. -/
theorem lands_one {accLog i : Nat} (ha : accLog ≤ 9) (hi : i < 2 ^ accLog) :
    (2 ^ accLog + i + (accLog <<< 16 - 1 <<< accLog)) >>> 16 = accLog ∧
      Lands accLog 1 accLog (2 ^ accLog + i) := by
  have hle : 2 ^ accLog ≤ 2 ^ 9 := Nat.pow_le_pow_right (by decide) ha
  have hpos : 0 < 2 ^ accLog := by positivity
  have hsub : 2 ^ accLog ≤ accLog * 2 ^ 16 ∨ accLog = 0 := by
    rcases Nat.eq_zero_or_pos accLog with h | h
    · exact .inr h
    · left; omega
  refine ⟨?_, Nat.le_refl _, ?_, ?_⟩
  · rw [Nat.shiftLeft_eq, Nat.one_shiftLeft, Nat.shiftRight_eq_div_pow]
    rcases hsub with h | h
    · omega
    · subst h
      omega
  · rw [Nat.le_div_iff_mul_le hpos]
    omega
  · rw [Nat.div_lt_iff_lt_mul hpos]
    omega

/-- A symbol with several states emits the wider count from the threshold on, else one less. -/
theorem lands_many {accLog p i : Nat} (ha : accLog ≤ 9) (hp : 2 ≤ p) (hpa : p ≤ 2 ^ accLog)
    (hi : i < 2 ^ accLog) :
    let maxBitsOut := accLog - Nat.log2 (p - 1)
    let nb := (2 ^ accLog + i + (maxBitsOut <<< 16 - p <<< maxBitsOut)) >>> 16
    Lands accLog p nb (2 ^ accLog + i) := by
  intro maxBitsOut nb
  obtain ⟨hlo, hhi⟩ := log2_bounds hp
  have hh : Nat.log2 (p - 1) < accLog := by
    have : 2 ^ Nat.log2 (p - 1) < 2 ^ accLog := by omega
    exact (Nat.pow_lt_pow_iff_right (by decide)).mp this
  obtain ⟨m, hm⟩ : ∃ m, accLog = Nat.log2 (p - 1) + 1 + m :=
    ⟨accLog - Nat.log2 (p - 1) - 1, by omega⟩
  have hmax : maxBitsOut = m + 1 := by simp only [maxBitsOut]; omega
  have hle : 2 ^ accLog ≤ 2 ^ 9 := Nat.pow_le_pow_right (by decide) ha
  -- in units of the narrower width the table is `2 ^ (log2 (p - 1) + 1)` wide
  have hT : 2 ^ accLog = 2 ^ (Nat.log2 (p - 1) + 1) * 2 ^ m := by rw [← Nat.pow_add, ← hm]
  have hpow : 2 ^ (m + 1) = 2 * 2 ^ m := by rw [Nat.pow_succ, Nat.mul_comm]
  have hlog : 2 ^ (Nat.log2 (p - 1) + 1) = 2 * 2 ^ Nat.log2 (p - 1) := by
    rw [Nat.pow_succ, Nat.mul_comm]
  have hmpos : 0 < 2 ^ m := by positivity
  have hps : p * 2 ^ (m + 1) ≤ 2 * 2 ^ accLog := by
    rw [hpow, hT]
    calc p * (2 * 2 ^ m) = 2 * (p * 2 ^ m) := by ring
      _ ≤ 2 * (2 ^ (Nat.log2 (p - 1) + 1) * 2 ^ m) :=
        Nat.mul_le_mul_left _ (Nat.mul_le_mul_right _ hhi)
  have hnb : nb = if p * 2 ^ (m + 1) ≤ 2 ^ accLog + i then m + 1 else m := by
    simp only [nb, hmax, Nat.shiftLeft_eq, Nat.shiftRight_eq_div_pow]
    split_ifs <;> omega
  rw [hnb]
  split_ifs with hc
  · refine ⟨by omega, ?_, ?_⟩
    · rwa [Nat.le_div_iff_mul_le (by positivity)]
    · rw [Nat.div_lt_iff_lt_mul (by positivity)]
      calc 2 ^ accLog + i < 2 * 2 ^ accLog := by omega
        _ = 2 ^ (Nat.log2 (p - 1) + 1) * 2 ^ (m + 1) := by rw [hT, hpow]; ring
        _ ≤ 2 * p * 2 ^ (m + 1) := Nat.mul_le_mul_right _ (by omega)
  · refine ⟨by omega, ?_, ?_⟩
    · rw [Nat.le_div_iff_mul_le hmpos]
      calc p * 2 ^ m ≤ 2 ^ (Nat.log2 (p - 1) + 1) * 2 ^ m := Nat.mul_le_mul_right _ hhi
        _ ≤ 2 ^ accLog + i := by omega
    · rw [Nat.div_lt_iff_lt_mul hmpos]
      calc 2 ^ accLog + i < p * 2 ^ (m + 1) := by omega
        _ = 2 * p * 2 ^ m := by rw [hpow]; ring

/-- The start state of a transform is the first slot of its symbol. -/
theorem initState_eq {nb w total : Nat} (hnb : 1 ≤ nb) (hx : w * 2 ^ nb ≤ 2 ^ 10)
    (flat : List Nat) :
    initState ⟨nb <<< 16 - w <<< nb, (total : Int) - w⟩ flat = flat.getD total 0 := by
  have h1 : (nb * 2 ^ 16 - w * 2 ^ nb + 1 * 2 ^ 15) / 2 ^ 16 = nb := by omega
  have h2 : nb * 2 ^ 16 - (nb * 2 ^ 16 - w * 2 ^ nb) = w * 2 ^ nb := by omega
  have h3 : (((w : Nat) : Int) + ((total : Int) - w)).toNat = total := by omega
  simp only [initState, Nat.shiftLeft_eq, Nat.shiftRight_eq_div_pow, h1, h2,
    Nat.mul_div_cancel _ (Nat.two_pow_pos nb), h3]

/-- The transform of a present symbol, as the transitions and the start state use it. -/
theorem transform_spec {accLog total : Nat} {p : Int} {tt : SymbolTT} (h1 : 1 ≤ accLog)
    (ha : accLog ≤ 9) (hw : weight p ≤ 2 ^ accLog) (ht : transform accLog total p = some tt) :
    tt.deltaFindState = (total : Int) - weight p ∧
      (∀ i < 2 ^ accLog, Lands accLog (weight p) ((2 ^ accLog + i + tt.deltaNbBits) >>> 16)
        (2 ^ accLog + i)) ∧
      ∀ flat, initState tt flat = flat.getD total 0 := by
  have hle : 2 ^ accLog ≤ 2 ^ 9 := Nat.pow_le_pow_right (by decide) ha
  unfold transform at ht
  split_ifs at ht with hone hmany
  · have hw1 : weight p = 1 := by rcases hone with rfl | rfl <;> rfl
    cases ht
    refine ⟨by rw [hw1]; rfl, ?_, ?_⟩
    · intro i hi
      obtain ⟨hnb, hl⟩ := lands_one ha hi
      rw [hw1, hnb]
      exact hl
    · exact initState_eq (w := 1) h1 (by omega)
  · obtain ⟨n, rfl⟩ : ∃ n : Nat, p = n := ⟨p.toNat, by omega⟩
    have hwn : weight n = n := by rw [weight, if_neg (by omega), Int.toNat_natCast]
    have hn : 2 ≤ n := by omega
    rw [hwn] at hw ⊢
    rw [Int.toNat_natCast] at ht
    cases ht
    obtain ⟨hlo, hhi⟩ := log2_bounds hn
    have hlog : Nat.log2 (n - 1) < accLog :=
      (Nat.pow_lt_pow_iff_right (by decide : 1 < 2)).mp (by omega)
    refine ⟨rfl, fun i hi => lands_many ha hn hw hi, initState_eq (by omega) ?_⟩
    calc n * 2 ^ (accLog - Nat.log2 (n - 1))
        ≤ 2 ^ (Nat.log2 (n - 1) + 1) * 2 ^ (accLog - Nat.log2 (n - 1)) :=
          Nat.mul_le_mul_right _ hhi
      _ = 2 ^ (accLog + 1) := by rw [← Nat.pow_add]; congr 1; omega
      _ ≤ 2 ^ 10 := Nat.pow_le_pow_right (by decide) (by omega)

section Table

variable {d : Distribution} {t : FSETable}

theorem TableOf.symbolTT {s : Nat} {p : Int} (h : TableOf d t) (hs : d.probs[s]? = some p)
    (h0 : p ≠ 0) : transform d.accLog (d.first s) p = some (t.symbolTT s) ∧
      (t.states s).startState = some (initState (t.symbolTT s) t.stateTableFlat) := by
  have he := h.entry s p hs
  rw [symbolEntry, if_neg h0] at he
  cases ht : transform d.accLog (d.first s) p with
  | none => rw [ht] at he; cases he
  | some tt =>
    rw [ht] at he
    simp only [Option.bind_eq_bind, Option.bind_some, Option.some.injEq, Prod.mk.injEq] at he
    exact ⟨by rw [he.2], by rw [he.1, he.2]⟩

/-- The weight of a listed symbol fits the table. -/
theorem weight_le {s : Nat} {p : Int} (hs : d.probs[s]? = some p) :
    weight p ≤ 2 ^ d.accLog ∧ d.first s + weight p ≤ d.size := by
  have hlt := (List.getElem?_eq_some_iff.mp hs).1
  have := d.first_add_le hlt
  rw [List.getD_eq_getElem?_getD, hs, Option.getD_some] at this
  exact ⟨by unfold Distribution.size at this; omega, this⟩

/-- The transition on `s` from state `i`: it lands on the slot of `s` whose rank is the part of
the state kept beside the emitted bits. -/
theorem TableOf.nextState_spec {s i : Nat} {p : Int} (h : TableOf d t)
    (hs : d.probs[s]? = some p) (h0 : p ≠ 0) (hi : i < d.size) :
    ∃ nb u, t.nextState s i = some ⟨nb, u⟩ ∧ nb ≤ d.accLog ∧ d.slots[u]? = some s ∧
      weight p + rank d.slots u s = (d.size + i) / 2 ^ nb := by
  obtain ⟨ht, _⟩ := h.symbolTT hs h0
  obtain ⟨hw, hf⟩ := weight_le hs
  obtain ⟨hd, hl, _⟩ := transform_spec (by have := d.log_ge; omega) d.log_le hw ht
  obtain ⟨hnb, hge, hlt⟩ := hl i hi
  -- the quotient, less the weight, is the rank of the slot landed on
  have hcount : d.slots.count s = weight p := by
    rw [d.slots_count, List.getD_eq_getElem?_getD, hs, Option.getD_some]
  obtain ⟨u, hu, hr⟩ := exists_rank d.slots s
    (k := (2 ^ d.accLog + i) / 2 ^ ((2 ^ d.accLog + i + (t.symbolTT s).deltaNbBits) >>> 16)
      - weight p) (by omega)
  refine ⟨_, u, ?_, hnb, hu, ?_⟩
  · have hfile := h.filed u s hu
    have hflt := d.filing_lt hu
    have hslot : (((2 ^ d.accLog + i) >>>
        ((2 ^ d.accLog + i + (t.symbolTT s).deltaNbBits) >>> 16) : Nat) : Int) +
          (t.symbolTT s).deltaFindState = (d.filing u s : Int) := by
      rw [Nat.shiftRight_eq_div_pow (2 ^ d.accLog + i), hd, Distribution.filing, hr]
      omega
    rw [FSETable.nextState, h.size_eq]
    simp only [Distribution.size] at hflt ⊢
    simp only [hslot]
    rw [if_pos ⟨by omega, by omega⟩, Int.toNat_natCast, List.getD_eq_getElem?_getD, hfile,
      Option.getD_some]
  · rw [hr, Distribution.size]
    omega

/-- The start state of a symbol is its first slot. -/
theorem TableOf.startState_spec {s : Nat} {p : Int} (h : TableOf d t)
    (hs : d.probs[s]? = some p) (h0 : p ≠ 0) (hp : -1 ≤ p) :
    ∃ u, t.startState s = some ⟨0, u⟩ ∧ d.slots[u]? = some s ∧ rank d.slots u s = 0 := by
  obtain ⟨ht, hstart⟩ := h.symbolTT hs h0
  obtain ⟨hw, hf⟩ := weight_le hs
  obtain ⟨_, _, hinit⟩ := transform_spec (by have := d.log_ge; omega) d.log_le hw ht
  have hcount : d.slots.count s = weight p := by
    rw [d.slots_count, List.getD_eq_getElem?_getD, hs, Option.getD_some]
  have hpos : 0 < weight p := by unfold weight; split_ifs <;> omega
  obtain ⟨u, hu, hr⟩ := exists_rank d.slots s (k := 0) (by omega)
  refine ⟨u, ?_, hu, hr⟩
  have hfile := h.filed u s hu
  rw [Distribution.filing, hr, Nat.add_zero] at hfile
  rw [FSETable.startState, hstart, hinit, List.getD_eq_getElem?_getD, hfile]
  rfl

end Table

end Fse.Encoder
