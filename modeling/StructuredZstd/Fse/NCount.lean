import StructuredZstd.Fse.EncoderBuild

namespace Fse.Encoder

open Bits BitIo BitIo.BitWriter

/-- The fields of a run of `n` zeros that follow a zero probability. -/
def zeroRunFields (n : Nat) : List (Nat × Nat) :=
  List.replicate (n / 3) (3, 2) ++ [(n % 3, 2)]

theorem zeroRunFields_add_three (n : Nat) : zeroRunFields (n + 3) = (3, 2) :: zeroRunFields n := by
  have h1 : (n + 3) / 3 = n / 3 + 1 := by omega
  have h2 : (n + 3) % 3 = n % 3 := by omega
  rw [zeroRunFields, zeroRunFields, h1, h2, List.replicate_succ, List.cons_append]

/-- A run of zeros that ends at a present symbol, entered with `zeros` already counted. -/
theorem writeZeroRun_spec (len : Nat) (prob : Nat → Int) (n fuel idx zeros : Nat) (w : BitWriter)
    (hrun : ∀ k < n, prob (idx + k) = 0) (hend : prob (idx + n) ≠ 0) (hlen : idx + n < len)
    (hf : n < fuel) (hz : zeros < 3) :
    ∃ w', writeZeroRun len prob fuel idx zeros w = some (idx + n, w') ∧
      w'.toStack = w.toStack.pushAll (zeroRunFields (zeros + n)) := by
  induction n generalizing fuel idx zeros w with
  | zero =>
    obtain ⟨fuel, rfl⟩ : ∃ f, fuel = f + 1 := ⟨fuel - 1, by omega⟩
    rw [Nat.add_zero] at hend hlen ⊢
    obtain ⟨w', hw, ht⟩ := w.writeBits_spec (b := zeros) (n := 2) (by omega) (by decide)
    refine ⟨w', by simp [writeZeroRun, hend, hw], ?_⟩
    rw [ht, Nat.add_zero, zeroRunFields, Nat.div_eq_of_lt hz, Nat.mod_eq_of_lt hz]
    rfl
  | succ n ih =>
    obtain ⟨fuel, rfl⟩ : ∃ f, fuel = f + 1 := ⟨fuel - 1, by omega⟩
    have h0 : prob idx = 0 := hrun 0 (by omega)
    have hrun' : ∀ k < n, prob (idx + 1 + k) = 0 := by
      intro k hk
      have := hrun (k + 1) (by omega)
      rwa [← Nat.add_assoc, Nat.add_right_comm] at this
    have he : idx + (n + 1) = idx + 1 + n := by omega
    rw [he] at hend hlen ⊢
    rw [writeZeroRun, if_pos ⟨by omega, h0⟩]
    by_cases h3 : zeros + 1 = 3
    · rw [if_pos h3]
      obtain ⟨w₁, hw, ht⟩ := w.writeBits_spec (b := 3) (n := 2) (by decide) (by decide)
      obtain ⟨w', hr, ht'⟩ := ih fuel (idx + 1) 0 w₁ hrun' hend hlen (by omega) (by omega)
      refine ⟨w', by simp [hw, hr], ?_⟩
      have : zeros + (n + 1) = 0 + n + 3 := by omega
      rw [ht', this, zeroRunFields_add_three, Stack.pushAll_cons, ht]
    · rw [if_neg h3]
      obtain ⟨w', hr, ht'⟩ := ih fuel (idx + 1) (zeros + 1) w hrun' hend hlen (by omega) (by omega)
      refine ⟨w', hr, ?_⟩
      rw [ht', Nat.add_right_comm, Nat.add_assoc]

/-- How many zeros a list starts with. -/
def leadingZeros (ps : List Int) : Nat := (ps.takeWhile (· = 0)).length

/-- The fields of the probabilities that are left, `counter` of `sum` states being accounted. -/
def ncountFields (sum : Nat) : Nat → List Int → Nat → List (Nat × Nat)
  | 0, _, _ => []
  | _, [], _ => []
  | fuel + 1, p :: ps, counter =>
    if counter < sum then
      ncountField (sum - counter + 1) p ::
        if p = 0 then
          zeroRunFields (leadingZeros ps) ++
            ncountFields sum fuel (ps.drop (leadingZeros ps)) counter
        else ncountFields sum fuel ps (counter + weight p)
    else []

/-- A probability that still fits is written clean, in at most its full width. -/
theorem ncountField_lt {r : Nat} {p : Int} (hr : 2 ≤ r) (hpr : p < r) :
    (ncountField r p).1 < 2 ^ (ncountField r p).2 ∧
      (ncountField r p).2 ≤ Nat.log2 r + 1 := by
  have h1 : 2 ^ Nat.log2 r ≤ r := Nat.log2_self_le (by omega)
  have h2 : r < 2 ^ (Nat.log2 r + 1) := Nat.lt_log2_self
  have hpow : 2 ^ (Nat.log2 r + 1) = 2 * 2 ^ Nat.log2 r := by rw [Nat.pow_succ, Nat.mul_comm]
  unfold ncountField
  simp only [Nat.one_shiftLeft, Nat.add_sub_cancel]
  split_ifs <;> simp only <;> omega

theorem leadingZeros_spec {ps : List Int} (h : 0 < weightSum ps) :
    leadingZeros ps < ps.length ∧ (∀ k < leadingZeros ps, ps.getD k 0 = 0) ∧
      ps.getD (leadingZeros ps) 0 ≠ 0 ∧ weightSum (ps.drop (leadingZeros ps)) = weightSum ps := by
  induction ps with
  | nil => simp at h
  | cons p ps ih =>
    by_cases hp : p = 0
    · subst hp
      have h0 : weight 0 = 0 := rfl
      obtain ⟨h1, h2, h3, h4⟩ := ih (by simpa [h0] using h)
      have hl : leadingZeros (0 :: ps) = leadingZeros ps + 1 := by simp [leadingZeros]
      rw [hl]
      refine ⟨by simpa using h1, ?_, by simpa using h3, by simpa [h0] using h4⟩
      intro k hk
      rcases k with _ | k
      · rfl
      · simpa using h2 k (by omega)
    · have hl : leadingZeros (p :: ps) = 0 := by simp [leadingZeros, hp]
      rw [hl]
      exact ⟨by simp, by simp, by simpa using hp, by simp⟩

/-- The loop writes the fields of the probabilities that are left and stops at the last state. -/
theorem writeProbabilities_spec (len sum : Nat) (prob : Nat → Int) (fuel : Nat) (ps : List Int)
    (counter idx : Nat) (w : BitWriter) (hprob : ∀ k, prob (idx + k) = ps.getD k 0)
    (hrange : ∀ p ∈ ps, -1 ≤ p) (hsum : counter + weightSum ps = sum) (hlen : idx + ps.length ≤ len)
    (hf : ps.length < fuel) (hs : sum < 2 ^ 16) :
    Writes w (ncountFields sum fuel ps counter)
      (writeProbabilities len prob sum fuel counter idx w) := by
  induction fuel generalizing ps counter idx w with
  | zero => omega
  | succ fuel ih =>
    rw [writeProbabilities]
    by_cases hc : counter < sum
    · rw [if_pos hc]
      rcases ps with _ | ⟨p, ps⟩
      · simp at hsum
        omega
      have hp : prob idx = p := hprob 0
      have hpr : -1 ≤ p := hrange p (by simp)
      have hrange' : ∀ q ∈ ps, -1 ≤ q := fun q hq => hrange q (by simp [hq])
      have hprob' : ∀ k, prob (idx + 1 + k) = ps.getD k 0 := by
        intro k
        have := hprob (k + 1)
        rwa [← Nat.add_assoc, Nat.add_right_comm, List.getD_cons_succ] at this
      simp only [weightSum_cons, List.length_cons] at hsum hlen hf
      have hw : p < ((sum - counter + 1 : Nat) : Int) := by
        unfold weight at hsum
        split_ifs at hsum <;> omega
      obtain ⟨hb, hn⟩ := ncountField_lt (by omega) hw
      have hlog : Nat.log2 (sum - counter + 1) ≤ 16 := by
        have : Nat.log2 (sum - counter + 1) < 17 := (Nat.log2_lt (by omega)).mpr (by omega)
        omega
      simp only [hp]
      rw [ncountFields, if_pos hc]
      refine Writes.bind_cons (Writes.field w hb (Nat.le_trans hn (by omega))) ?_
      intro w'
      rcases Int.lt_trichotomy p 0 with hneg | hzero | hpos
      · have : p = -1 := by omega
        subst this
        rw [if_pos rfl, if_neg (by omega)]
        exact ih ps (counter + 1) (idx + 1) w' hprob' hrange' (by rw [← hsum]; simp [weight]; omega)
          (by omega) (by omega)
      · subst hzero
        rw [if_pos rfl, if_neg (by omega), if_neg (by omega)]
        have h0 : weight 0 = 0 := rfl
        obtain ⟨h1, h2, h3, h4⟩ := leadingZeros_spec (show 0 < weightSum ps by omega)
        obtain ⟨w₁, hz, ht⟩ := writeZeroRun_spec len prob (leadingZeros ps)
          (len + 1) (idx + 1) 0 w' (fun k hk => by rw [hprob', h2 k hk]) (by rwa [hprob'])
          (by omega) (by omega) (by decide)
        obtain ⟨w₂, hr, ht'⟩ := ih (ps.drop (leadingZeros ps)) counter
          (idx + 1 + leadingZeros ps) w₁
          (fun k => by rw [Nat.add_assoc, hprob']; simp [List.getD_eq_getElem?_getD])
          (fun q hq => hrange' q (List.mem_of_mem_drop hq)) (by omega)
          (by rw [List.length_drop]; omega) (by rw [List.length_drop]; omega)
        refine ⟨w₂, by simp [hz, hr], ?_⟩
        rw [ht', ht, Nat.zero_add, Stack.pushAll_append]
      · rw [if_neg (by omega), if_pos hpos, if_neg (by omega)]
        have hwt : weight p = p.toNat := by rw [weight, if_neg (by omega)]
        rw [hwt] at hsum ⊢
        exact ih ps (counter + p.toNat) (idx + 1) w' hprob' hrange' (by omega) (by omega) (by omega)
    · rw [if_neg hc]
      have : ncountFields sum (fuel + 1) ps counter = [] := by
        rcases ps with _ | ⟨p, ps⟩
        · rfl
        · rw [ncountFields, if_neg hc]
      rw [this]
      exact Writes.nil w

/-- The description of a distribution, before the padding. -/
def headerFields (d : Distribution) : List (Nat × Nat) :=
  (d.accLog - 5, 4) :: ncountFields d.size 257 d.probs 0

/-- On a byte boundary the description of a table goes out whole and ends on one. -/
theorem TableOf.writeTable_spec {d : Distribution} {t : FSETable} (h : TableOf d t)
    {w : BitWriter} (hw : w.index % 8 = 0) :
    ∃ w' pad, t.writeTable w = some w' ∧ w'.index % 8 = 0 ∧ pad < 8 ∧
      w'.toStack = w.toStack.pushAll (headerFields d ++ [(0, pad)]) := by
  have hlo := d.log_ge
  have hhi := d.log_le
  obtain ⟨w₁, h1, ht1⟩ := w.writeBits_spec (b := d.accLog - 5) (n := 4) (by omega) (by decide)
  have hsize : 1 <<< d.accLog = d.size := by rw [Nat.one_shiftLeft, Distribution.size]
  obtain ⟨w₂, h2, ht2⟩ := writeProbabilities_spec 256 d.size
    (fun i => (t.states i).probability) 257 d.probs 0 0 w₁
    (fun k => by simp only [Nat.zero_add]; exact h.probability k) d.range
    (by rw [Nat.zero_add, d.sum_eq, Distribution.size]) (by have := d.length_le; omega)
    (by have := d.length_le; omega) (by have := d.size_le; omega)
  obtain ⟨w₃, h3, ht3⟩ := w₂.writeBits_spec (b := 0) (n := w₂.misaligned) (by positivity)
    (by have := w₂.misaligned_lt; omega)
  refine ⟨w₃, w₂.misaligned, ?_, fill_aligned ht3, w₂.misaligned_lt, ?_⟩
  · rw [FSETable.writeTable, writeNcount, h.accLog_eq, hsize, h1]
    simp [hw, h2, h3]
  · rw [ht3, ht2, ht1, Stack.pushAll_append]
    rfl

end Fse.Encoder
