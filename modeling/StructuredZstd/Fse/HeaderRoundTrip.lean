import StructuredZstd.Fse.NCount
import StructuredZstd.Fse.FseDecoder

namespace Fse

open Bits BitIo Encoder Decoder

/-- The word load of the reader gives the bits of the source as a number. -/
theorem fieldAt_eq (source : List UInt8) {bitPos n : Nat} (hn : n ≤ 57) :
    fieldAt source bitPos n = le source / 2 ^ bitPos % 2 ^ n := by
  have h7 : bitPos &&& 7 = bitPos % 8 := Nat.and_two_pow_sub_one_eq_mod bitPos 3
  have h3 : bitPos >>> 3 = bitPos / 8 := Nat.shiftRight_eq_div_pow bitPos 3
  have hsplit : 2 ^ (8 * 8) = 2 ^ (bitPos % 8) * 2 ^ (64 - bitPos % 8) := by
    rw [← Nat.pow_add]
    congr 1
    omega
  have hpos : 2 ^ (8 * (bitPos / 8)) * 2 ^ (bitPos % 8) = 2 ^ bitPos := by
    rw [← Nat.pow_add, Nat.div_add_mod]
  rw [fieldAt, h7, h3, Nat.one_shiftLeft, Nat.and_two_pow_sub_one_eq_mod,
    Nat.shiftRight_eq_div_pow, le_take, le_drop, hsplit, Nat.mod_mul_right_div_self,
    Nat.mod_mod_of_dvd _ (Nat.pow_dvd_pow 2 (by omega)), Nat.div_div_eq_div_mul, hpos]

theorem readBits_eq {source : List UInt8} {bitPos n : Nat} (hn : n ≤ 57)
    (hlen : bitPos + n ≤ 8 * source.length) :
    readBits source bitPos n = .ok (le source / 2 ^ bitPos % 2 ^ n) := by
  rw [readBits, if_neg (by omega), fieldAt_eq source hn]

theorem highestBitSet_eq {r : Nat} (hr : 0 < r) : highestBitSet r = Nat.log2 r + 1 :=
  if_neg (Nat.ne_of_gt hr)

/-- The reader takes a full-width field and gives the top bit of a short one back: it finds the
value that was written, and the width it was written in. -/
theorem unfoldValue_field {r v : Nat} {p : Int} (hr : 2 ≤ r)
    (hv : v < 2 ^ (Nat.log2 r + 1)) (hfield : v % 2 ^ (ncountField r p).2 = (ncountField r p).1) :
    unfoldValue r v = ((p + 1).toNat, (ncountField r p).2) := by
  have h1 : 2 ^ Nat.log2 r ≤ r := Nat.log2_self_le (by omega)
  have h2 : r < 2 ^ (Nat.log2 r + 1) := Nat.lt_log2_self
  have hpow : 2 ^ (Nat.log2 r + 1) = 2 * 2 ^ Nat.log2 r := by rw [Nat.pow_succ, Nat.mul_comm]
  have hmask : v &&& (2 ^ Nat.log2 r - 1) = v % 2 ^ Nat.log2 r :=
    Nat.and_two_pow_sub_one_eq_mod v (Nat.log2 r)
  have hmod_lt : v < 2 ^ Nat.log2 r → v % 2 ^ Nat.log2 r = v := Nat.mod_eq_of_lt
  have hmod_ge : 2 ^ Nat.log2 r ≤ v → v % 2 ^ Nat.log2 r = v - 2 ^ Nat.log2 r := by
    intro hge
    rw [Nat.mod_eq_sub_mod hge, Nat.mod_eq_of_lt (by omega)]
  unfold ncountField at hfield ⊢
  unfold unfoldValue
  rw [highestBitSet_eq (by omega)]
  simp only [Nat.one_shiftLeft, Nat.add_sub_cancel, hmask] at hfield ⊢
  by_cases hshort : (p + 1).toNat < 2 ^ (Nat.log2 r + 1) - 1 - r
  · rw [if_pos hshort] at hfield ⊢
    rw [hfield, if_pos hshort]
  · rw [if_neg hshort] at hfield ⊢
    by_cases hbig : 2 ^ Nat.log2 r - 1 < (p + 1).toNat
    · rw [if_pos hbig] at hfield ⊢
      dsimp only at hfield
      rw [Nat.mod_eq_of_lt hv] at hfield
      subst hfield
      rw [hmod_ge (by omega), if_neg (by omega), if_pos (by omega), Nat.add_sub_cancel]
    · rw [if_neg hbig] at hfield ⊢
      dsimp only at hfield
      rw [Nat.mod_eq_of_lt hv] at hfield
      subst hfield
      rw [hmod_lt (by omega), if_neg hshort, if_neg hbig]

/-- A field is written in the width the reader asks for, or one bit short of it. -/
theorem width_bounds (r : Nat) (p : Int) :
    Nat.log2 r ≤ (ncountField r p).2 ∧ (ncountField r p).2 ≤ Nat.log2 r + 1 := by
  unfold ncountField
  dsimp only
  split
  · exact ⟨Nat.le_refl _, Nat.le_succ _⟩
  · split
    · exact ⟨Nat.le_succ _, Nat.le_refl _⟩
    · exact ⟨Nat.le_succ _, Nat.le_refl _⟩

/-- The skip counts that were written for a run of zeros bring it back. -/
theorem readSkips_zeroRun {source : List UInt8} {maxSymbols : Nat} (fuel n bitPos : Nat)
    (probs : List Int) (hahead : Ahead (le source) bitPos (zeroRunFields n))
    (hlen : bitPos + widths (zeroRunFields n) ≤ 8 * source.length)
    (hmax : probs.length + n ≤ maxSymbols) (hfuel : n < fuel) :
    readSkips source maxSymbols fuel bitPos probs =
      (.ok (bitPos + widths (zeroRunFields n)), probs ++ List.replicate n 0) := by
  induction fuel generalizing n bitPos probs with
  | zero => omega
  | succ fuel ih =>
    rcases Nat.lt_or_ge n 3 with hn | hn
    · have hfields : zeroRunFields n = [(n, 2)] := by
        rw [zeroRunFields, Nat.div_eq_of_lt hn, Nat.mod_eq_of_lt hn]
        rfl
      rw [hfields] at hahead hlen ⊢
      simp only [widths_cons, widths_nil] at hlen ⊢
      rw [readSkips, readBits_eq (by decide) (by omega), hahead.1]
      dsimp only
      rw [if_neg (by omega), if_pos (by omega)]
    · obtain ⟨k, rfl⟩ : ∃ k, n = k + 3 := ⟨n - 3, by omega⟩
      rw [zeroRunFields_add_three] at hahead hlen ⊢
      simp only [widths_cons] at hlen ⊢
      rw [readSkips, readBits_eq (by decide) (by omega), hahead.1]
      dsimp only
      rw [if_neg (by omega), if_neg (by decide), ih k (bitPos + 2) _ hahead.2 (by omega)
        (by rw [List.length_append, List.length_replicate]; omega) (by omega)]
      rw [List.append_assoc, List.replicate_append_replicate, Nat.add_comm 3 k, Nat.add_assoc]

theorem zeros_append_drop (ps : List Int) :
    List.replicate (leadingZeros ps) 0 ++ ps.drop (leadingZeros ps) = ps := by
  induction ps with
  | nil => rfl
  | cons p ps ih =>
    by_cases hp : p = 0
    · subst hp
      have hl : leadingZeros (0 :: ps) = leadingZeros ps + 1 := by simp [leadingZeros]
      rw [hl, List.replicate_succ, List.drop_succ_cons, List.cons_append, ih]
    · have hl : leadingZeros (p :: ps) = 0 := by simp [leadingZeros, hp]
      rw [hl]
      rfl

theorem weight_eq_natAbs {p : Int} (h : -1 ≤ p) : weight p = p.natAbs := by
  rw [weight]
  split
  · rename_i hp
    rw [hp]
    rfl
  · omega

/-- Without trailing zeros there is weight to the end. -/
theorem weightSum_pos {ps : List Int} (hne : ps ≠ []) (hrange : ∀ p ∈ ps, -1 ≤ p)
    (hlast : ps.getLast? ≠ some 0) : 0 < weightSum ps := by
  have hmem := List.getLast_mem hne
  have hnonzero : ps.getLast hne ≠ 0 := by
    intro h0
    apply hlast
    rw [List.getLast?_eq_getLast_of_ne_nil hne, h0]
  have hpos : 0 < weight (ps.getLast hne) := by
    rw [weight_eq_natAbs (hrange _ hmem)]
    omega
  exact Nat.lt_of_lt_of_le hpos (List.single_le_sum (by simp) _ (List.mem_map_of_mem hmem))

/-- The loop reads the probabilities that were written, and stops where they end. -/
theorem readProbabilityLoop_fields {source : List UInt8} {maxSymbols sum : Nat} (hsum : sum < 2 ^ 16)
    (fuel fuel' : Nat) {ps : List Int} (pos counter : Nat) (acc : List Int)
    (hahead : Ahead (le source) pos (ncountFields sum fuel' ps counter))
    (hlen : pos + widths (ncountFields sum fuel' ps counter) < 8 * source.length)
    (hrange : ∀ p ∈ ps, -1 ≤ p) (hweight : counter + weightSum ps = sum)
    (hlast : ps.getLast? ≠ some 0) (hmax : acc.length + ps.length ≤ maxSymbols)
    (hf : ps.length < fuel) (hf' : ps.length < fuel') :
    readProbabilityLoop source maxSymbols sum fuel pos counter acc =
      (.ok (pos + widths (ncountFields sum fuel' ps counter)), acc ++ ps) := by
  induction fuel generalizing fuel' ps pos counter acc with
  | zero => omega
  | succ fuel ih =>
    obtain ⟨fuel', rfl⟩ : ∃ f, fuel' = f + 1 := ⟨fuel' - 1, by omega⟩
    rw [readProbabilityLoop]
    cases ps with
    | nil =>
      rw [weightSum_nil, Nat.add_zero] at hweight
      have hfields : ncountFields sum (fuel' + 1) [] counter = [] := rfl
      rw [if_neg (by omega), if_neg (not_not.mpr hweight), hfields, widths_nil, Nat.add_zero,
        List.append_nil]
    | cons p ps =>
      have hpos := weightSum_pos (List.cons_ne_nil p ps) hrange hlast
      have hc : counter < sum := by omega
      have hp : -1 ≤ p := hrange p List.mem_cons_self
      have hrange' : ∀ q ∈ ps, -1 ≤ q := fun q hq => hrange q (List.mem_cons_of_mem p hq)
      simp only [weightSum_cons, List.length_cons] at hweight hmax hf hf'
      rw [ncountFields, if_pos hc] at hahead hlen ⊢
      rw [if_pos hc]
      simp only [widths_cons] at hlen ⊢
      -- the field is read one bit too wide when it is short, so a bit must follow the header
      obtain ⟨hwide, hnarrow⟩ := width_bounds (sum - counter + 1) p
      have hv : le source / 2 ^ pos % 2 ^ (Nat.log2 (sum - counter + 1) + 1) %
          2 ^ (ncountField (sum - counter + 1) p).2 = (ncountField (sum - counter + 1) p).1 := by
        rw [Nat.mod_mod_of_dvd _ (Nat.pow_dvd_pow 2 hnarrow)]
        exact hahead.1
      have hlog : Nat.log2 (sum - counter + 1) ≤ 16 := by
        have : Nat.log2 (sum - counter + 1) < 17 := (Nat.log2_lt (by omega)).mpr (by omega)
        omega
      rw [highestBitSet_eq (by omega), readBits_eq (by omega) (by omega)]
      dsimp only
      rw [unfoldValue_field (by omega) (Nat.mod_lt _ (Nat.two_pow_pos _)) hv]
      have hvalue : (((p + 1).toNat : Nat) : Int) - 1 = p := by omega
      dsimp only
      rw [hvalue, if_neg (by omega)]
      obtain ⟨-, hahead⟩ := hahead
      generalize (ncountField (sum - counter + 1) p).2 = width at hahead hlen ⊢
      by_cases hzero : p = 0
      · subst hzero
        rw [if_pos rfl] at hahead hlen ⊢
        rw [if_neg (not_not.mpr rfl)]
        obtain ⟨hruns, hahead⟩ := hahead.append
        rw [widths_append] at hlen ⊢
        have h0 : weight 0 = 0 := rfl
        obtain ⟨hz, -, -, hweight'⟩ := leadingZeros_spec (show 0 < weightSum ps by omega)
        rw [readSkips_zeroRun (maxSymbols + 1) (leadingZeros ps) (pos + width) (acc ++ [0]) hruns
          (by omega) (by rw [List.length_append, List.length_singleton]; omega) (by omega)]
        have hlast' : (ps.drop (leadingZeros ps)).getLast? ≠ some 0 := by
          rw [List.getLast?_drop, if_neg (by omega)]
          rwa [List.getLast?_cons_of_ne_nil (List.ne_nil_of_length_pos (by omega))] at hlast
        dsimp only
        rw [ih fuel' (pos + width + widths (zeroRunFields (leadingZeros ps))) counter
          (acc ++ [0] ++ List.replicate (leadingZeros ps) 0) hahead (by omega)
          (fun q hq => hrange' q (List.mem_of_mem_drop hq)) (by omega) hlast'
          (by simp only [List.length_append, List.length_singleton, List.length_replicate,
                List.length_drop]; omega)
          (by rw [List.length_drop]; omega) (by rw [List.length_drop]; omega),
          List.append_assoc, zeros_append_drop, List.append_assoc, List.singleton_append,
          Nat.add_assoc, Nat.add_assoc]
      · rw [if_neg hzero] at hahead hlen ⊢
        rw [if_pos hzero]
        have hlast' : ps.getLast? ≠ some 0 := by
          cases ps with
          | nil => simp
          | cons q qs => rwa [List.getLast?_cons_cons] at hlast
        rw [← weight_eq_natAbs hp, ih fuel' (pos + width) (counter + weight p) (acc ++ [p]) hahead
          (by omega) hrange' (by omega) hlast'
          (by rw [List.length_append, List.length_singleton]; omega) (by omega) (by omega),
          List.append_assoc, List.singleton_append, Nat.add_assoc]

section Bits

theorem writeBits_index {w w' : BitWriter} {b n : Nat} (h : w.writeBits b n = some w') :
    w'.index = w.index + n := by
  unfold BitWriter.writeBits BitWriter.writeBits64 at h
  split_ifs at h with h0 h1 h2 hc hfit
  · cases h
    rw [h0, Nat.add_zero]
  · cases h
    change w.bitIdx + 64 + w.bitsInPartial = w.bitIdx + w.bitsInPartial + n
    omega
  · cases h
    change w.bitIdx + (w.bitsInPartial + n) = w.bitIdx + w.bitsInPartial + n
    omega
  · have hlt := w.bits_lt
    unfold BitWriter.writeBits64Cold at h
    rw [if_neg (by omega)] at h
    cases h
    change w.bitIdx + 64 + 8 * ((n - (64 - w.bitsInPartial)) / 8) +
      (n - (64 - w.bitsInPartial)) % 8 = w.bitIdx + w.bitsInPartial + n
    omega

variable {len : Nat} {prob : Nat → Int}

theorem zeroRunBits_eq {fuel idx zeros : Nat} {w : BitWriter} {r : Nat × BitWriter}
    (h : writeZeroRun len prob fuel idx zeros w = some r) :
    ∃ n, r.2.index = w.index + n ∧
      ∀ bits, zeroRunBits len prob fuel idx zeros bits = some (r.1, bits + n) := by
  induction fuel generalizing idx zeros w with
  | zero => cases h
  | succ fuel ih =>
    rw [writeZeroRun] at h
    split at h
    · rename_i hrun
      split at h
      · rename_i hthree
        obtain ⟨w₁, hw, h⟩ := Option.bind_eq_some_iff.mp h
        obtain ⟨n, hindex, hbits⟩ := ih h
        refine ⟨2 + n, by rw [hindex, writeBits_index hw, Nat.add_assoc], fun bits => ?_⟩
        rw [zeroRunBits, if_pos hrun, if_pos hthree, hbits, Nat.add_assoc]
      · rename_i hthree
        obtain ⟨n, hindex, hbits⟩ := ih h
        refine ⟨n, hindex, fun bits => ?_⟩
        rw [zeroRunBits, if_pos hrun, if_neg hthree, hbits]
    · rename_i hrun
      obtain ⟨w₁, hw, h⟩ := Option.bind_eq_some_iff.mp h
      cases h
      refine ⟨2, writeBits_index hw, fun bits => ?_⟩
      rw [zeroRunBits, if_neg hrun]

theorem ncountField_width (r : Nat) (p : Int) (bits : Nat) :
    (if (p + 1).toNat < 1 <<< (Nat.log2 r + 1) - 1 - r then bits + (Nat.log2 r + 1 - 1)
      else bits + (Nat.log2 r + 1)) = bits + (ncountField r p).2 := by
  unfold ncountField
  dsimp only
  split
  · rfl
  · split
    · rfl
    · rfl

/-- The counter goes along with the writer, whatever is written. -/
theorem probabilityBits_eq {sum fuel counter idx : Nat} {w w' : BitWriter}
    (h : writeProbabilities len prob sum fuel counter idx w = some w') :
    ∃ n, w'.index = w.index + n ∧
      ∀ bits, probabilityBits len prob sum fuel counter idx bits = some (bits + n) := by
  induction fuel generalizing counter idx w with
  | zero => cases h
  | succ fuel ih =>
    rw [writeProbabilities] at h
    split at h
    · rename_i hc
      obtain ⟨w₁, hw, h⟩ := Option.bind_eq_some_iff.mp h
      obtain ⟨width, hwidth⟩ : ∃ n, n = (ncountField (sum - counter + 1) (prob idx)).2 := ⟨_, rfl⟩
      have hw : w₁.index = w.index + width := by rw [writeBits_index hw, hwidth]
      split at h
      · rename_i hlow
        obtain ⟨n, hindex, hbits⟩ := ih h
        refine ⟨width + n, by rw [hindex, hw, Nat.add_assoc], fun bits => ?_⟩
        rw [probabilityBits, if_pos hc]
        dsimp only
        rw [ncountField_width, ← hwidth, if_pos hlow, hbits, Nat.add_assoc]
      · rename_i hlow
        split at h
        · rename_i hpos
          obtain ⟨n, hindex, hbits⟩ := ih h
          refine ⟨width + n, by rw [hindex, hw, Nat.add_assoc], fun bits => ?_⟩
          rw [probabilityBits, if_pos hc]
          dsimp only
          rw [ncountField_width, ← hwidth, if_neg hlow, if_pos hpos, hbits, Nat.add_assoc]
        · rename_i hpos
          obtain ⟨⟨idx', w₂⟩, hrun, h⟩ := Option.bind_eq_some_iff.mp h
          obtain ⟨m, hzeros, hrun⟩ := zeroRunBits_eq hrun
          obtain ⟨n, hindex, hbits⟩ := ih h
          refine ⟨width + (m + n), by rw [hindex, hzeros, hw, Nat.add_assoc, Nat.add_assoc],
            fun bits => ?_⟩
          rw [probabilityBits, if_pos hc]
          dsimp only
          rw [ncountField_width, ← hwidth, if_neg hlow, if_neg hpos, hrun]
          exact (hbits _).trans (by rw [Nat.add_assoc, Nat.add_assoc])
    · rename_i hc
      cases h
      refine ⟨0, rfl, fun bits => ?_⟩
      rw [probabilityBits, if_neg hc, Nat.add_zero]

end Bits

theorem zeroRunFields_clean {n : Nat} {f : Nat × Nat} (h : f ∈ zeroRunFields n) :
    f.1 < 2 ^ f.2 := by
  rcases List.mem_append.mp h with h | h
  · rw [List.eq_of_mem_replicate h]
    decide
  · rw [List.mem_singleton.mp h]
    change n % 3 < 4
    omega

theorem ncountFields_clean {sum fuel counter : Nat} {ps : List Int} (hrange : ∀ p ∈ ps, -1 ≤ p)
    (hweight : counter + weightSum ps = sum) :
    ∀ f ∈ ncountFields sum fuel ps counter, f.1 < 2 ^ f.2 := by
  induction fuel generalizing ps counter with
  | zero =>
    intro f hf
    cases hf
  | succ fuel ih =>
    cases ps with
    | nil =>
      intro f hf
      cases hf
    | cons p ps =>
      have hp : -1 ≤ p := hrange p List.mem_cons_self
      have hrange' : ∀ q ∈ ps, -1 ≤ q := fun q hq => hrange q (List.mem_cons_of_mem p hq)
      rw [weightSum_cons] at hweight
      rw [ncountFields]
      split
      · intro f hf
        rcases List.mem_cons.mp hf with rfl | hrest
        · refine (ncountField_lt (by omega) ?_).1
          rw [weight_eq_natAbs hp] at hweight
          omega
        · split at hrest
          · rename_i hzero
            have h0 : weight p = 0 := by rw [hzero]; rfl
            rcases List.mem_append.mp hrest with hrun | hrest
            · exact zeroRunFields_clean hrun
            · have hdrop := (leadingZeros_spec (show 0 < weightSum ps by omega)).2.2.2
              exact ih (fun q hq => hrange' q (List.mem_of_mem_drop hq)) (by omega) f hrest
          · exact ih hrange' (by omega) f hrest
      · intro f hf
        cases hf

/-- What `write_ncount` writes before the padding. -/
def writeNcountBody (len : Nat) (prob : Nat → Int) (accLog : Nat) (w : BitWriter) :
    Option BitWriter := do
  let w ← w.writeBits (accLog - 5) 4
  writeProbabilities len prob (1 <<< accLog) (len + 1) 0 0 w

section RoundTrip

variable (d : Distribution) {len : Nat} {prob : Nat → Int}

/-- The fields of the description before the padding. -/
def bodyFields (len : Nat) : List (Nat × Nat) :=
  (d.accLog - 5, 4) :: ncountFields d.size (len + 1) d.probs 0

theorem bodyFields_clean (len : Nat) : ∀ f ∈ bodyFields d len, f.1 < 2 ^ f.2 := by
  intro f hf
  have hlo := d.log_ge
  have hhi := d.log_le
  rcases List.mem_cons.mp hf with rfl | hf
  · change d.accLog - 5 < 2 ^ 4
    omega
  · exact ncountFields_clean d.range (by rw [Nat.zero_add, d.sum_eq, Distribution.size]) f hf

variable {d}

theorem writeNcountBody_spec (hlen : d.probs.length ≤ len)
    (hprob : ∀ k, prob k = d.probs.getD k 0) (w : BitWriter) :
    w.Writes (bodyFields d len) (writeNcountBody len prob d.accLog w) := by
  have hlo := d.log_ge
  have hhi := d.log_le
  have hsize : 1 <<< d.accLog = d.size := by rw [Nat.one_shiftLeft, Distribution.size]
  refine BitWriter.Writes.bind_cons (.field w (bodyFields_clean d len _ List.mem_cons_self)
    (by omega)) fun w' => ?_
  rw [hsize]
  exact writeProbabilities_spec len d.size prob (len + 1) d.probs 0 0 w'
    (fun k => by rw [Nat.zero_add, hprob]) d.range
    (by rw [Nat.zero_add, d.sum_eq, Distribution.size]) (by omega) (by omega)
    (by have := d.size_le; omega)

theorem writeNcount_eq {w : BitWriter} (hw : w.index % 8 = 0) :
    writeNcount len prob d.accLog w =
      (writeNcountBody len prob d.accLog w).bind fun w' => w'.writeBits 0 w'.misaligned := by
  rw [writeNcount, writeNcountBody, if_neg (not_not.mpr hw)]
  simp only [Option.bind_eq_bind, Option.bind_assoc]

/-- The computed size is that of the body, filled up to a byte. -/
theorem ncountHeaderBits_body {w body : BitWriter}
    (h : writeNcountBody len prob d.accLog w = some body) :
    ∃ n, body.index = w.index + n ∧
      ncountHeaderBits len prob d.accLog = some (if n % 8 ≠ 0 then n + (8 - n % 8) else n) := by
  obtain ⟨w₁, hw, h⟩ := Option.bind_eq_some_iff.mp h
  obtain ⟨n, hindex, hbits⟩ := probabilityBits_eq h
  refine ⟨4 + n, by rw [hindex, writeBits_index hw, Nat.add_assoc], ?_⟩
  rw [ncountHeaderBits, hbits]
  rfl

variable {E : Type} {cap : Nat}

/-- The reader takes the fields of a description back, as long as one more bit follows. -/
theorem readProbabilities_fields {t : FSETableImpl E cap} {source : List UInt8} {maxLog : Nat}
    (hahead : Ahead (le source) 0 (bodyFields d len))
    (hroom : widths (bodyFields d len) < 8 * source.length) (hlast : d.probs.getLast? ≠ some 0)
    (hlen : d.probs.length ≤ len) (ht : d.probs.length ≤ t.maxSymbol + 1)
    (hlog : d.accLog ≤ maxLog) :
    t.readProbabilities source maxLog = (.ok ((widths (bodyFields d len) + 7) / 8),
      { t with accuracyLog := d.accLog, symbolProbabilities := d.probs }) := by
  have hlo := d.log_ge
  have hhi := d.log_le
  have hsize : 1 <<< d.accLog = d.size := by rw [Nat.one_shiftLeft, Distribution.size]
  have hacc : accLogOffset + (d.accLog - 5) = d.accLog := by
    change 5 + (d.accLog - 5) = d.accLog
    omega
  obtain ⟨hfirst, hrest⟩ := hahead
  simp only [bodyFields, widths_cons, Nat.zero_add] at hfirst hrest hroom ⊢
  have hloop := @readProbabilityLoop_fields source (t.maxSymbol + 1) d.size
    (by have := d.size_le; omega) (t.maxSymbol + 2) (len + 1) d.probs 4 0 [] hrest hroom d.range
    (by rw [Nat.zero_add, d.sum_eq, Distribution.size]) hlast
    (by rw [List.length_nil, Nat.zero_add]; exact ht) (by omega) (by omega)
  have hbits := @readBits_eq source 0 4 (by decide) (by omega)
  rw [hfirst] at hbits
  simp only [FSETableImpl.readProbabilities, hbits, hacc]
  rw [if_neg (by change ¬16 < d.accLog; omega), if_neg (by omega), if_neg (by omega), hsize, hloop]
  rfl

/-- A description written on a byte boundary reads back whole from the bytes it came out as and
any bytes after them, and its computed size is the size it takes, padding included. -/
theorem read_write_ncount (hlast : d.probs.getLast? ≠ some 0) (hlen : d.probs.length ≤ len)
    (hprob : ∀ k, prob k = d.probs.getD k 0) {w : BitWriter} (hw : w.index % 8 = 0)
    {t : FSETableImpl E cap} (ht : d.probs.length ≤ t.maxSymbol + 1) {maxLog : Nat}
    (hlog : d.accLog ≤ maxLog) {tail : List UInt8} (htail : tail ≠ []) :
    ∃ before written after header, w.flush = some before ∧
      writeNcount len prob d.accLog w = some written ∧ written.flush = some after ∧
      after.output = before.output ++ header ∧
      t.readProbabilities (header ++ tail) maxLog = (.ok header.length,
        { t with accuracyLog := d.accLog, symbolProbabilities := d.probs }) ∧
      ncountHeaderBits len prob d.accLog = some (written.index - w.index) := by
  obtain ⟨before, hbefore, hstack, -⟩ := BitWriter.flush_aligned hw
  obtain ⟨body, hbody, hfields⟩ := writeNcountBody_spec hlen hprob w
  have hmis := body.misaligned_lt
  obtain ⟨written, hpad, hwritten⟩ := body.writeBits_spec (b := 0) (n := body.misaligned)
    (Nat.two_pow_pos _) (by omega)
  have haligned := BitWriter.fill_aligned hwritten
  obtain ⟨after, hafter, hout, -⟩ := BitWriter.flush_aligned haligned
  -- the bits that came on top of the flushed writer are those of the description and its padding
  have hon : Stack.ofBytes after.output = (Stack.ofBytes before.output).on
      (Stack.empty.pushAll (bodyFields d len ++ [(0, body.misaligned)])) := by
    rw [hout, hwritten, hfields, hstack, Stack.on_pushAll, Stack.on_empty, Stack.pushAll_append]
    rfl
  obtain ⟨header, hheader, hbytes⟩ := Stack.ofBytes_eq_on hon
  have hwidth : 8 * header.length = widths (bodyFields d len) + body.misaligned := by
    have := congrArg Stack.len hbytes
    rw [Stack.ofBytes_len, Stack.pushAll_len, Stack.empty_len, Nat.zero_add] at this
    rw [this]
    exact widths_append _ [(0, body.misaligned)]
  have hahead := (@ahead_of_bytes header tail _ (by
    intro f hf
    rcases List.mem_append.mp hf with hf | hf
    · exact bodyFields_clean d len f hf
    · rw [List.mem_singleton.mp hf]
      exact Nat.two_pow_pos _) hbytes).append.1
  have htail' : 0 < tail.length := List.length_pos_of_ne_nil htail
  refine ⟨before, written, after, header, hbefore, ?_, hafter, hheader, ?_, ?_⟩
  · rw [writeNcount_eq hw, hbody]
    exact hpad
  · rw [readProbabilities_fields hahead (by rw [List.length_append]; omega) hlast hlen ht hlog]
    congr 2
    omega
  · obtain ⟨n, hindex, hbits⟩ := ncountHeaderBits_body hbody
    have hfill : (w.index + n + body.misaligned) % 8 = 0 := by
      rw [← hindex, ← writeBits_index hpad]
      exact haligned
    rw [hbits, writeBits_index hpad, hindex]
    congr 1
    split
    · omega
    · omega

end RoundTrip

/-- One symbol of probability 30 and two of less than one, after a run of four zeros. -/
def sparse : Distribution where
  probs := [0, 0, 0, 0, 30, -1, -1]
  accLog := 5
  length_le := by decide
  range := by decide
  sum_eq := by decide
  log_ge := by decide
  log_le := by decide

theorem read_write_ncount_sparse :
    ∃ before written after header, (BitWriter.ofOutput []).flush = some before ∧
      writeNcount 7 (fun k => sparse.probs.getD k 0) 5 (BitWriter.ofOutput []) = some written ∧
      written.flush = some after ∧ after.output = before.output ++ header ∧
      (FSETableImpl.new 255 : FSETableImpl Entry 64).readProbabilities (header ++ [0]) 9 =
        (.ok header.length, { (FSETableImpl.new 255 : FSETableImpl Entry 64) with
          accuracyLog := 5, symbolProbabilities := sparse.probs }) ∧
      ncountHeaderBits 7 (fun k => sparse.probs.getD k 0) 5 =
        some (written.index - (BitWriter.ofOutput []).index) :=
  read_write_ncount (d := sparse) (by decide) (by decide) (fun _ => rfl) (by decide) (by decide)
    (by decide) (by decide)

/-- A table of one symbol: ten bits are written before the padding, sixteen are computed. -/
theorem ncountHeaderBits_counts_padding :
    ¬∀ (d : Distribution) (w : BitWriter), d.probs.getLast? ≠ some 0 →
      writeNcountBody d.probs.length (fun k => d.probs.getD k 0) d.accLog (BitWriter.ofOutput []) =
        some w →
      ncountHeaderBits d.probs.length (fun k => d.probs.getD k 0) d.accLog = some w.index := by
  intro h
  let d : Distribution :=
    ⟨[32], 5, by decide, by decide, by decide, by decide, by decide⟩
  obtain ⟨w, hw, hstack⟩ := @writeNcountBody_spec d _ (fun k => d.probs.getD k 0)
    (Nat.le_refl _) (fun _ => rfl) (BitWriter.ofOutput [])
  have hten : w.index = 10 := by
    rw [BitWriter.index_eq, hstack]
    decide +kernel
  have hbits := h d w (by decide) hw
  rw [hten] at hbits
  exact absurd hbits (by decide +kernel)

end Fse
