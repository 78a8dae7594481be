import StructuredZstd.Fse.DecoderBuild
import StructuredZstd.Fse.TableRuns

namespace Fse.Decoder

open Bits

section Halving

/-- Halving a number often enough brings it between `n` and twice that. -/
theorem exists_halving {n : Nat} (hn : 1 ≤ n) (v : Nat) (hv : n ≤ v) :
    ∃ k, n ≤ v / 2 ^ k ∧ v / 2 ^ k < 2 * n := by
  induction v using Nat.strongRecOn with
  | ind v ih =>
    by_cases hlt : v < 2 * n
    · exact ⟨0, by simpa using hv, by simpa using hlt⟩
    · obtain ⟨k, hlo, hhi⟩ := ih (v / 2) (by omega) (by omega)
      refine ⟨k + 1, ?_, ?_⟩
      · rwa [Nat.pow_succ, Nat.mul_comm, ← Nat.div_div_eq_div_mul]
      · rwa [Nat.pow_succ, Nat.mul_comm, ← Nat.div_div_eq_div_mul]

theorem halving_le {n v j k : Nat} (hj : v / 2 ^ j < 2 * n) (hk : n ≤ v / 2 ^ k) : k ≤ j := by
  by_contra hlt
  obtain ⟨i, rfl⟩ : ∃ i, k = j + 1 + i := ⟨k - (j + 1), by omega⟩
  have hhalf : v / 2 ^ (j + 1) < n := by
    rw [Nat.pow_succ, ← Nat.div_div_eq_div_mul]
    omega
  have hle : v / 2 ^ (j + 1 + i) ≤ v / 2 ^ (j + 1) :=
    Nat.div_le_div_left (Nat.pow_le_pow_right (by decide) (Nat.le_add_right _ _))
      (Nat.two_pow_pos _)
  omega

/-- The numbers from `n` up to twice that, each widened to `a` bits below its top, cover the
numbers of `a + 1` bits once each. -/
theorem exists_unique_widened {a n v : Nat} (hn : 1 ≤ n) (ha : n ≤ 2 ^ a) (hv : v < 2 ^ a) :
    ∃ x, (n ≤ x ∧ x < 2 * n ∧ (2 ^ a + v) / 2 ^ (a - Nat.log2 x) = x) ∧
      ∀ y, n ≤ y → y < 2 * n → (2 ^ a + v) / 2 ^ (a - Nat.log2 y) = y → y = x := by
  obtain ⟨k, hlo, hhi⟩ := exists_halving hn (2 ^ a + v) (by omega)
  have hk : k ≤ a := by
    by_contra hgt
    have hle : 2 ^ (a + 1) ≤ 2 ^ k := Nat.pow_le_pow_right (by decide) (by omega)
    rw [Nat.pow_succ] at hle
    rw [Nat.div_eq_of_lt (by omega)] at hlo
    omega
  have hsplit : 2 ^ a = 2 ^ (a - k) * 2 ^ k := by rw [← Nat.pow_add, Nat.sub_add_cancel hk]
  have hlog : Nat.log2 ((2 ^ a + v) / 2 ^ k) = a - k := by
    rw [Nat.log2_eq_iff (by omega)]
    constructor
    · rw [Nat.le_div_iff_mul_le (Nat.two_pow_pos k), ← hsplit]
      omega
    · rw [Nat.div_lt_iff_lt_mul (Nat.two_pow_pos k), Nat.pow_succ, Nat.mul_right_comm, ← hsplit]
      omega
  refine ⟨(2 ^ a + v) / 2 ^ k, ⟨hlo, hhi, ?_⟩, ?_⟩
  · rw [hlog]
    congr 2
    omega
  · intro y hy hy2 heq
    rw [← heq] at hy hy2
    have h1 := halving_le hhi hy
    have h2 := halving_le hy2 hlo
    rw [← heq, Nat.le_antisymm h1 h2]

end Halving

section Stuck

/-- Writing every item to the first place leaves the last one there. With two or eight slots the
spread does so: its stride is a whole number of rounds. -/
def lastAtZero (table items : List Nat) : List Nat := items.foldl (fun t s => t.set 0 s) table

theorem lastAtZero_append (table xs ys : List Nat) :
    lastAtZero table (xs ++ ys) = lastAtZero (lastAtZero table xs) ys := List.foldl_append

theorem lastAtZero_concat (table xs : List Nat) (s : Nat) :
    lastAtZero table (xs ++ [s]) = table.set 0 s := by
  induction xs generalizing table with
  | nil => rfl
  | cons x xs ih =>
    have h := ih (table.set 0 x)
    rw [List.set_set] at h
    exact h

theorem nextPosition_stuck {size p : Nat} (h : size = 2 ∨ size = 8) (hp : p < size) :
    nextPosition p size = p := by
  have htwo : ∀ p < 2, nextPosition p 2 = p := by decide
  have height : ∀ p < 8, nextPosition p 8 = p := by decide
  rcases h with rfl | rfl
  · exact htwo p hp
  · exact height p hp

theorem skipLowProb_stop {size limit p : Nat} (hp : p < limit) (fuel : Nat) :
    skipLowProb size limit fuel p = p := by
  cases fuel with
  | zero => rfl
  | succ fuel => rw [skipLowProb, if_neg (Nat.not_le.mpr hp)]

variable {size limit : Nat}

theorem spreadRun_stuck (hstuck : size = 2 ∨ size = 8) (hlim : 0 < limit) {s : Nat} (hs : s < 256)
    (n : Nat) (table : List Nat) :
    spreadRun size limit s n 0 table = (0, lastAtZero table (List.replicate n s)) := by
  have hpos : 0 < size := by
    rcases hstuck with rfl | rfl
    · exact Nat.succ_pos 1
    · exact Nat.succ_pos 7
  induction n generalizing table with
  | zero => rfl
  | succ n ih =>
    rw [spreadRun, nextPosition_stuck hstuck hpos, skipLowProb_stop hlim, ih, Nat.mod_eq_of_lt hs]
    rfl

theorem spreadAround_stuck (hstuck : size = 2 ∨ size = 8) (ps : List Int) (s : Nat)
    (table next : List Nat) (hs : s + ps.length ≤ 256)
    (hlim : itemsFrom ps s ≠ [] → 0 < limit) :
    spreadAround size limit ps s 0 table next =
      (lastAtZero table (itemsFrom ps s), highCounters ps s next) := by
  induction ps generalizing s table next with
  | nil => rfl
  | cons q ps ih =>
    rw [List.length_cons] at hs
    by_cases hq : q ≤ 0
    · simp only [spreadAround, itemsFrom, highCounters_cons, if_pos hq] at hlim ⊢
      exact ih (s + 1) table next (by omega) hlim
    · simp only [spreadAround, itemsFrom, highCounters_cons, if_neg hq] at hlim ⊢
      have hpos : 0 < limit := by
        apply hlim
        have hne : q.toNat ≠ 0 := by omega
        simp [hne]
      rw [spreadRun_stuck hstuck hpos (by omega), lastAtZero_append]
      exact ih (s + 1) _ _ (by omega) (fun _ => hpos)

/-- Dealing out in pairs stays at the first slot as well. -/
theorem distributePairs_stuck (hstuck : size = 2 ∨ size = 8) (inOrder : List Nat) (k s : Nat)
    (table : List Nat) :
    distributePairs size inOrder k s 0 table =
      lastAtZero table ((List.range' s (2 * k)).map (inOrder.getD · 0)) := by
  induction k generalizing s table with
  | zero => rfl
  | succ k ih =>
    have hd : distributePairs size inOrder (k + 1) s 0 table =
        distributePairs size inOrder k (s + 2) 0
          ((table.set 0 (inOrder.getD s 0)).set 0 (inOrder.getD (s + 1) 0)) := by
      rw [distributePairs]
      rcases hstuck with rfl | rfl
      · rfl
      · rfl
    have he : 2 * (k + 1) = 2 * k + 1 + 1 := by omega
    rw [hd, ih, he, List.range'_succ, List.range'_succ]
    rfl

end Stuck

/-- The spread that steps and skips, taken whether or not there are `-1` symbols. -/
def plainSpread (probs : List Int) (tableSize : Nat) : List Nat × List Nat :=
  let (spread, negativeIdx, symbolNext) :=
    placeLowProb probs 0 (List.replicate tableSize 0) tableSize (List.replicate 256 0)
  spreadAround tableSize negativeIdx probs 0 0 spread symbolNext

/-- The states of the symbols of positive probability. -/
def positiveStates (probs : List Int) : Nat := (probs.map Int.toNat).sum

theorem itemsFrom_length (ps : List Int) (s : Nat) :
    (itemsFrom ps s).length = positiveStates ps := by
  induction ps generalizing s with
  | nil => rfl
  | cons p ps ih =>
    have hsum : positiveStates (p :: ps) = p.toNat + positiveStates ps := rfl
    rw [hsum, ← ih (s + 1), itemsFrom]
    split
    · omega
    · simp

theorem itemsFrom_sorted (ps : List Int) (s : Nat) : (itemsFrom ps s).Pairwise (· ≤ ·) := by
  induction ps generalizing s with
  | nil => exact List.Pairwise.nil
  | cons p ps ih =>
    rw [itemsFrom]
    split
    · exact ih (s + 1)
    · rw [List.pairwise_append]
      refine ⟨List.pairwise_replicate_of_refl, ih (s + 1), ?_⟩
      intro x hx y hy
      have hle := (itemsFrom_bounds hy).1
      rw [List.eq_of_mem_replicate hx]
      omega

theorem itemsFrom_count_zero (ps : List Int) : (itemsFrom ps 0).count 0 = (ps.getD 0 0).toNat := by
  cases ps with
  | nil => rfl
  | cons p ps =>
    have hrest : (itemsFrom ps 1).count 0 = 0 := by
      rw [List.count_eq_zero]
      intro hm
      have := (itemsFrom_bounds hm).1
      omega
    rw [itemsFrom, List.getD_cons_zero]
    split
    · rw [hrest]
      omega
    · simp [hrest]

section Spreading

variable {probs : List Int} {accLog : Nat}

/-- The stride reaches every slot unless there are one, two or eight. -/
theorem stride_reaches (h0 : accLog ≠ 0) (h1 : accLog ≠ 1) (h3 : accLog ≠ 3) :
    Nat.Coprime (Distribution.stride (2 ^ accLog)) (2 ^ accLog) := by
  by_cases h2 : accLog = 2
  · subst h2
    decide
  · exact Distribution.stride_coprime (by omega)

theorem items_add_low (hsum : weightSum probs = 2 ^ accLog) :
    (itemsFrom probs 0).length + (lowFrom probs 0).length = 2 ^ accLog := by
  rw [← hsum, ← lowFrom_length_add probs 0, Nat.add_comm]

/-- The walk over the slots of the positive symbols. -/
def spreadWalk (hsum : weightSum probs = 2 ^ accLog) (h0 : accLog ≠ 0) (h1 : accLog ≠ 1)
    (h3 : accLog ≠ 3) : Walk where
  size := 2 ^ accLog
  step := Distribution.stride (2 ^ accLog)
  limit := (itemsFrom probs 0).length
  coprime := stride_reaches h0 h1 h3
  limit_le := by
    rw [← items_add_low hsum]
    exact Nat.le_add_right _ _
  size_pos := Nat.two_pow_pos accLog

theorem spreadWalk_spreads (hsum : weightSum probs = 2 ^ accLog) (h0 : accLog ≠ 0)
    (h1 : accLog ≠ 1) (h3 : accLog ≠ 3) : Spreads (spreadWalk hsum h0 h1 h3) :=
  ⟨rfl, accLog, Nat.pos_of_ne_zero h0, rfl⟩

/-- The table after pass 1. -/
def lowPlaced (probs : List Int) : List Nat :=
  List.replicate (itemsFrom probs 0).length 0 ++ (lowFrom probs 0).reverse

def startCounters (probs : List Int) : List Nat :=
  highCounters probs 0 (lowCounters probs 0 (List.replicate 256 0))

theorem placeLowProb_whole (hlen : probs.length ≤ 256) (hsum : weightSum probs = 2 ^ accLog) :
    placeLowProb probs 0 (List.replicate (2 ^ accLog) 0) (2 ^ accLog) (List.replicate 256 0) =
      (lowPlaced probs, (itemsFrom probs 0).length,
        lowCounters probs 0 (List.replicate 256 0)) := by
  have hadd := items_add_low hsum
  have hp := placeLowProb_eq probs 0 (2 ^ accLog) [] (List.replicate 256 0) (by omega) (by omega)
  have hlim : 2 ^ accLog - (lowFrom probs 0).length = (itemsFrom probs 0).length := by omega
  rw [List.append_nil, List.append_nil, hlim] at hp
  exact hp

theorem plainSpread_walk (hlen : probs.length ≤ 256) (hsum : weightSum probs = 2 ^ accLog)
    (h0 : accLog ≠ 0) (h1 : accLog ≠ 1) (h3 : accLog ≠ 3) (hle : accLog ≤ 9) :
    plainSpread probs (2 ^ accLog) = spreadSymbols probs (2 ^ accLog) := by
  let w := spreadWalk hsum h0 h1 h3
  have hw : Spreads w := spreadWalk_spreads hsum h0 h1 h3
  have hsize : w.size ≤ 512 := Nat.pow_le_pow_right (by decide : 0 < 2) hle
  have hspread := spreadSymbols_walk hw hlen rfl (items_add_low hsum) hsize
  refine Eq.trans ?_ hspread.symm
  simp only [plainSpread, placeLowProb_whole hlen hsum]
  have hitems : (itemsFrom probs 0).length = w.limit := rfl
  have hround := w.layDown_round hitems (lowPlaced probs)
  have haround := spreadAround_eq hw probs 0 0 (lowPlaced probs)
    (lowCounters probs 0 (List.replicate 256 0)) (by omega)
  rw [hround] at haround
  exact haround

theorem plainSpread_stuck (hlen : probs.length ≤ 256) (hsum : weightSum probs = 2 ^ accLog)
    (hstuck : accLog = 1 ∨ accLog = 3) :
    plainSpread probs (2 ^ accLog) =
      (lastAtZero (lowPlaced probs) (itemsFrom probs 0), startCounters probs) := by
  have hsize : 2 ^ accLog = 2 ∨ 2 ^ accLog = 8 := by
    rcases hstuck with rfl | rfl
    · exact .inl rfl
    · exact .inr rfl
  simp only [plainSpread, placeLowProb_whole hlen hsum]
  exact spreadAround_stuck hsize probs 0 _ _ (by omega) List.length_pos_iff.mpr

/-- Reading a list place by place gives its front. -/
theorem map_getD_take {buf items : List Nat} (h : buf.take items.length = items) :
    (List.range' 0 items.length).map (buf.getD · 0) = items := by
  apply List.ext_getElem?
  intro i
  by_cases hi : i < items.length
  · have hbuf : buf[i]? = items[i]? := by rw [← h, List.getElem?_take_of_lt hi]
    simp [hi, hbuf]
  · simp [hi]

theorem spreadSymbols_stuck (hlen : probs.length ≤ 256) (hsum : weightSum probs = 2 ^ accLog)
    (hstuck : accLog = 1 ∨ accLog = 3) :
    spreadSymbols probs (2 ^ accLog) =
      (lastAtZero (lowPlaced probs) (itemsFrom probs 0), startCounters probs) := by
  have hsize : 2 ^ accLog = 2 ∨ 2 ^ accLog = 8 := by
    rcases hstuck with rfl | rfl
    · exact .inl rfl
    · exact .inr rfl
  have hplain := plainSpread_stuck hlen hsum hstuck
  simp only [plainSpread, spreadSymbols, placeLowProb_whole hlen hsum] at hplain ⊢
  split
  · rename_i hall
    have hbuf : 0 + (itemsFrom probs 0).length + 8 ≤
        (List.replicate fseFastSpreadBuf 0).length := by
      rw [List.length_replicate, fseFastSpreadBuf]
      omega
    obtain ⟨hin, hcnt⟩ := layInOrder_eq probs 0 (List.replicate fseFastSpreadBuf 0) 0
      (lowCounters probs 0 (List.replicate 256 0)) (by omega) hbuf
    rw [Nat.zero_add, List.take_zero, List.nil_append] at hin
    rw [hcnt, distributePairs_stuck hsize]
    have heven : 2 * ((2 ^ accLog + 1) / 2) = 2 ^ accLog := by omega
    have hread := map_getD_take hin
    rw [hall] at hread
    rw [heven, hread]
    rfl
  · exact hplain

/-- Every symbol owns as many slots as its probability gives it. -/
def Counted (probs : List Int) (slots : List Nat) : Prop :=
  ∀ s, slots.count s = weight (probs.getD s 0)

theorem counted_walk (hlen : probs.length ≤ 256) (hsum : weightSum probs = 2 ^ accLog)
    (h0 : accLog ≠ 0) (h1 : accLog ≠ 1) (h3 : accLog ≠ 3) (hle : accLog ≤ 9) :
    Counted probs (spreadSymbols probs (2 ^ accLog)).1 := by
  let w := spreadWalk hsum h0 h1 h3
  have hw : Spreads w := spreadWalk_spreads hsum h0 h1 h3
  have hsize : w.size ≤ 512 := Nat.pow_le_pow_right (by decide : 0 < 2) hle
  have hspread := spreadSymbols_walk hw hlen rfl (items_add_low hsum) hsize
  intro s
  have hfirst := congrArg (fun r => r.1.count s) hspread
  exact hfirst.trans (laid_count w rfl (items_add_low hsum) s)

/-- The first slot takes the last symbol; all other slots of the positive symbols are left to
symbol zero. -/
theorem counted_stuck :
    Counted probs (lastAtZero (lowPlaced probs) (itemsFrom probs 0)) ↔
      positiveStates probs ≤ (probs.getD 0 0).toNat + 1 := by
  have hweight : ∀ s, (lowFrom probs 0).count s + (itemsFrom probs 0).count s =
      weight (probs.getD s 0) := by
    intro s
    have h := count_symbols probs 0 s
    rwa [Nat.zero_add] at h
  have hsorted := itemsFrom_sorted probs 0
  rw [← itemsFrom_length probs 0, ← itemsFrom_count_zero, lowPlaced]
  rcases List.eq_nil_or_concat (itemsFrom probs 0) with hnil | ⟨init, last, hitems⟩
  · rw [hnil] at hweight ⊢
    simp only [List.length_nil, Nat.zero_le, iff_true]
    intro s
    simpa [lastAtZero] using hweight s
  · rw [List.concat_eq_append] at hitems
    rw [hitems] at hweight hsorted ⊢
    have hset : (List.replicate (init ++ [last]).length 0 ++ (lowFrom probs 0).reverse).set 0 last =
        last :: (List.replicate init.length 0 ++ (lowFrom probs 0).reverse) := by
      simp [List.replicate_succ]
    rw [lastAtZero_concat, hset]
    -- both sides say that the symbols before the last are all zero
    have hzeros : Counted probs
        (last :: (List.replicate init.length 0 ++ (lowFrom probs 0).reverse)) ↔
          ∀ s, (List.replicate init.length 0).count s = init.count s := by
      apply forall_congr'
      intro s
      rw [← hweight s, List.count_cons, List.count_append, List.count_append, List.count_reverse,
        List.count_singleton]
      omega
    rw [hzeros]
    constructor
    · intro h
      have hc := h 0
      rw [List.count_replicate_self] at hc
      rw [List.count_append, List.length_append, ← hc, List.length_singleton]
      omega
    · intro h s
      have hinit : init = List.replicate init.length 0 := by
        rw [List.eq_replicate_iff]
        refine ⟨rfl, fun x hx => ?_⟩
        by_cases hlast : last = 0
        · have hle := (List.pairwise_append.mp hsorted).2.2 x hx last (List.mem_singleton.mpr rfl)
          omega
        · have hcount : init.count 0 = init.length := by
            have hle := List.count_le_length (a := 0) (l := init)
            have hone : [last].count 0 = 0 := by simp [hlast]
            rw [List.count_append, List.length_append, List.length_singleton, hone] at h
            omega
          exact (List.count_eq_length.mp hcount x hx).symm
      rw [← hinit]

/-- The symbols end up in their own numbers of slots exactly when the stride reaches every slot
or the positive symbols are symbol zero and one slot at most. -/
theorem spreadSymbols_counted_iff (hlen : probs.length ≤ 256) (hsum : weightSum probs = 2 ^ accLog)
    (h0 : accLog ≠ 0) (hle : accLog ≤ 9) :
    Counted probs (spreadSymbols probs (2 ^ accLog)).1 ↔
      (accLog ≠ 1 ∧ accLog ≠ 3) ∨ positiveStates probs ≤ (probs.getD 0 0).toNat + 1 := by
  by_cases hstuck : accLog = 1 ∨ accLog = 3
  · rw [spreadSymbols_stuck hlen hsum hstuck, counted_stuck]
    have hno : ¬(accLog ≠ 1 ∧ accLog ≠ 3) := by tauto
    simp only [hno, false_or]
  · rw [not_or] at hstuck
    have hyes := counted_walk hlen hsum h0 hstuck.1 hstuck.2 hle
    exact ⟨fun _ => .inl hstuck, fun _ => hyes⟩

/-- With no `-1` symbol the fast spread is the plain one. -/
theorem spreadSymbols_eq_plain (hlen : probs.length ≤ 256) (hsum : weightSum probs = 2 ^ accLog)
    (h0 : accLog ≠ 0) (hle : accLog ≤ 9) :
    spreadSymbols probs (2 ^ accLog) = plainSpread probs (2 ^ accLog) := by
  by_cases hstuck : accLog = 1 ∨ accLog = 3
  · rw [spreadSymbols_stuck hlen hsum hstuck, plainSpread_stuck hlen hsum hstuck]
  · rw [not_or] at hstuck
    exact (plainSpread_walk hlen hsum h0 hstuck.1 hstuck.2 hle).symm

theorem spreadSymbols_starts (hlen : probs.length ≤ 256) (hsum : weightSum probs = 2 ^ accLog)
    (h0 : accLog ≠ 0) (hle : accLog ≤ 9) :
    (spreadSymbols probs (2 ^ accLog)).2 = startCounters probs := by
  by_cases hstuck : accLog = 1 ∨ accLog = 3
  · rw [spreadSymbols_stuck hlen hsum hstuck]
  · rw [not_or] at hstuck
    let w := spreadWalk hsum h0 hstuck.1 hstuck.2
    have hsize : w.size ≤ 512 := Nat.pow_le_pow_right (by decide : 0 < 2) hle
    have hspread := spreadSymbols_walk (spreadWalk_spreads hsum h0 hstuck.1 hstuck.2) hlen rfl
      (items_add_low hsum) hsize
    exact congrArg Prod.snd hspread

/-- The skipping loop comes back to a slot of the positive symbols within a round. -/
theorem skipLowProb_settles (hsum : weightSum probs = 2 ^ accLog) (h0 : accLog ≠ 0) {p : Nat}
    (hp : p < (itemsFrom probs 0).length) :
    skipLowProb (2 ^ accLog) (itemsFrom probs 0).length (2 ^ accLog)
      (nextPosition p (2 ^ accLog)) < (itemsFrom probs 0).length := by
  have hadd := items_add_low hsum
  by_cases hstuck : accLog = 1 ∨ accLog = 3
  · have hsize : 2 ^ accLog = 2 ∨ 2 ^ accLog = 8 := by
      rcases hstuck with rfl | rfl
      · exact .inl rfl
      · exact .inr rfl
    rw [nextPosition_stuck hsize (by omega), skipLowProb_stop hp]
    exact hp
  · rw [not_or] at hstuck
    let w := spreadWalk hsum h0 hstuck.1 hstuck.2
    have hw : Spreads w := spreadWalk_spreads hsum h0 hstuck.1 hstuck.2
    have hpw : p ∈ (List.range' 0 w.size).map w.place := by
      apply w.places_perm.mem_iff.mpr
      have : w.size = 2 ^ accLog := rfl
      exact List.mem_range.mpr (by omega)
    obtain ⟨k, hk, rfl⟩ := List.mem_map.mp hpw
    rw [List.mem_range'_1] at hk
    have hskip := skipLowProb_eq hw w.size (nextPosition (w.place k) w.size)
    rw [nextPosition_eq hw, w.place_succ] at hskip
    obtain ⟨n, hn⟩ : ∃ n, w.size = n + 1 := ⟨w.size - 1, by have := w.size_pos; omega⟩
    have hstop : w.skip (n + 1) (w.place (k + 1)) = (w.stops (k + 1) (w.size - (k + 1))).headD 0 :=
      w.skip_eq (by omega) (by omega) (Nat.zero_lt_of_lt hp)
    have hhead : (w.stops (k + 1) (w.size - (k + 1))).headD 0 < w.limit := by
      cases hs : w.stops (k + 1) (w.size - (k + 1)) with
      | nil => exact Nat.zero_lt_of_lt hp
      | cons q rest =>
        have hm : q ∈ w.stops (k + 1) (w.size - (k + 1)) := by simp [hs]
        rw [Walk.stops, List.mem_filter] at hm
        simpa using hm.2
    have hfuel : w.skip w.size (w.place (k + 1)) = w.skip (n + 1) (w.place (k + 1)) :=
      congrArg (fun f => w.skip f (w.place (k + 1))) hn
    have hnext : nextPosition (w.place k) (2 ^ accLog) = w.place (k + 1) := by
      rw [← w.place_succ k]
      exact nextPosition_eq hw (w.place k)
    rw [hnext]
    exact lt_of_eq_of_lt (hskip.trans (hfuel.trans hstop)) hhead

end Spreading

section Fused

/-- Fusing the data of a sequence into the build enriches every entry by its symbol, and fails
where the plain build fails. -/
theorem buildEntries_fused (probs : List Int) (accLog : Nat) (seqMeta : SeqMeta)
    (spread next : List Nat) :
    (buildEntries probs accLog seqMeta spread next : Except FSETableError (List SeqSymbol)) =
      (buildEntries probs accLog .none spread next).map
        (fun entries => List.zipWith (fun e s => enrich e s seqMeta) entries spread) := by
  induction spread generalizing next with
  | nil => rfl
  | cons symbol spread ih =>
    rw [buildEntries, buildEntries]
    split
    · rfl
    · simp only [bind, Except.bind, pure, Except.pure, ih]
      cases buildEntries (E := SeqSymbol) probs accLog .none spread
        (next.set symbol (next.getD symbol 0 + 1)) with
      | error e => rfl
      | ok rest => rfl

/-- Every entry of a plain build still has the data of no sequence. -/
theorem buildEntries_blank {probs : List Int} {accLog : Nat} {spread next : List Nat}
    {entries : List SeqSymbol} (h : buildEntries probs accLog .none spread next = .ok entries) :
    entries.length = spread.length ∧
      ∀ e ∈ entries, e.baseValue = 0 ∧ e.numAdditionalBits = 0 := by
  induction spread generalizing next entries with
  | nil =>
    cases h
    exact ⟨rfl, by simp⟩
  | cons symbol spread ih =>
    rw [buildEntries] at h
    split at h
    · cases h
    · simp only [bind, Except.bind, pure, Except.pure] at h
      split at h
      · cases h
      · rename_i rest hrest
        cases h
        obtain ⟨hlen, hblank⟩ := ih hrest
        refine ⟨by simp [hlen], fun e he => ?_⟩
        rcases List.mem_cons.mp he with rfl | he
        · exact ⟨rfl, rfl⟩
        · exact hblank e he

theorem zipWith_eq_mapIdx {α β : Type} (f : α → Nat → β) {xs : List α} {ys : List Nat}
    (h : xs.length = ys.length) :
    List.zipWith f xs ys = xs.mapIdx fun i x => f x (ys.getD i 0) := by
  apply List.ext_getElem
  · simp [h]
  · intro i h1 h2
    have hy : i < ys.length := by
      rw [List.length_zipWith] at h1
      omega
    simp [List.getElem?_eq_getElem hy]

/-- The fused build is the plain build and then `pass`, if `pass` enriches blank entries as the
build does. -/
theorem build_then_pass {seqMeta : SeqMeta} {pass : SeqFSETable → SeqFSETable}
    {f : SeqSymbol → Nat → SeqSymbol}
    (hpass : ∀ t, pass t =
      { t with decode := t.decode.mapIdx fun i e => f e (t.symbolSpreadBuffer.getD i 0) })
    (hf : ∀ e s, e.baseValue = 0 → e.numAdditionalBits = 0 → f e s = enrich e s seqMeta)
    (t : SeqFSETable) :
    t.buildDecodingTableMeta seqMeta =
      ((t.buildDecodingTableMeta .none).1, pass (t.buildDecodingTableMeta .none).2) := by
  have hreset : pass t.reset = t.reset := by rw [hpass]; rfl
  unfold FSETableImpl.buildDecodingTableMeta
  dsimp only
  split
  · rw [hreset]
  · split
    · rw [hreset]
    · rw [buildEntries_fused]
      cases hplain : buildEntries (E := SeqSymbol) t.symbolProbabilities t.accuracyLog .none
          (spreadSymbols t.symbolProbabilities (1 <<< t.accuracyLog)).1
          (spreadSymbols t.symbolProbabilities (1 <<< t.accuracyLog)).2 with
      | error e => simp only [Except.map, hreset]
      | ok entries =>
        obtain ⟨hlen, hblank⟩ := buildEntries_blank hplain
        have hmap : ∀ spread : List Nat,
            entries.mapIdx (fun i e => enrich e (spread.getD i 0) seqMeta) =
              entries.mapIdx (fun i e => f e (spread.getD i 0)) := by
          intro spread
          apply List.mapIdx_eq_mapIdx_iff.mpr
          intro i hi
          obtain ⟨hb, ha⟩ := hblank _ (List.getElem_mem hi)
          exact (hf _ _ hb ha).symm
        simp only [Except.map, hpass, zipWith_eq_mapIdx _ hlen, hmap]

theorem enrichWithPacked_fused (t : SeqFSETable) (packed : List Nat) :
    t.buildDecodingTableMeta (.packed packed) =
      ((t.buildDecodingTableMeta .none).1,
        (t.buildDecodingTableMeta .none).2.enrichWithPackedSeqMeta packed) := by
  refine build_then_pass (f := fun e s =>
    if s < packed.length then
      { e with baseValue := packed.getD s 0 &&& 0x00FFFFFF,
               numAdditionalBits := (packed.getD s 0 >>> 24) % 256 }
    else { e with baseValue := 0, numAdditionalBits := 0 }) (fun _ => rfl) ?_ t
  intro e s _ _
  by_cases hs : s < packed.length
  · simp only [hs, if_true]
    rfl
  · have hzero : packed.getD s 0 = 0 := by
      rw [List.getD_eq_getElem?_getD, List.getElem?_eq_none (by omega), Option.getD_none]
    simp only [hs, if_false, enrich, hzero]
    rfl

theorem enrichForOffsets_fused (t : SeqFSETable) :
    t.buildDecodingTableMeta .offsets =
      ((t.buildDecodingTableMeta .none).1,
        (t.buildDecodingTableMeta .none).2.enrichForOffsets) := by
  refine build_then_pass (f := fun e s =>
    if s < 32 then { e with baseValue := 1 <<< s, numAdditionalBits := s }
    else { e with baseValue := 0, numAdditionalBits := 0 }) (fun _ => rfl) ?_ t
  intro e s hb ha
  by_cases hs : s < 32
  · simp only [hs, if_true, enrich]
    rfl
  · cases e
    simp only at hb ha
    simp only [hs, if_false, enrich, hb, ha]

end Fused

section Admitted

variable {E : Type} [FseEntry E] {cap accLog : Nat} {probs : List Int}

/-- What `buildFromProbabilities` checks before it builds. -/
structure Admitted (t : FSETableImpl E cap) (accLog : Nat) (probs : List Int) : Prop where
  log_ne : accLog ≠ 0
  log_le : accLog ≤ entryMaxAccuracyLog
  length_le : probs.length ≤ t.maxSymbol + 1
  range : ∀ p ∈ probs, -1 ≤ p ∧ p ≤ (2 ^ accLog : Nat)
  sum_eq : weightSum probs = 2 ^ accLog
  fits : 2 ^ accLog ≤ cap

/-- The table as the build finds it. -/
def stored (t : FSETableImpl E cap) (accLog : Nat) (probs : List Int) : FSETableImpl E cap :=
  { t with symbolProbabilities := probs, accuracyLog := accLog }

theorem Admitted.build_eq {t : FSETableImpl E cap} (h : Admitted t accLog probs) :
    t.buildFromProbabilities accLog probs =
      (stored t accLog probs).buildDecodingTableMeta .none := by
  have hfind : probs.find? (fun p => p < -1 ∨ ((1 <<< accLog : Nat) : Int) < p) = none := by
    rw [List.find?_eq_none]
    intro p hp
    have hr := h.range p hp
    rw [Nat.one_shiftLeft]
    simp only [decide_eq_true_eq, not_or]
    omega
  have hsum : (probs.map (fun p => if p = -1 then 1 else p.toNat)).sum = 1 <<< accLog := by
    rw [Nat.one_shiftLeft]
    exact h.sum_eq
  unfold FSETableImpl.buildFromProbabilities
  rw [if_neg h.log_ne, if_neg (Nat.not_lt.mpr h.log_le), if_neg (Nat.not_lt.mpr h.length_le)]
  simp only [hfind, hsum, ne_eq, not_true_eq_false, if_false]
  rfl

/-- Whatever is not admitted is refused with an error. -/
theorem admitted_or_refused (t : FSETableImpl E cap) (accLog : Nat) (probs : List Int) :
    Admitted t accLog probs ∨ ∃ e, (t.buildFromProbabilities accLog probs).1 = .error e := by
  by_cases hfits : 2 ^ accLog ≤ cap
  · unfold FSETableImpl.buildFromProbabilities
    split
    · exact .inr ⟨_, rfl⟩
    · rename_i h0
      split
      · exact .inr ⟨_, rfl⟩
      · rename_i hle
        split
        · exact .inr ⟨_, rfl⟩
        · rename_i hlen
          dsimp only
          split
          · exact .inr ⟨_, rfl⟩
          · rename_i hfind
            split
            · exact .inr ⟨_, rfl⟩
            · rename_i hsum
              refine .inl ⟨h0, Nat.le_of_not_lt hle, Nat.le_of_not_lt hlen, fun p hp => ?_, ?_,
                hfits⟩
              · have hr := List.find?_eq_none.mp hfind p hp
                rw [Nat.one_shiftLeft] at hr
                simp only [decide_eq_true_eq, not_or] at hr
                omega
              · rw [not_not, Nat.one_shiftLeft] at hsum
                exact hsum
  · right
    have hbuild : ∀ p, ∃ e, ((stored t accLog p).buildDecodingTableMeta .none).1 = .error e := by
      intro p
      unfold FSETableImpl.buildDecodingTableMeta stored
      dsimp only
      split
      · exact ⟨_, rfl⟩
      · rw [Nat.one_shiftLeft, if_pos (Nat.lt_of_not_le hfits)]
        exact ⟨_, rfl⟩
    unfold FSETableImpl.buildFromProbabilities
    split
    · exact ⟨_, rfl⟩
    · split
      · exact ⟨_, rfl⟩
      · split
        · exact ⟨_, rfl⟩
        · dsimp only
          split
          · exact ⟨_, rfl⟩
          · split
            · exact ⟨_, rfl⟩
            · exact hbuild probs

/-- A build keeps the spread it made its entries from. -/
theorem built_spread {t : FSETableImpl E cap} {seqMeta : SeqMeta}
    (h : (t.buildDecodingTableMeta seqMeta).1 = .ok ()) :
    (t.buildDecodingTableMeta seqMeta).2.symbolSpreadBuffer =
      (spreadSymbols t.symbolProbabilities (1 <<< t.accuracyLog)).1 := by
  unfold FSETableImpl.buildDecodingTableMeta at h ⊢
  dsimp only at h ⊢
  split at h
  · cases h
  · rename_i hlen
    rw [if_neg hlen]
    split at h
    · cases h
    · rename_i hcap
      rw [if_neg hcap]
      split at h
      · cases h
      · rfl

/-- The table an admitted build leaves when the symbols are spread as their probabilities say. -/
theorem Admitted.built {t : FSETableImpl E cap} (h : Admitted t accLog probs)
    (hmax : t.maxSymbol ≤ 255) (hcap : cap ≤ 512)
    (hcount : Counted probs (spreadSymbols probs (2 ^ accLog)).1) :
    ∃ entries : List E,
      t.buildFromProbabilities accLog probs = (.ok (), { stored t accLog probs with
        decode := entries, symbolSpreadBuffer := (spreadSymbols probs (2 ^ accLog)).1 }) ∧
      entries.length = 2 ^ accLog ∧
      ∀ u s, (spreadSymbols probs (2 ^ accLog)).1[u]? = some s → entries[u]? = some
        (rawEntry accLog s
          (weight (probs.getD s 0) + rank (spreadSymbols probs (2 ^ accLog)).1 u s)) := by
  have hlen : probs.length ≤ 256 := by have := h.length_le; omega
  have hle : accLog ≤ 9 := by
    have hpow : 2 ^ accLog ≤ 2 ^ 9 := h.fits.trans hcap
    exact (Nat.pow_le_pow_iff_right (by decide)).mp hpow
  have hspread : spreadSymbols probs (2 ^ accLog) =
      ((spreadSymbols probs (2 ^ accLog)).1, startCounters probs) :=
    Prod.ext rfl (spreadSymbols_starts hlen h.sum_eq h.log_ne hle)
  have hlength := spreadSymbols_length probs (2 ^ accLog)
  generalize (spreadSymbols probs (2 ^ accLog)).1 = slots at hspread hcount hlength ⊢
  have hstart : ∀ u s : Nat, slots[u]? = some s → rank slots u s < weight (probs.getD s 0) ∧
      (startCounters probs).getD s 0 = weight (probs.getD s 0) := by
    intro u s hu
    have hr := rank_lt_count hu
    rw [hcount s] at hr
    exact ⟨hr, counters_getD hlen (Nat.zero_lt_of_lt hr) List.length_replicate⟩
  have hsymbol : ∀ u s : Nat, slots[u]? = some s → s < (startCounters probs).length := by
    intro u s hu
    have hr := (hstart u s hu).1
    have hin : s < probs.length := by
      by_contra hout
      rw [List.getD_eq_getElem?_getD, List.getElem?_eq_none (Nat.le_of_not_lt hout)] at hr
      exact Nat.not_lt_zero _ hr
    simp only [startCounters, highCounters, lowCounters, countersFrom_length,
      List.length_replicate]
    omega
  obtain ⟨entries, hok, hfull, hent⟩ := buildEntries_spec (E := E) probs .none
    (show accLog ≤ 16 by omega) slots (startCounters probs) (by
      intro u s hu
      obtain ⟨hr, hs⟩ := hstart u s hu
      have hw : weight (probs.getD s 0) ≤ 2 ^ accLog := by
        rw [← hcount s, ← hlength]
        exact List.count_le_length
      rw [hs, Nat.pow_succ]
      exact ⟨hsymbol u s hu, by omega, by omega⟩)
  refine ⟨entries, ?_, hfull.trans hlength, ?_⟩
  · rw [h.build_eq]
    unfold FSETableImpl.buildDecodingTableMeta stored
    have hl := h.length_le
    have hf := h.fits
    simp only [Nat.one_shiftLeft, hspread, hok]
    rw [if_neg (by omega), if_neg (by omega)]
  · intro u s hu
    rw [hent u s hu, (hstart u s hu).2]
    rfl

/-- An entry leads to the state `v`, given the right bits. -/
def Covers (e : E) (v : Nat) : Prop :=
  FseEntry.newState e ≤ v ∧ v < FseEntry.newState e + 2 ^ FseEntry.numBits e

section Lawful

variable [LawfulEntry E]

theorem rawEntry_newState {s n : Nat} (hle : accLog ≤ 16) (h1 : 1 ≤ n) (h2 : n < 2 ^ (accLog + 1)) :
    FseEntry.newState (rawEntry accLog s n : E) =
        n * 2 ^ (accLog - Nat.log2 n) - 2 ^ accLog ∧
      2 ^ accLog ≤ n * 2 ^ (accLog - Nat.log2 n) ∧
      n * 2 ^ (accLog - Nat.log2 n) + 2 ^ (accLog - Nat.log2 n) ≤ 2 * 2 ^ accLog := by
  have hlog : Nat.log2 n < accLog + 1 := (Nat.log2_lt (by omega)).mpr h2
  have hsmall : n < 2 ^ 32 := h2.trans_le (Nat.pow_le_pow_right (by decide) (by omega))
  obtain ⟨hlo, hhi⟩ := gate_passed hle hsmall (width_eq hle h1 h2).symm (Nat.sub_le _ _)
  rw [Nat.shiftLeft_eq] at hlo hhi
  have hsize : 2 ^ accLog ≤ 2 ^ 16 := Nat.pow_le_pow_right (by decide) hle
  have hpos := Nat.two_pow_pos (accLog - Nat.log2 n)
  refine ⟨?_, hlo, hhi⟩
  rw [rawEntry, LawfulEntry.newState_fromRaw, Nat.shiftLeft_eq, Nat.one_shiftLeft,
    Nat.mod_eq_of_lt (by omega)]

/-- The entry of the count `n` leads to the states whose number, the table's size added, starts
with `n`. -/
theorem rawEntry_covers {s n v : Nat} (hle : accLog ≤ 16) (h1 : 1 ≤ n)
    (h2 : n < 2 ^ (accLog + 1)) :
    Covers (rawEntry accLog s n : E) v ↔ (2 ^ accLog + v) / 2 ^ (accLog - Nat.log2 n) = n := by
  obtain ⟨hnew, hlo, -⟩ := rawEntry_newState (E := E) (s := s) hle h1 h2
  have hbits : FseEntry.numBits (rawEntry accLog s n : E) = accLog - Nat.log2 n := by
    rw [rawEntry, LawfulEntry.numBits_fromRaw]
  rw [Covers, hnew, hbits, Nat.div_eq_iff (Nat.two_pow_pos _)]
  have hpos := Nat.two_pow_pos (accLog - Nat.log2 n)
  constructor
  · rintro ⟨hge, hlt⟩
    omega
  · rintro ⟨hge, hlt⟩
    omega

/-- The first slot of the `-1` symbols. -/
def negativeIdx (probs : List Int) (tableSize : Nat) : Nat :=
  (placeLowProb probs 0 (List.replicate tableSize 0) tableSize (List.replicate 256 0)).2.1

/-- What is asked of a build from an admitted list: it succeeds, every loop of it ends, every slot
is filled and every symbol owns its number of slots, whose next states divide the table among
them; the fast spread is the plain one, and fusing the data of a sequence in is enriching the
finished table. -/
structure ExactBuild (t : FSETableImpl E cap) (accLog : Nat) (probs : List Int) : Prop where
  ok : (t.buildFromProbabilities accLog probs).1 = .ok ()
  settles : ∀ p < negativeIdx probs (2 ^ accLog),
    skipLowProb (2 ^ accLog) (negativeIdx probs (2 ^ accLog)) (2 ^ accLog)
      (nextPosition p (2 ^ accLog)) < negativeIdx probs (2 ^ accLog)
  counted : Counted probs (t.buildFromProbabilities accLog probs).2.symbolSpreadBuffer
  spread_full : (t.buildFromProbabilities accLog probs).2.symbolSpreadBuffer.length = 2 ^ accLog
  decode_full : (t.buildFromProbabilities accLog probs).2.decode.length = 2 ^ accLog
  entry : ∀ u s : Nat, (t.buildFromProbabilities accLog probs).2.symbolSpreadBuffer[u]? = some s →
    ∃ n b, (t.buildFromProbabilities accLog probs).2.decode[u]? = some (FseEntry.fromRaw n s b)
  inside : ∀ e ∈ (t.buildFromProbabilities accLog probs).2.decode, Inside (2 ^ accLog) e
  partition : ∀ s, 0 < weight (probs.getD s 0) → ∀ v < 2 ^ accLog,
    ∃! u : Nat, (t.buildFromProbabilities accLog probs).2.symbolSpreadBuffer[u]? = some s ∧
      ∃ e : E, (t.buildFromProbabilities accLog probs).2.decode[u]? = some e ∧ Covers e v
  fast_eq_plain : spreadSymbols probs (2 ^ accLog) = plainSpread probs (2 ^ accLog)
  fused : ∀ (u : SeqFSETable) (packed : List Nat), u.symbolProbabilities = probs →
    u.accuracyLog = accLog →
    u.buildDecodingTableMeta (.packed packed) = ((u.buildDecodingTableMeta .none).1,
        (u.buildDecodingTableMeta .none).2.enrichWithPackedSeqMeta packed) ∧
      u.buildDecodingTableMeta .offsets = ((u.buildDecodingTableMeta .none).1,
        (u.buildDecodingTableMeta .none).2.enrichForOffsets)

theorem Admitted.exactBuild {t : FSETableImpl E cap} (h : Admitted t accLog probs)
    (hmax : t.maxSymbol ≤ 255) (hcap : cap ≤ 512)
    (hcount : Counted probs (spreadSymbols probs (2 ^ accLog)).1) :
    ExactBuild t accLog probs := by
  have hlen : probs.length ≤ 256 := by have := h.length_le; omega
  have hle : accLog ≤ 9 := by
    have hpow : 2 ^ accLog ≤ 2 ^ 9 := h.fits.trans hcap
    exact (Nat.pow_le_pow_iff_right (by decide)).mp hpow
  obtain ⟨entries, hbuild, hfull, hent⟩ := h.built hmax hcap hcount
  have hspread := spreadSymbols_length probs (2 ^ accLog)
  have hplain := spreadSymbols_eq_plain hlen h.sum_eq h.log_ne hle
  -- from here on only the slots and their entries matter
  generalize hslots : (spreadSymbols probs (2 ^ accLog)).1 = slots at hbuild hcount hent hspread
  have hrange : ∀ u s : Nat, slots[u]? = some s → rank slots u s < weight (probs.getD s 0) ∧
      weight (probs.getD s 0) ≤ 2 ^ accLog := by
    intro u s hu
    rw [← hcount s]
    refine ⟨rank_lt_count hu, ?_⟩
    rw [← hspread]
    exact List.count_le_length
  have hcount_lt : ∀ u s : Nat, slots[u]? = some s →
      1 ≤ weight (probs.getD s 0) + rank slots u s ∧
        weight (probs.getD s 0) + rank slots u s < 2 ^ (accLog + 1) := by
    intro u s hu
    obtain ⟨hr, hw⟩ := hrange u s hu
    rw [Nat.pow_succ]
    omega
  constructor
  case ok => rw [hbuild]
  case settles =>
    rw [negativeIdx, placeLowProb_whole hlen h.sum_eq]
    exact fun p hp => skipLowProb_settles h.sum_eq h.log_ne hp
  case counted => rwa [hbuild]
  case spread_full => rwa [hbuild]
  case decode_full => rwa [hbuild]
  case entry =>
    intro u s hu
    rw [hbuild] at hu ⊢
    exact ⟨_, _, hent u s hu⟩
  case inside =>
    intro e he
    rw [hbuild] at he
    obtain ⟨u, hu⟩ := List.getElem?_of_mem he
    have hin : u < slots.length := by
      rw [hspread, ← hfull]
      exact (List.getElem?_eq_some_iff.mp hu).1
    have hs : slots[u]? = some slots[u] := List.getElem?_eq_getElem hin
    obtain ⟨h1, h2⟩ := hcount_lt u _ hs
    obtain ⟨hnew, hlo, hhi⟩ := rawEntry_newState (E := E) (s := slots[u])
      (show accLog ≤ 16 by omega) h1 h2
    have he' := Option.some.inj (hu.symm.trans (hent u _ hs))
    unfold Inside
    rw [he', hnew, rawEntry, LawfulEntry.numBits_fromRaw]
    omega
  case partition =>
    intro s hs v hv
    rw [hbuild]
    have hw : weight (probs.getD s 0) ≤ 2 ^ accLog := by
      rw [← hcount s, ← hspread]
      exact List.count_le_length
    obtain ⟨x, ⟨hlo, hhi, hx⟩, hunique⟩ := exists_unique_widened hs hw hv
    obtain ⟨u, hu, hrank⟩ := exists_rank slots s
      (show x - weight (probs.getD s 0) < slots.count s by rw [hcount s]; omega)
    refine ⟨u, ⟨hu, _, hent u s hu, ?_⟩, ?_⟩
    · obtain ⟨h1, h2⟩ := hcount_lt u s hu
      rw [rawEntry_covers (by omega) h1 h2, hrank, Nat.add_sub_cancel' hlo]
      exact hx
    · rintro u' ⟨hu', e, he, hcovers⟩
      obtain ⟨h1, h2⟩ := hcount_lt u' s hu'
      have hr' := (hrange u' s hu').1
      rw [hent u' s hu'] at he
      cases he
      rw [rawEntry_covers (by omega) h1 h2] at hcovers
      have heq := hunique _ (Nat.le_add_right _ _) (by omega) hcovers
      have hsame : rank slots u' s = rank slots u s := by omega
      exact rank_injective hu' hu hsame
  case fast_eq_plain => exact hplain
  case fused => exact fun u packed _ _ => ⟨enrichWithPacked_fused u packed, enrichForOffsets_fused u⟩

/-- An admitted list builds exactly as intended when the stride reaches every slot, which it does
with all accuracy logs but 1 and 3, or when all states but one of the positive symbols are symbol
zero's. -/
theorem build_exact_iff (t : FSETableImpl E cap) (hmax : t.maxSymbol ≤ 255) (hcap : cap ≤ 512)
    (accLog : Nat) (probs : List Int) (h : Admitted t accLog probs) :
    ExactBuild t accLog probs ↔
      (accLog ≠ 1 ∧ accLog ≠ 3) ∨ positiveStates probs ≤ (probs.getD 0 0).toNat + 1 := by
  have hlen : probs.length ≤ 256 := by have := h.length_le; omega
  have hle : accLog ≤ 9 := by
    have hpow : 2 ^ accLog ≤ 2 ^ 9 := h.fits.trans hcap
    exact (Nat.pow_le_pow_iff_right (by decide)).mp hpow
  rw [← spreadSymbols_counted_iff hlen h.sum_eq h.log_ne hle]
  constructor
  · intro hexact
    have hok := hexact.ok
    have hcounted := hexact.counted
    rw [h.build_eq] at hok hcounted
    rw [built_spread hok, stored, Nat.one_shiftLeft] at hcounted
    exact hcounted
  · exact h.exactBuild hmax hcap

end Lawful

theorem build_exact_iff_one_stray :
    ExactBuild (FSETableImpl.new 255 : FSETableImpl Entry 64) 3 [7, 1] := by
  refine (build_exact_iff (FSETableImpl.new 255 : FSETableImpl Entry 64) (by decide) (by decide)
    3 [7, 1] ⟨?_, ?_, ?_, ?_, ?_, ?_⟩).mpr (.inr ?_)
  all_goals decide

/-- With eight slots four states each come out as seven and one, without an error; with two slots
a list of one symbol leaves a slot to an absent one, whose count the source asserts positive. -/
theorem short_tables_lose_slots :
    (Admitted (FSETableImpl.new 255 : FSETableImpl Entry 64) 3 [4, 4] ∧
      ((FSETableImpl.new 255 : FSETableImpl Entry 64).buildFromProbabilities 3 [4, 4]).1 = .ok () ∧
      ((FSETableImpl.new 255 : FSETableImpl Entry 64).buildFromProbabilities 3
        [4, 4]).2.symbolSpreadBuffer = [1, 0, 0, 0, 0, 0, 0, 0] ∧
      ¬ExactBuild (FSETableImpl.new 255 : FSETableImpl Entry 64) 3 [4, 4]) ∧
    Admitted (FSETableImpl.new 255 : FSETableImpl Entry 64) 1 [0, 2] ∧
      spreadSymbols [0, 2] 2 = ([1, 0], 0 :: 2 :: List.replicate 254 0) ∧
      ¬ExactBuild (FSETableImpl.new 255 : FSETableImpl Entry 64) 1 [0, 2] := by
  have hspread : ((FSETableImpl.new 255 : FSETableImpl Entry 64).buildFromProbabilities 3
      [4, 4]).2.symbolSpreadBuffer = [1, 0, 0, 0, 0, 0, 0, 0] := by rfl
  refine ⟨⟨⟨by decide, by decide, by decide, by decide, by decide, by decide⟩, by rfl, hspread,
    fun h => ?_⟩, ⟨by decide, by decide, by decide, by decide, by decide, by decide⟩, by rfl,
    fun h => ?_⟩
  · have hcount := h.counted 0
    rw [hspread] at hcount
    revert hcount
    decide
  · have hok := h.ok
    revert hok
    decide

end Admitted

end Fse.Decoder
