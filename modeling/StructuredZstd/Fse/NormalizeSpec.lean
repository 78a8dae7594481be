import StructuredZstd.Fse.Normalize
import Mathlib.Algebra.Order.BigOperators.Group.List

namespace Fse.Encoder

/-- A count and its share: present together, and the share at least `-1`. -/
def Served (count : Nat) (p : Int) : Prop := -1 ≤ p ∧ (p = 0 ↔ count = 0)

/-- The shares bring the table to its size and serve exactly the symbols that occur. -/
structure Normalized (tableLog : Nat) (counts : List Nat) (probs : List Int) : Prop where
  served : List.Forall₂ Served counts probs
  sum_eq : weightSum probs = 2 ^ tableLog

/-- The same, a negative share only where a low-probability symbol gets one. -/
def ServedBy (low : Int) (count : Nat) (p : Int) : Prop :=
  -1 ≤ p ∧ (p < 0 → low < 0) ∧ (p = 0 ↔ count = 0)

structure NormalizedBy (low : Int) (tableLog : Nat) (counts : List Nat) (probs : List Int) :
    Prop where
  served : List.Forall₂ (ServedBy low) counts probs
  sum_eq : weightSum probs = 2 ^ tableLog

theorem NormalizedBy.normalized {low : Int} {tableLog : Nat} {counts : List Nat} {probs : List Int}
    (h : NormalizedBy low tableLog counts probs) : Normalized tableLog counts probs :=
  ⟨h.served.imp fun _ _ hp => ⟨hp.1, hp.2.2⟩, h.sum_eq⟩

/-- A table with room for a histogram: twice its symbols, or more than its samples. -/
structure Roomy (tableLog : Nat) (counts : List Nat) (total : Nat) : Prop where
  sum_eq : counts.sum = total
  pos : 0 < total
  le : total ≤ 2 ^ (61 - tableLog)
  log_le : tableLog ≤ 12
  room : 2 * counts.length ≤ 2 ^ tableLog ∨ total < 2 ^ tableLog

section Lists

variable {counts : List Nat}

theorem sum_le_of_le {b : Nat} (h : ∀ c ∈ counts, c ≤ b) : counts.sum ≤ counts.length * b := by
  induction counts with
  | nil => simp
  | cons c counts ih =>
    have h1 := h c List.mem_cons_self
    have h2 := ih fun x hx => h x (List.mem_cons_of_mem c hx)
    simp only [List.sum_cons, List.length_cons, Nat.add_one_mul]
    omega

/-- The shares change in one place. -/
theorem weightSum_set {ps : List Int} {i : Nat} (h : i < ps.length) (q : Int) :
    weightSum (ps.set i q) + weight (ps.getD i 0) = weightSum ps + weight q := by
  induction ps generalizing i with
  | nil => simp at h
  | cons p ps ih =>
    cases i with
    | zero => simp; omega
    | succ i =>
      have := ih (i := i) (by simpa using h)
      simp only [List.set_cons_succ, weightSum_cons, List.getD_cons_succ]
      omega

theorem forall₂_set {R : Nat → Int → Prop} {ps : List Int} (h : List.Forall₂ R counts ps) (i : Nat)
    {q : Int} (hq : ∀ c, counts[i]? = some c → R c q) : List.Forall₂ R counts (ps.set i q) := by
  induction h generalizing i with
  | nil => simp
  | cons hr hrs ih =>
    cases i with
    | zero => exact .cons (hq _ rfl) hrs
    | succ i => exact .cons hr (ih i fun c hc => hq c (by simpa using hc))

theorem forall₂_getD {R : Nat → Int → Prop} {ps : List Int} (h : List.Forall₂ R counts ps)
    {i c : Nat} (hc : counts[i]? = some c) : R c (ps.getD i 0) := by
  induction h generalizing i with
  | nil => simp at hc
  | cons hr hrs ih =>
    cases i with
    | zero =>
      simp only [List.getElem?_cons_zero, Option.some.injEq] at hc
      exact hc ▸ hr
    | succ i => exact ih (by simpa using hc)

end Lists

section Roomy

variable {tableLog total : Nat} {counts : List Nat}

/-- The histograms of a block are far below the fixed point. -/
theorem le_fixedPoint (htotal : total ≤ 2 ^ 31) (hlog : tableLog ≤ 12) :
    total ≤ 2 ^ (61 - tableLog) :=
  htotal.trans (Nat.pow_le_pow_right (by decide) (by omega))

theorem Roomy.length_pos (h : Roomy tableLog counts total) : 0 < counts.length := by
  apply List.length_pos_of_ne_nil
  rintro rfl
  have := h.sum_eq
  have := h.pos
  simp_all

/-- Not every symbol is rare. -/
theorem Roomy.exists_above (h : Roomy tableLog counts total) :
    ∃ c ∈ counts, total >>> tableLog < c := by
  by_contra hno
  push Not at hno
  have hsum := sum_le_of_le hno
  have hpos := h.pos
  rw [h.sum_eq, Nat.shiftRight_eq_div_pow] at hsum
  rcases h.room with hroom | hroom
  · have h1 : 2 * (counts.length * (total / 2 ^ tableLog)) ≤ 2 ^ tableLog * (total / 2 ^ tableLog) := by
      rw [← Nat.mul_assoc]
      exact Nat.mul_le_mul_right _ hroom
    have h2 := Nat.mul_div_le total (2 ^ tableLog)
    omega
  · rw [Nat.div_eq_of_lt hroom] at hsum
    omega

/-- The fixed-point step is not zero. -/
theorem Roomy.step_pos (h : Roomy tableLog counts total) : 0 < 1 <<< 62 / total := by
  apply Nat.div_pos _ h.pos
  rw [Nat.one_shiftLeft]
  exact h.le.trans (Nat.pow_le_pow_right (by decide) (by omega))

/-- A symbol that occurs is worth a slot: a share below one is rounded up. -/
theorem Roomy.roundedShare_pos (h : Roomy tableLog counts total) {c : Nat} (hc : 0 < c) :
    0 < roundedShare tableLog total c := by
  have hproduct : 0 < c * (1 <<< 62 / total) := Nat.mul_pos hc h.step_pos
  unfold roundedShare
  simp only
  rcases Nat.eq_zero_or_pos ((c * (1 <<< 62 / total)) >>> (62 - tableLog)) with h0 | hpos
  · rw [h0, if_pos (by decide), show rtbTable.getD 0 0 = 0 from rfl, Nat.mul_zero,
      Nat.zero_shiftLeft, Nat.sub_zero, if_pos hproduct]
    decide
  · split_ifs <;> omega

/-- The first pass: every present symbol is served, and the running difference is what the shares
leave of the table. -/
theorem scanCounts_spec {low : Int} (hlow : low = -1 ∨ low = 1) {cs : List Nat}
    (hpos : ∀ c ∈ cs, total >>> tableLog < c → 0 < roundedShare tableLog total c) (symbol : Nat)
    (scan : Scan) :
    List.Forall₂ (ServedBy low) cs (scanCounts tableLog total low cs symbol scan).1 ∧
      (scanCounts tableLog total low cs symbol scan).2.stillToDistribute =
        scan.stillToDistribute - weightSum (scanCounts tableLog total low cs symbol scan).1 := by
  induction cs generalizing symbol scan with
  | nil => simp [scanCounts]
  | cons c cs ih =>
    have ih' := ih fun x hx => hpos x (List.mem_cons_of_mem c hx)
    have hc := hpos c List.mem_cons_self
    rw [scanCounts]
    split
    · rename_i h0
      obtain ⟨hs, hd⟩ := ih' (symbol + 1) scan
      refine ⟨.cons ⟨by decide, by simp, by simp [h0]⟩ hs, ?_⟩
      simp only [hd, weightSum_cons, show weight 0 = 0 from rfl]
      omega
    · rename_i h0
      split
      · obtain ⟨hs, hd⟩ := ih' (symbol + 1)
          { scan with stillToDistribute := scan.stillToDistribute - 1 }
        refine ⟨.cons ⟨by omega, by omega, by omega⟩ hs, ?_⟩
        have hw : weight low = 1 := by rcases hlow with rfl | rfl <;> rfl
        simp only [hd, weightSum_cons, hw]
        omega
      · rename_i hgt
        have hp := hc (by omega)
        simp only
        generalize hscan : (if scan.largestProbability < roundedShare tableLog total c then
          { scan with largestProbability := roundedShare tableLog total c, largest := symbol }
          else scan) = scan'
        have hstill : scan'.stillToDistribute = scan.stillToDistribute := by
          rw [← hscan]
          split <;> rfl
        obtain ⟨hs, hd⟩ := ih' (symbol + 1)
          ⟨scan'.stillToDistribute - roundedShare tableLog total c, scan'.largest,
            scan'.largestProbability⟩
        rw [hstill] at hs hd ⊢
        refine ⟨.cons ⟨by omega, by omega, by omega⟩ hs, ?_⟩
        have hw : weight (roundedShare tableLog total c : Int) = roundedShare tableLog total c := by
          rw [weight, if_neg (by omega), Int.toNat_natCast]
        simp only [hd, weightSum_cons, hw]
        push_cast
        omega

/-- The largest share seen is the share of the symbol recorded with it. -/
theorem scanCounts_largest {low : Int} {cs : List Nat} (symbol : Nat) (scan : Scan) :
    (∀ c ∈ cs, c ≠ 0 → total >>> tableLog < c → roundedShare tableLog total c ≤
        (scanCounts tableLog total low cs symbol scan).2.largestProbability) ∧
      ((scanCounts tableLog total low cs symbol scan).2.largestProbability =
          scan.largestProbability ∧
        (scanCounts tableLog total low cs symbol scan).2.largest = scan.largest ∨
      scan.largestProbability < (scanCounts tableLog total low cs symbol scan).2.largestProbability ∧
        ∃ i, (scanCounts tableLog total low cs symbol scan).2.largest = symbol + i ∧
          (scanCounts tableLog total low cs symbol scan).1[i]? =
            some ((scanCounts tableLog total low cs symbol scan).2.largestProbability : Int)) := by
  induction cs generalizing symbol scan with
  | nil => simp [scanCounts]
  | cons c cs ih =>
    rw [scanCounts]
    split
    · rename_i h0
      obtain ⟨h2, h3⟩ := ih (symbol + 1) scan
      refine ⟨fun x hx hx0 hxc => ?_, ?_⟩
      · rcases List.mem_cons.mp hx with rfl | hx
        · exact absurd h0 hx0
        · exact h2 x hx hx0 hxc
      · rcases h3 with h3 | ⟨hlt, i, hi, hp⟩
        · exact .inl h3
        · exact .inr ⟨hlt, i + 1, by rw [hi]; omega, by simpa using hp⟩
    · split
      · rename_i hle
        obtain ⟨h2, h3⟩ := ih (symbol + 1)
          { scan with stillToDistribute := scan.stillToDistribute - 1 }
        refine ⟨fun x hx hx0 hxc => ?_, ?_⟩
        · rcases List.mem_cons.mp hx with rfl | hx
          · omega
          · exact h2 x hx hx0 hxc
        · rcases h3 with h3 | ⟨hlt, i, hi, hp⟩
          · exact .inl h3
          · exact .inr ⟨hlt, i + 1, by simp only [hi]; omega, by simpa using hp⟩
      · simp only
        generalize hscan : (if scan.largestProbability < roundedShare tableLog total c then
          { scan with largestProbability := roundedShare tableLog total c, largest := symbol }
          else scan) = scan'
        obtain ⟨h2, h3⟩ := ih (symbol + 1)
          ⟨scan'.stillToDistribute - roundedShare tableLog total c, scan'.largest,
            scan'.largestProbability⟩
        simp only at h3
        -- the record holds the larger of what it held and the share of this symbol
        have hmax : roundedShare tableLog total c ≤ scan'.largestProbability ∧
            (scan' = scan ∨ scan.largestProbability < scan'.largestProbability ∧
              scan'.largest = symbol ∧ scan'.largestProbability = roundedShare tableLog total c) := by
          rw [← hscan]
          split
          · rename_i hlt
            exact ⟨Nat.le_refl _, .inr ⟨hlt, rfl, rfl⟩⟩
          · rename_i hge
            exact ⟨by omega, .inl rfl⟩
        refine ⟨fun x hx hx0 hxc => ?_, ?_⟩
        · rcases List.mem_cons.mp hx with rfl | hx
          · rcases h3 with ⟨hp, _⟩ | ⟨hlt, _⟩ <;> omega
          · exact h2 x hx hx0 hxc
        · rcases h3 with ⟨hp, hl⟩ | ⟨hlt, i, hi, hp⟩
          · rcases hmax.2 with rfl | ⟨hlt, hsym, hshare⟩
            · exact .inl ⟨hp, hl⟩
            · refine .inr ⟨by omega, 0, by rw [hl, hsym]; rfl, ?_⟩
              rw [hp, hshare]
              rfl
          · have hle : scan.largestProbability ≤ scan'.largestProbability := by
              rcases hmax.2 with rfl | ⟨hlt, _⟩ <;> omega
            exact .inr ⟨by omega, i + 1, by simp only [hi]; omega, by simpa using hp⟩

end Roomy

section SecondMethod

/-- The second method's view of a count once everything up to `limit` has its slot. -/
def classify (lowThreshold limit : Nat) (low : Int) (count : Nat) : Int :=
  if count = 0 then 0 else if count ≤ lowThreshold then low
  else if count ≤ limit then 1 else notYetAssigned

theorem classify_large {lowThreshold limit c : Nat} (hle : lowThreshold ≤ limit) (low : Int)
    (hc : limit < c) : classify lowThreshold limit low c = notYetAssigned := by
  unfold classify
  rw [if_neg (by omega), if_neg (by omega), if_neg (by omega)]

theorem classify_small {lowThreshold limit c : Nat} {low : Int} (hlow : low = -1 ∨ low = 1)
    (hc : c ≤ limit) : classify lowThreshold limit low c ≠ notYetAssigned := by
  unfold classify
  split_ifs
  · decide
  · rcases hlow with rfl | rfl <;> decide
  · decide

/-- How many symbols have a slot, and what the others count together. -/
def smallCount (limit : Nat) (counts : List Nat) : Nat := counts.countP fun c => 0 < c ∧ c ≤ limit

def largeSum (limit : Nat) (counts : List Nat) : Nat := (counts.filter fun c => limit < c).sum

theorem smallCount_cons (limit c : Nat) (cs : List Nat) : smallCount limit (c :: cs) =
    smallCount limit cs + if 0 < c ∧ c ≤ limit then 1 else 0 := by
  simp [smallCount, List.countP_cons]

theorem largeSum_cons (limit c : Nat) (cs : List Nat) :
    largeSum limit (c :: cs) = (if limit < c then c else 0) + largeSum limit cs := by
  unfold largeSum
  by_cases h : limit < c <;> simp [h]

theorem smallCount_le_length (limit : Nat) (cs : List Nat) : smallCount limit cs ≤ cs.length :=
  List.countP_le_length

/-- Every small symbol counts at least once. -/
theorem smallCount_add_largeSum_le (limit : Nat) (cs : List Nat) :
    smallCount limit cs + largeSum limit cs ≤ cs.sum := by
  induction cs with
  | nil => rfl
  | cons c cs ih =>
    rw [smallCount_cons, largeSum_cons, List.sum_cons]
    split_ifs <;> omega

/-- A higher limit serves more symbols and leaves less. -/
theorem smallCount_mono {limit raised : Nat} (h : limit ≤ raised) (cs : List Nat) :
    smallCount limit cs ≤ smallCount raised cs ∧ largeSum raised cs ≤ largeSum limit cs := by
  induction cs with
  | nil => exact ⟨Nat.le_refl _, Nat.le_refl _⟩
  | cons c cs ih =>
    simp only [smallCount_cons, largeSum_cons]
    split_ifs <;> omega

theorem assignSmall_eq {lowThreshold lowOne : Nat} (hle : lowThreshold ≤ lowOne) (low : Int)
    (cs : List Nat) (distributed rest : Nat) :
    assignSmall lowThreshold lowOne low cs distributed (cs.sum + rest) =
      (cs.map (classify lowThreshold lowOne low), distributed + smallCount lowOne cs,
        largeSum lowOne cs + rest) := by
  induction cs generalizing distributed rest with
  | nil => simp [assignSmall, smallCount, largeSum]
  | cons c cs ih =>
    rw [assignSmall, smallCount_cons, largeSum_cons, List.map_cons, List.sum_cons]
    have hsub : c + cs.sum + rest - c = cs.sum + rest := by omega
    split
    · rename_i h0
      subst h0
      rw [Nat.zero_add, ih]
      simp [classify]
    · rename_i h0
      split
      · rename_i hlow
        rw [hsub, ih]
        simp [classify, h0, hlow, Nat.pos_of_ne_zero h0, Nat.le_trans hlow hle]
        omega
      · rename_i hlow
        split
        · rename_i hone
          rw [hsub, ih]
          simp [classify, h0, hlow, Nat.pos_of_ne_zero h0, hone]
          omega
        · rename_i hone
          have he : c + cs.sum + rest = cs.sum + (c + rest) := by omega
          rw [he, ih]
          have hgt : lowOne < c := by omega
          simp [classify, h0, hlow, hone, hgt]
          omega

theorem assignBelow_eq {lowThreshold lowOne raised : Nat} (hle : lowThreshold ≤ lowOne)
    (hr : lowOne ≤ raised) {low : Int} (hlow : low = -1 ∨ low = 1) (cs : List Nat)
    (distributed rest : Nat) :
    assignBelow raised (cs.map (classify lowThreshold lowOne low)) cs
        (distributed + smallCount lowOne cs) (largeSum lowOne cs + rest) =
      (cs.map (classify lowThreshold raised low), distributed + smallCount raised cs,
        largeSum raised cs + rest) := by
  induction cs generalizing distributed rest with
  | nil => simp [assignBelow, smallCount, largeSum]
  | cons c cs ih =>
    simp only [List.map_cons, smallCount_cons, largeSum_cons]
    rw [assignBelow]
    by_cases hone : c ≤ lowOne
    · -- served before, or absent
      have hp := @classify_small lowThreshold _ _ _ hlow hone
      have hsame : classify lowThreshold raised low c = classify lowThreshold lowOne low c := by
        simp [classify, hone, Nat.le_trans hone hr]
      have hsum : (if lowOne < c then c else 0) + largeSum lowOne cs + rest =
          largeSum lowOne cs + rest := by
        rw [if_neg (by omega), Nat.zero_add]
      rw [if_neg (fun h => hp h.1), hsum, hsame]
      by_cases h0 : c = 0
      · have := ih distributed rest
        simp only [h0, Nat.lt_irrefl, false_and, if_false, Nat.add_zero] at this ⊢
        rw [this]
        simp
      · have := ih (distributed + 1) rest
        have hc1 : 0 < c ∧ c ≤ lowOne := ⟨Nat.pos_of_ne_zero h0, hone⟩
        have hc2 : 0 < c ∧ c ≤ raised := ⟨hc1.1, Nat.le_trans hone hr⟩
        rw [if_pos hc1, if_pos hc2, ← Nat.add_assoc, Nat.add_right_comm, this,
          if_neg (by omega), Nat.zero_add]
        simp
        omega
    · have hp := classify_large hle low (Nat.lt_of_not_le hone)
      have hc1 : ¬(0 < c ∧ c ≤ lowOne) := fun h => hone h.2
      rw [if_neg hc1, if_pos (show lowOne < c by omega), Nat.add_zero (smallCount lowOne cs)]
      by_cases hraised : c ≤ raised
      · have := ih (distributed + 1) rest
        have hc2 : 0 < c ∧ c ≤ raised := ⟨by omega, hraised⟩
        have hsub : c + largeSum lowOne cs + rest - c = largeSum lowOne cs + rest := by omega
        rw [if_pos ⟨hp, hraised⟩, hsub, Nat.add_right_comm, this, if_pos hc2,
          if_neg (by omega), Nat.zero_add]
        have hcl : classify lowThreshold raised low c = 1 := by
          unfold classify
          rw [if_neg (by omega), if_neg (by omega), if_pos hraised]
        simp [hcl]
        omega
      · have := ih distributed (c + rest)
        have hc2 : ¬(0 < c ∧ c ≤ raised) := fun h => hraised h.2
        have he : c + largeSum lowOne cs + rest = largeSum lowOne cs + (c + rest) := by omega
        rw [if_neg (fun h => hraised h.2), he, this, if_neg hc2, if_pos (by omega)]
        have hcl := classify_large (Nat.le_trans hle hr) low (Nat.lt_of_not_le hraised)
        simp [hp, hcl]
        omega

/-- The symbols served so far fill as many slots as there are of them. -/
theorem weightSum_classify (lowThreshold limit : Nat) {low : Int} (hlow : low = -1 ∨ low = 1)
    (hle : lowThreshold ≤ limit) (cs : List Nat) :
    weightSum (cs.map (classify lowThreshold limit low)) = smallCount limit cs := by
  have hw : weight low = 1 := by rcases hlow with rfl | rfl <;> rfl
  induction cs with
  | nil => rfl
  | cons c cs ih =>
    rw [List.map_cons, weightSum_cons, ih, smallCount_cons, classify]
    split_ifs <;> first | omega | (simp [weight, notYetAssigned]; try omega)

variable {tableLog lowThreshold limit : Nat} {low : Int} {counts : List Nat}

theorem classify_served (hlow : low = -1 ∨ low = 1) {c : Nat} (hc : c ≤ limit) :
    ServedBy low c (classify lowThreshold limit low c) := by
  unfold classify ServedBy
  split_ifs <;> omega

/-- Without large symbols the classification serves every count. -/
theorem classify_all_served (hlow : low = -1 ∨ low = 1) (h : ∀ c ∈ counts, c ≤ limit) :
    List.Forall₂ (ServedBy low) counts (counts.map (classify lowThreshold limit low)) := by
  rw [List.forall₂_map_right_iff, List.forall₂_same]
  exact fun c hc => classify_served hlow (h c hc)

theorem lastLargest_spec (cs before : List Nat) (best : Nat × Nat)
    (hbest : (before = [] ∧ best = (0, 0)) ∨ before[best.1]? = some best.2)
    (hmax : ∀ c ∈ before, c ≤ best.2) (hne : before ++ cs ≠ []) :
    ∃ m, (before ++ cs)[lastLargest cs before.length best]? = some m ∧
      ∀ c ∈ before ++ cs, c ≤ m := by
  induction cs generalizing before best with
  | nil =>
    rw [List.append_nil] at hne ⊢
    rcases hbest with ⟨h, _⟩ | h
    · exact absurd h hne
    · exact ⟨best.2, h, hmax⟩
  | cons c cs ih =>
    have happ : before ++ c :: cs = (before ++ [c]) ++ cs := by simp
    rw [lastLargest, happ]
    have hlen : (before ++ [c]).length = before.length + 1 := by simp
    rw [← hlen]
    split
    · rename_i hle
      refine ih (before ++ [c]) (before.length, c) (.inr (by simp)) ?_ (by simp)
      intro x hx
      rcases List.mem_append.mp hx with hx | hx
      · exact Nat.le_trans (hmax x hx) hle
      · rw [List.mem_singleton.mp hx]
    · rename_i hlt
      have hget : before[best.1]? = some best.2 := by
        rcases hbest with ⟨_, h⟩ | h
        · rw [h] at hlt
          omega
        · exact h
      have hin := (List.getElem?_eq_some_iff.mp hget).1
      refine ih (before ++ [c]) best (.inr ?_) ?_ (by simp)
      · rw [List.getElem?_append_left hin, hget]
      · intro x hx
        rcases List.mem_append.mp hx with hx | hx
        · exact hmax x hx
        · rw [List.mem_singleton.mp hx]
          omega

/-- How many steps a walk around `n` places takes from `s` to `j`. -/
def lapDistance (n j s : Nat) : Nat := if s ≤ j then j - s else j + n - s

theorem lapDistance_next {n j s : Nat} (hj : j < n) (hs : s < n) :
    lapDistance n j ((s + 1) % n) + 1 = if s = j then n else lapDistance n j s := by
  unfold lapDistance
  rcases Nat.eq_or_lt_of_le (show s + 1 ≤ n from hs) with h | h
  · rw [h, Nat.mod_self]
    split_ifs <;> omega
  · rw [Nat.mod_eq_of_lt h]
    split_ifs <;> omega

/-- The slots that go around: each one lands on a symbol that has one. The measure counts the
slots left in laps, and the way to a symbol that takes one. -/
theorem shareAround_spec {j : Nat} (fuel symbol toDistribute : Nat) {ps : List Int}
    (hs : List.Forall₂ (ServedBy low) counts ps) (hj : j < ps.length) (hpos : 0 < ps.getD j 0)
    (hsym : symbol < ps.length)
    (hfuel : toDistribute * ps.length + lapDistance ps.length j symbol < fuel) :
    ∃ qs, shareAround fuel symbol toDistribute ps = some qs ∧ List.Forall₂ (ServedBy low) counts qs ∧
      weightSum qs = weightSum ps + toDistribute := by
  induction fuel generalizing symbol toDistribute ps with
  | zero => omega
  | succ fuel ih =>
    rw [shareAround]
    split
    · rename_i h0
      exact ⟨ps, rfl, hs, by omega⟩
    · rename_i h0
      obtain ⟨left, rfl⟩ : ∃ left, toDistribute = left + 1 := ⟨toDistribute - 1, by omega⟩
      have hnext : (symbol + 1) % ps.length < ps.length := Nat.mod_lt _ (by omega)
      have hlap := lapDistance_next hj hsym
      rw [Nat.add_one_mul] at hfuel
      simp only
      split
      · rename_i hp
        have hsq : List.Forall₂ (ServedBy low) counts (ps.set symbol (ps.getD symbol 0 + 1)) := by
          refine forall₂_set hs symbol fun c hc => ?_
          have := forall₂_getD hs hc
          unfold ServedBy at this ⊢
          omega
        have hjq : 0 < (ps.set symbol (ps.getD symbol 0 + 1)).getD j 0 := by
          rw [List.getD_eq_getElem?_getD]
          rcases Nat.decEq symbol j with hne | rfl
          · rwa [List.getElem?_set_ne hne, ← List.getD_eq_getElem?_getD]
          · rw [List.getElem?_set_self hsym, Option.getD_some]
            omega
        have hw := weightSum_set hsym (ps.getD symbol 0 + 1)
        have hw1 : weight (ps.getD symbol 0 + 1) = weight (ps.getD symbol 0) + 1 := by
          unfold weight
          rw [if_neg (by omega), if_neg (by omega)]
          omega
        obtain ⟨qs, hqs, hserved, hsum⟩ := ih ((symbol + 1) % ps.length) left hsq
          (by rwa [List.length_set]) hjq (by rwa [List.length_set]) (by
            rw [List.length_set]
            split_ifs at hlap <;> omega)
        exact ⟨qs, hqs, hserved, by omega⟩
      · rename_i hp
        have hne : symbol ≠ j := fun h => hp (h ▸ hpos)
        rw [if_neg hne] at hlap
        obtain ⟨qs, hqs, hserved, hsum⟩ := ih ((symbol + 1) % ps.length) (left + 1) hs hj hpos hnext
          (by rw [Nat.add_one_mul]; omega)
        exact ⟨qs, hqs, hserved, hsum⟩

/-- The last pass telescopes: the weights add up to the buckets it crosses. -/
theorem assignWeights_spec {vStepLog rStep : Nat} (hlow : low = -1 ∨ low = 1)
    (hle : lowThreshold ≤ limit) (cs : List Nat)
    (tmp : Nat) (hbig : ∀ c ∈ cs, limit < c → 2 ^ vStepLog ≤ c * rStep) :
    ∃ qs, assignWeights vStepLog rStep (cs.map (classify lowThreshold limit low)) cs tmp = some qs ∧
      List.Forall₂ (ServedBy low) cs qs ∧
      weightSum qs + tmp / 2 ^ vStepLog = weightSum (cs.map (classify lowThreshold limit low)) +
        (tmp + largeSum limit cs * rStep) / 2 ^ vStepLog := by
  induction cs generalizing tmp with
  | nil => exact ⟨[], rfl, .nil, by simp [largeSum]⟩
  | cons c cs ih =>
    have hbig' : ∀ x ∈ cs, limit < x → 2 ^ vStepLog ≤ x * rStep :=
      fun x hx => hbig x (List.mem_cons_of_mem c hx)
    rw [List.map_cons, assignWeights, largeSum_cons]
    rcases Nat.lt_or_ge limit c with hc | hc
    · have hp := classify_large hle low hc
      have hstep := hbig c List.mem_cons_self hc
      obtain ⟨qs, hqs, hserved, hsum⟩ := ih (tmp + c * rStep) hbig'
      -- a step of a whole bucket crosses into the next one
      have hcross : tmp / 2 ^ vStepLog + 1 ≤ (tmp + c * rStep) / 2 ^ vStepLog := by
        rw [← Nat.add_div_right _ (Nat.two_pow_pos vStepLog)]
        exact Nat.div_le_div_right (by omega)
      have hw : ¬(tmp + c * rStep) >>> vStepLog - tmp >>> vStepLog = 0 := by
        rw [Nat.shiftRight_eq_div_pow, Nat.shiftRight_eq_div_pow]
        omega
      simp only [hp, if_true, if_neg hw, hqs]
      refine ⟨_, rfl, .cons ⟨by omega, by omega, by omega⟩ hserved, ?_⟩
      rw [weightSum_cons, weightSum_cons, weight, if_neg (by omega), Int.toNat_natCast,
        show weight notYetAssigned = 0 from rfl, if_pos hc, Nat.add_mul, ← Nat.add_assoc tmp]
      rw [Nat.shiftRight_eq_div_pow, Nat.shiftRight_eq_div_pow]
      omega
    · have hp := @classify_small lowThreshold _ _ _ hlow hc
      obtain ⟨qs, hqs, hserved, hsum⟩ := ih tmp hbig'
      simp only [if_neg hp, hqs]
      refine ⟨_, rfl, .cons (classify_served hlow hc) hserved, ?_⟩
      rw [weightSum_cons, weightSum_cons, if_neg (by omega), Nat.zero_add]
      omega

/-- The steps of the last pass hand out exactly the slots left, and each is a bucket at least. -/
theorem rStep_spec {vStepLog toDistribute total : Nat} (hv : 1 ≤ vStepLog) (hpos : 0 < total)
    (hle : total ≤ 2 ^ (vStepLog - 1)) :
    let mid := 1 <<< (vStepLog - 1) - 1
    let rStep := (1 <<< vStepLog * toDistribute + mid) / total
    mid / 2 ^ vStepLog = 0 ∧ (mid + total * rStep) / 2 ^ vStepLog = toDistribute ∧
      ∀ c, total < c * toDistribute → 2 ^ vStepLog ≤ c * rStep := by
  intro mid rStep
  have hmid : mid = 2 ^ (vStepLog - 1) - 1 := by simp only [mid, Nat.one_shiftLeft]
  have htwo : 2 ^ vStepLog = 2 * 2 ^ (vStepLog - 1) := by
    rw [← Nat.pow_succ']
    congr 1
    omega
  have hone : 0 < 2 ^ (vStepLog - 1) := Nat.two_pow_pos _
  have hup : total * rStep ≤ 2 ^ vStepLog * toDistribute + mid := by
    simp only [rStep, Nat.one_shiftLeft]
    exact Nat.mul_div_le _ _
  have hdown : 2 ^ vStepLog * toDistribute + mid < total * rStep + total := by
    have := Nat.lt_mul_div_succ (1 <<< vStepLog * toDistribute + mid) hpos
    rw [Nat.mul_add, Nat.mul_one] at this
    simpa only [rStep, Nat.one_shiftLeft] using this
  refine ⟨Nat.div_eq_of_lt (by omega), ?_, fun c hc => ?_⟩
  · rw [Nat.div_eq_iff (Nat.two_pow_pos _)]
    constructor
    · rw [Nat.mul_comm]
      omega
    · rw [Nat.mul_comm toDistribute]
      omega
  · apply Nat.le_of_mul_le_mul_left _ hpos
    calc total * 2 ^ vStepLog ≤ c * toDistribute * 2 ^ vStepLog :=
          Nat.mul_le_mul_right _ (Nat.le_of_lt hc)
      _ = c * (2 ^ vStepLog * toDistribute) := by ring
      _ ≤ c * (total * rStep) := Nat.mul_le_mul_left _ (by omega)
      _ = total * (c * rStep) := by ring

/-- Handing out the rest, whichever way it goes. -/
theorem distributeRest_spec (hlow : low = -1 ∨ low = 1) (hle : lowThreshold ≤ limit)
    (hlog : tableLog ≤ 12) (habove : ∃ c ∈ counts, lowThreshold < c)
    (hcount : smallCount limit counts ≤ 2 ^ tableLog)
    (htotal : largeSum limit counts ≤ 2 ^ (61 - tableLog))
    (hlarge : ∀ c ∈ counts, limit < c →
      largeSum limit counts < c * (2 ^ tableLog - smallCount limit counts)) :
    ∃ probs, distributeRest tableLog counts (counts.map (classify lowThreshold limit low))
        (smallCount limit counts) (largeSum limit counts)
        (2 ^ tableLog - smallCount limit counts) = some probs ∧
      NormalizedBy low tableLog counts probs := by
  have hsum := weightSum_classify lowThreshold limit hlow hle counts
  obtain ⟨c₀, hc₀, habove⟩ := habove
  unfold distributeRest
  split
  · -- every symbol has its slot
    rename_i hall
    have hsmall : ∀ c ∈ counts, c ≤ limit := fun c hc =>
      (of_decide_eq_true (List.countP_eq_length.mp hall c hc)).2
    have hserved := @classify_all_served lowThreshold limit low counts hlow hsmall
    obtain ⟨m, hm, hmax⟩ := lastLargest_spec counts [] (0, 0) (.inl ⟨rfl, rfl⟩) (by simp)
      (by simpa using List.ne_nil_of_mem hc₀)
    rw [List.nil_append, List.length_nil] at hm
    rw [List.nil_append] at hmax
    have hone : (counts.map (classify lowThreshold limit low)).getD (lastLargest counts 0 (0, 0)) 0 =
        1 := by
      rw [List.getD_eq_getElem?_getD, List.getElem?_map, hm, Option.map_some, Option.getD_some,
        classify]
      have := hmax c₀ hc₀
      have := hsmall m (List.mem_of_getElem? hm)
      rw [if_neg (by omega), if_neg (by omega), if_pos this]
    have hlt : lastLargest counts 0 (0, 0) < (counts.map (classify lowThreshold limit low)).length := by
      rw [List.length_map]
      exact (List.getElem?_eq_some_iff.mp hm).1
    have hset := weightSum_set hlt
      (1 + ((2 ^ tableLog - smallCount limit counts : Nat) : Int))
    simp only [hone] at hset ⊢
    refine ⟨_, rfl, forall₂_set hserved _ fun c hc => ?_, ?_⟩
    · have h0 : c ≠ 0 := by
        rw [hm] at hc
        cases hc
        have := hmax c₀ hc₀
        omega
      exact ⟨by omega, by omega, by omega⟩
    · have hw : weight (1 + ((2 ^ tableLog - smallCount limit counts : Nat) : Int)) =
          1 + (2 ^ tableLog - smallCount limit counts) := by
        rw [weight, if_neg (by omega)]
        omega
      rw [hw, show weight 1 = 1 from rfl] at hset
      omega
  · split
    · -- nothing large is left, and some symbol does not occur
      rename_i hzero
      have hsmall : ∀ c ∈ counts, c ≤ limit := by
        intro c hc
        by_contra hgt
        have hmem : c ∈ counts.filter fun c => limit < c := by
          rw [List.mem_filter]
          exact ⟨hc, decide_eq_true (by omega)⟩
        have := List.single_le_sum (fun _ _ => Nat.zero_le _) c hmem
        unfold largeSum at hzero
        omega
      have hserved := @classify_all_served lowThreshold limit low counts hlow hsmall
      obtain ⟨j, hj, hget⟩ := List.mem_iff_getElem.mp hc₀
      have hpos : 0 < (counts.map (classify lowThreshold limit low)).getD j 0 := by
        have := hsmall c₀ hc₀
        rw [List.getD_eq_getElem?_getD, List.getElem?_map, List.getElem?_eq_getElem hj, hget,
          Option.map_some, Option.getD_some, classify, if_neg (by omega), if_neg (by omega),
          if_pos this]
        decide
      have hlen : (counts.map (classify lowThreshold limit low)).length = counts.length :=
        List.length_map _
      obtain ⟨qs, hqs, hq, hw⟩ := shareAround_spec
        ((2 ^ tableLog - smallCount limit counts + 1) * counts.length + 1) 0
        (2 ^ tableLog - smallCount limit counts) hserved (by rwa [hlen]) hpos (by omega) (by
          rw [hlen, Nat.add_one_mul, lapDistance, if_pos (Nat.zero_le j)]
          omega)
      exact ⟨qs, hqs, hq, by omega⟩
    · -- the large symbols share in proportion
      rename_i hzero
      have hhalf : 62 - tableLog - 1 = 61 - tableLog := by omega
      obtain ⟨hmid, hend, hbig⟩ := @rStep_spec (62 - tableLog)
        (2 ^ tableLog - smallCount limit counts) _ (by omega) (Nat.pos_of_ne_zero hzero)
        (hhalf ▸ htotal)
      obtain ⟨qs, hqs, hq, hw⟩ := @assignWeights_spec lowThreshold limit low _ _ hlow hle
        counts (1 <<< (62 - tableLog - 1) - 1) fun c hc hgt => hbig c (hlarge c hc hgt)
      refine ⟨qs, hqs, hq, ?_⟩
      rw [hmid, hend, hsum] at hw
      omega

end SecondMethod

section Assembly

variable {tableLog total : Nat} {counts : List Nat} {low : Int}

/-- A symbol past the raised threshold is worth more than one of the slots left. -/
theorem raised_large {len served more left rest bound rest' : Nat} {n c : Nat}
    (hroom : 2 * len ≤ n) (hserved : served + left = n) (hmore : served + more ≤ len)
    (hbound : total * 3 < (bound + 1) * (n * 2)) (hrest : rest ≤ total) (hrest' : rest' ≤ rest)
    (hraise : bound < rest / left) (hleft : 0 < left) (hc : rest * 3 / (left * 2) < c) :
    rest' < c * (left - more) := by
  have h1 : (bound + 1) * left ≤ rest := (Nat.le_div_iff_mul_le hleft).mp hraise
  have h2 : rest * 3 < c * (left * 2) := (Nat.div_lt_iff_lt_mul (by omega)).mp hc
  -- more than a third of the table was handed out one by one
  have h3 : 3 * left < 2 * n := by
    by_contra hge
    have : (bound + 1) * (n * 2) ≤ (bound + 1) * (left * 3) := Nat.mul_le_mul_left _ (by omega)
    have : (bound + 1) * (left * 3) = (bound + 1) * left * 3 := by ring
    omega
  have h4 : 2 * left ≤ 3 * (left - more) := by omega
  have h5 : c * (left * 2) ≤ c * (left - more) * 3 := by
    have := Nat.mul_le_mul_left c h4
    calc c * (left * 2) = c * (2 * left) := by ring
      _ ≤ c * (3 * (left - more)) := this
      _ = c * (left - more) * 3 := by ring
  omega

theorem normalizeM2_spec (h : Roomy tableLog counts total) (hlow : low = -1 ∨ low = 1) :
    ∃ probs, normalizeM2 tableLog counts total low = some probs ∧
      NormalizedBy low tableLog counts probs := by
  have hpos := h.pos
  have hlen := h.length_pos
  have hpow : 0 < 2 ^ tableLog := Nat.two_pow_pos _
  have habove := h.exists_above
  have hle : total >>> tableLog ≤ (total * 3) >>> (tableLog + 1) := by
    rw [Nat.shiftRight_eq_div_pow, Nat.shiftRight_eq_div_pow, Nat.pow_succ,
      Nat.le_div_iff_mul_le (by positivity)]
    have := Nat.div_mul_le_self total (2 ^ tableLog)
    rw [← Nat.mul_assoc]
    omega
  have hsmall := assignSmall_eq hle low counts 0 0
  rw [h.sum_eq] at hsmall
  simp only [Nat.add_zero, Nat.zero_add] at hsmall
  have hbound : total * 3 < ((total * 3) >>> (tableLog + 1) + 1) * (2 ^ tableLog * 2) := by
    rw [Nat.shiftRight_eq_div_pow, ← Nat.pow_succ]
    exact Nat.lt_mul_of_div_lt (Nat.lt_succ_self _) (by positivity)
  generalize hone : (total * 3) >>> (tableLog + 1) = lowOne at hle hsmall hbound
  have hcl := smallCount_le_length lowOne counts
  have hcs := smallCount_add_largeSum_le lowOne counts
  rw [h.sum_eq] at hcs
  -- the small symbols leave at least one slot
  have hroom : smallCount lowOne counts < 2 ^ tableLog := by
    rcases h.room with hr | hr <;> omega
  unfold normalizeM2
  simp only [hone, hsmall, Nat.one_shiftLeft]
  rw [if_neg (by omega), if_neg (by omega)]
  split
  · rename_i hraise
    -- with more slots than samples the average is below one
    have hr : 2 * counts.length ≤ 2 ^ tableLog := by
      rcases h.room with hr | hr
      · exact hr
      · rw [Nat.div_eq_of_lt (by omega)] at hraise
        omega
    have hraised : lowOne ≤ largeSum lowOne counts * 3 /
        ((2 ^ tableLog - smallCount lowOne counts) * 2) := by
      rw [Nat.le_div_iff_mul_le (by omega)]
      have := (Nat.le_div_iff_mul_le (by omega)).mp (Nat.le_of_lt hraise)
      rw [← Nat.mul_assoc]
      omega
    have hbelow := assignBelow_eq hle hraised hlow counts 0 0
    simp only [Nat.add_zero, Nat.zero_add] at hbelow
    simp only [hbelow]
    generalize hlim : largeSum lowOne counts * 3 /
      ((2 ^ tableLog - smallCount lowOne counts) * 2) = limit at hraised hbelow
    have hcl' := smallCount_le_length limit counts
    have hcs' := smallCount_add_largeSum_le limit counts
    rw [h.sum_eq] at hcs'
    rw [if_neg (by omega)]
    have hmono := smallCount_mono hraised counts
    refine distributeRest_spec hlow (Nat.le_trans hle hraised) h.log_le habove (by omega)
      (by have := h.le; omega) fun c hc hgt => ?_
    have := @raised_large _ _ _ (smallCount limit counts - smallCount lowOne counts) _ _ _ _ _ _ hr
      (show smallCount lowOne counts + (2 ^ tableLog - smallCount lowOne counts) = 2 ^ tableLog by
        omega) (by omega) hbound (show largeSum lowOne counts ≤ total by omega) hmono.2 hraise
      (by omega) (hlim ▸ hgt)
    convert this using 2
    omega
  · rename_i hraise
    refine distributeRest_spec hlow hle h.log_le habove (by omega)
      (by have := h.le; omega) fun c hc hgt => ?_
    exact (Nat.div_lt_iff_lt_mul (by omega)).mp (by omega)

/-- Normalization never panics on a histogram its table has room for. -/
theorem normalizeCounts_by (h : Roomy tableLog counts total) (useLowProbCount : Bool) :
    ∃ probs, normalizeCounts tableLog counts total useLowProbCount = some probs ∧
      NormalizedBy (if useLowProbCount then -1 else 1) tableLog counts probs := by
  have hlow : (if useLowProbCount then -1 else 1 : Int) = -1 ∨
      (if useLowProbCount then -1 else 1 : Int) = 1 := by
    cases useLowProbCount with
    | true => exact .inl rfl
    | false => exact .inr rfl
  obtain ⟨c₀, hc₀, habove⟩ := h.exists_above
  unfold normalizeCounts
  simp only
  generalize (if useLowProbCount then -1 else 1 : Int) = low at hlow ⊢
  obtain ⟨hserved, hstill⟩ := scanCounts_spec hlow
    (fun c _ hc => h.roundedShare_pos (Nat.zero_lt_of_lt hc)) 0 ⟨((1 <<< tableLog : Nat) : Int), 0, 0⟩
  obtain ⟨hmax, hrec⟩ := @scanCounts_largest tableLog total low counts 0
    ⟨((1 <<< tableLog : Nat) : Int), 0, 0⟩
  generalize scanCounts tableLog total low counts 0 ⟨((1 <<< tableLog : Nat) : Int), 0, 0⟩ = r
    at hserved hstill hmax hrec ⊢
  split
  · exact normalizeM2_spec h hlow
  · rename_i hfast
    have hlp : 0 < r.2.largestProbability :=
      Nat.lt_of_lt_of_le (h.roundedShare_pos (Nat.zero_lt_of_lt habove))
        (hmax c₀ hc₀ (Nat.ne_zero_of_lt habove) habove)
    obtain ⟨i, hi, hget⟩ : ∃ i, r.2.largest = i ∧ r.1[i]? = some (r.2.largestProbability : Int) := by
      rcases hrec with ⟨hp, _⟩ | ⟨_, i, hi, hget⟩
      · change r.2.largestProbability = 0 at hp
        omega
      · exact ⟨i, by omega, hget⟩
    have hval : r.1.getD r.2.largest 0 = (r.2.largestProbability : Int) := by
      rw [hi, List.getD_eq_getElem?_getD, hget, Option.getD_some]
    have hlt : r.2.largest < r.1.length := by
      rw [hi]
      exact (List.getElem?_eq_some_iff.mp hget).1
    rw [hval] at hfast ⊢
    refine ⟨_, rfl, forall₂_set hserved _ fun c hc => ?_, ?_⟩
    · have hc0 := (forall₂_getD hserved hc).2.2
      rw [hval] at hc0
      exact ⟨by omega, by omega, by omega⟩
    · have hset := weightSum_set hlt (r.2.largestProbability + r.2.stillToDistribute)
      rw [hval] at hset
      simp only [Nat.one_shiftLeft] at hstill
      have hw : (weight (r.2.largestProbability + r.2.stillToDistribute) : Int) =
          r.2.largestProbability + r.2.stillToDistribute := by
        rw [weight, if_neg (by omega)]
        omega
      have hw' : weight (r.2.largestProbability : Int) = r.2.largestProbability := by
        rw [weight, if_neg (by omega), Int.toNat_natCast]
      omega

theorem normalizeCounts_spec (h : Roomy tableLog counts total) (useLowProbCount : Bool) :
    ∃ probs, normalizeCounts tableLog counts total useLowProbCount = some probs ∧
      Normalized tableLog counts probs := by
  obtain ⟨probs, hprobs, hnorm⟩ := normalizeCounts_by h useLowProbCount
  exact ⟨probs, hprobs, hnorm.normalized⟩

end Assembly

section Histograms

variable {counts : List Nat}

/-- The last symbol with a count has one, and no later symbol does. -/
theorem lastCounted_spec (h : 0 < counts.sum) : lastCounted counts < counts.length ∧
    0 < counts.getD (lastCounted counts) 0 ∧
      ∀ s, lastCounted counts < s → counts.getD s 0 = 0 := by
  obtain ⟨c, hc, hpos⟩ : ∃ c ∈ counts, 0 < c := by
    by_contra hno
    push Not at hno
    have := sum_le_of_le hno
    omega
  have hlt : counts.reverse.findIdx (0 < ·) < counts.length := by
    rw [← List.length_reverse]
    exact List.findIdx_lt_length_of_exists ⟨c, List.mem_reverse.mpr hc, decide_eq_true hpos⟩
  have hget (i : Nat) (hi : i < counts.length) :
      counts.reverse[i]? = counts[counts.length - 1 - i]? := List.getElem?_reverse hi
  have hidx : lastCounted counts = counts.length - 1 - counts.reverse.findIdx (0 < ·) := rfl
  refine ⟨by omega, ?_, fun s hs => ?_⟩
  · have hlt' : counts.reverse.findIdx (0 < ·) < counts.reverse.length := by
      rwa [List.length_reverse]
    have hfound :=
      @List.findIdx_getElem Nat (fun c => decide (0 < c)) counts.reverse hlt'
    rw [List.getD_eq_getElem?_getD, hidx, ← hget _ hlt, List.getElem?_eq_getElem hlt',
      Option.getD_some]
    exact of_decide_eq_true hfound
  · rcases Nat.lt_or_ge s counts.length with hin | hout
    · have hbefore : counts.length - 1 - s < counts.reverse.findIdx (0 < ·) := by omega
      have hno := List.not_of_lt_findIdx hbefore
      have he : counts.length - 1 - (counts.length - 1 - s) = s := by omega
      have := hget (counts.length - 1 - s) (by omega)
      rw [he, List.getElem?_eq_getElem (by rw [List.length_reverse]; omega)] at this
      rw [List.getD_eq_getElem?_getD, ← this, Option.getD_some]
      simpa using hno
    · rw [List.getD_eq_getElem?_getD, List.getElem?_eq_none hout, Option.getD_none]

/-- Nothing is counted past the last counted symbol. -/
theorem sum_take_of_zero {n : Nat} (h : ∀ s, n ≤ s → counts.getD s 0 = 0) :
    (counts.take n).sum = counts.sum := by
  have hdrop : (counts.drop n).sum = 0 := by
    apply List.sum_eq_zero
    intro x hx
    obtain ⟨i, hi, rfl⟩ := List.mem_iff_getElem.mp hx
    have := h (n + i) (by omega)
    rw [List.getElem_drop]
    rw [List.length_drop] at hi
    rwa [List.getD_eq_getElem?_getD, List.getElem?_eq_getElem (by omega), Option.getD_some] at this
  conv_rhs => rw [← List.take_append_drop n counts, List.sum_append, hdrop, Nat.add_zero]

/-- A log of `min_table_log` or more leaves room for the histogram. -/
theorem room_of_minTableLog {total maxSymbol log : Nat} (hge : minTableLog total maxSymbol ≤ log) :
    2 * (maxSymbol + 1) ≤ 2 ^ log ∨ total < 2 ^ log := by
  unfold minTableLog at hge
  simp only at hge
  rcases Nat.le_total (Nat.log2 total + 1) (if maxSymbol = 0 then 2 else Nat.log2 maxSymbol + 2)
    with hle | hle
  · right
    rw [Nat.min_eq_left hle] at hge
    exact Nat.lt_of_lt_of_le Nat.lt_log2_self (Nat.pow_le_pow_right (by decide) hge)
  · left
    rw [Nat.min_eq_right hle] at hge
    refine Nat.le_trans ?_ (Nat.pow_le_pow_right (by decide : 0 < 2) hge)
    split
    · rename_i h0
      subst h0
      decide
    · have := Nat.lt_log2_self (n := maxSymbol)
      rw [Nat.pow_succ]
      omega

/-- The table log is one the decoder takes and leaves room for the histogram. -/
theorem optimalTableLog_spec {maxLog total maxSymbol : Nat} (minus : Nat) (htotal : 2 ≤ total)
    (hmin : 5 ≤ maxLog) (hmax : maxLog ≤ 12) (hsym : 2 * maxSymbol < 2 ^ (maxLog - 1)) :
    ∃ log, optimalTableLog maxLog total maxSymbol minus = some log ∧ 5 ≤ log ∧ log ≤ maxLog ∧
      (2 * (maxSymbol + 1) ≤ 2 ^ log ∨ total < 2 ^ log) := by
  have hsymbols : (if maxSymbol = 0 then 2 else Nat.log2 maxSymbol + 2) ≤ maxLog := by
    split
    · omega
    · rename_i h0
      have : Nat.log2 maxSymbol < maxLog - 2 := by
        rw [Nat.log2_lt h0]
        have : 2 ^ (maxLog - 1) = 2 * 2 ^ (maxLog - 2) := by
          rw [← Nat.pow_succ']
          congr 1
          omega
        omega
      omega
  refine ⟨_, if_neg (by omega), by omega, ?_, ?_⟩
  · unfold minTableLog
    simp only
    split_ifs at hsymbols ⊢ <;> omega
  · generalize hlog : max 5 (min 12 _) = log
    have hge : minTableLog total maxSymbol ≤ log := by
      rw [← hlog]
      have : minTableLog total maxSymbol ≤ 12 := by
        unfold minTableLog
        simp only
        omega
      split_ifs <;> omega
    exact room_of_minTableLog hge

end Histograms

end Fse.Encoder
