import StructuredZstd.Huff0.WeightBuild

namespace Huff0.Encoder

/-- A list of weights by its runs: a weight and how often it stands there. By their runs the
distributed weights can be tried on every number of symbols. -/
def expand (runs : List (Nat × Nat)) : List Nat :=
  runs.flatMap fun run => List.replicate run.2 run.1

section Expand

variable {runs : List (Nat × Nat)}

@[simp] theorem expand_nil : expand [] = [] := rfl

@[simp] theorem expand_cons (run : Nat × Nat) :
    expand (run :: runs) = List.replicate run.2 run.1 ++ expand runs := rfl

@[simp] theorem expand_append (more : List (Nat × Nat)) :
    expand (runs ++ more) = expand runs ++ expand more := List.flatMap_append

theorem expand_map (f : Nat → Nat) :
    (expand runs).map f = expand (runs.map fun run => (f run.1, run.2)) := by
  induction runs with
  | nil => rfl
  | cons run runs ih =>
    rw [expand_cons, List.map_append, ih, List.map_replicate]
    rfl

theorem expand_sum (f : Nat → Nat) :
    ((expand runs).map f).sum = (runs.map fun run => run.2 * f run.1).sum := by
  induction runs with
  | nil => rfl
  | cons run runs ih => simp [ih]

theorem mem_expand {w : Nat} (h : w ∈ expand runs) : ∃ c, (w, c) ∈ runs := by
  obtain ⟨run, hrun, hw⟩ := List.mem_flatMap.mp h
  obtain ⟨-, rfl⟩ := List.mem_replicate.mp hw
  exact ⟨run.2, hrun⟩

end Expand

/-- `distributeGroups` on runs. -/
def distributeRuns (amount : Nat) : Nat → List (Nat × Nat) → Nat → Nat → Nat → List (Nat × Nat)
  | 0, runs, _, _, _ => runs
  | fuel + 1, runs, length, target, counter =>
    if length < amount then
      let addNew := 1 <<< (counter - target)
      if amount - length < addNew then
        distributeRuns amount fuel (runs ++ [(counter, 1)]) (length + 1) counter (counter + 1)
      else
        distributeRuns amount fuel (runs ++ [(target, addNew)]) (length + addNew) target
          (counter + 1)
    else runs

theorem distributeGroups_expand (amount fuel target counter : Nat) (runs : List (Nat × Nat)) :
    distributeGroups amount fuel (expand runs) target counter =
      expand (distributeRuns amount fuel runs (expand runs).length target counter) := by
  induction fuel generalizing runs target counter with
  | zero => rfl
  | succ fuel ih =>
    rw [distributeGroups, distributeRuns]
    simp only
    split
    · split
      · have := ih counter (counter + 1) (runs ++ [(counter, 1)])
        simpa using this
      · have := ih target (counter + 1) (runs ++ [(target, 1 <<< (counter - target))])
        simpa using this
    · rfl

section TakeBack

variable {added w : Nat} {lo hi : List Nat}

/-- Lower weights, all covered, leave a best below `w`. -/
theorem highestCovered_low (hlo : ∀ x ∈ lo, 0 < x ∧ x < w) (hw : 1 <<< (w - 1) ≤ added)
    (rest : List Nat) (idx : Nat) (best : Nat × Nat) (hbest : best.2 < w) :
    ∃ best' : Nat × Nat, best'.2 < w ∧ highestCovered added (lo ++ rest) idx best =
      highestCovered added rest (idx + lo.length) best' := by
  induction lo generalizing idx best with
  | nil => exact ⟨best, hbest, rfl⟩
  | cons x lo ih =>
    obtain ⟨hpos, hlt⟩ := hlo x List.mem_cons_self
    obtain ⟨y, rfl⟩ : ∃ y, x = y + 1 := ⟨x - 1, by omega⟩
    have hcovered : ¬added < 1 <<< y := by
      have : 1 <<< y ≤ 1 <<< (w - 1) := by
        rw [Nat.one_shiftLeft, Nat.one_shiftLeft]
        exact Nat.pow_le_pow_right (by decide) (by omega)
      omega
    obtain ⟨best', hbest', he⟩ := ih (fun z hz => hlo z (List.mem_cons_of_mem _ hz)) (idx + 1)
      (if best.2 < y + 1 then (idx, y + 1) else best) (by split <;> assumption)
    refine ⟨best', hbest', ?_⟩
    rw [List.cons_append, highestCovered, if_neg hcovered, he, List.length_cons]
    congr 1
    omega

/-- Nothing behind a best weight beats it. -/
theorem highestCovered_done (hhi : ∀ x ∈ hi, 0 < x ∧ (x ≤ w ∨ added < 1 <<< (x - 1)))
    (idx i : Nat) : highestCovered added hi idx (i, w) = some (i, w) := by
  induction hi generalizing idx with
  | nil => rfl
  | cons x hi ih =>
    obtain ⟨hpos, hx⟩ := hhi x List.mem_cons_self
    obtain ⟨y, rfl⟩ : ∃ y, x = y + 1 := ⟨x - 1, by omega⟩
    rw [highestCovered]
    split
    · rfl
    · rename_i hcovered
      have hle : y + 1 ≤ w := by
        rcases hx with h | h
        · exact h
        · rw [Nat.add_sub_cancel] at h
          exact absurd h hcovered
      rw [if_neg (by simp only; omega)]
      exact ih (fun z hz => hhi z (List.mem_cons_of_mem _ hz)) _

/-- A round lowers the first of the highest covered weights. -/
theorem takeBack_step (hlo : ∀ x ∈ lo, 0 < x ∧ x < w) (hw0 : 0 < w) (hw : 1 <<< (w - 1) ≤ added)
    (hhi : ∀ x ∈ hi, 0 < x ∧ (x ≤ w ∨ added < 1 <<< (x - 1))) (fuel : Nat) :
    takeBack (fuel + 1) added (lo ++ w :: hi) =
      takeBack fuel (added - 1 <<< (w - 1)) (lo ++ (w - 1) :: hi) := by
  have hpos : 0 < added := by
    have := Nat.two_pow_pos (w - 1)
    rw [Nat.one_shiftLeft] at hw
    omega
  obtain ⟨best, hbest, hlow⟩ := highestCovered_low hlo hw (w :: hi) 0 (0, 0) hw0
  obtain ⟨v, rfl⟩ : ∃ v, w = v + 1 := ⟨w - 1, by omega⟩
  have hfound : highestCovered added (lo ++ (v + 1) :: hi) 0 (0, 0) =
      some (0 + lo.length, v + 1) := by
    rw [hlow, highestCovered, if_neg (show ¬added < 1 <<< v from Nat.not_lt.mpr hw),
      if_pos hbest]
    exact highestCovered_done hhi _ _
  simp only [takeBack, if_pos hpos, hfound, Option.bind_eq_bind, Option.bind_some]
  simp

/-- A block of the highest covered weight is lowered from its front. -/
theorem takeBack_block (hlo : ∀ x ∈ lo, 0 < x ∧ x < w) (hw2 : 2 ≤ w)
    (hhi : ∀ x ∈ hi, 0 < x ∧ added < 1 <<< (x - 1)) {c k : Nat} (hk : k ≤ c)
    (hadded : k * 1 <<< (w - 1) ≤ added) {fuel : Nat} (hfuel : k ≤ fuel) :
    takeBack fuel added (lo ++ List.replicate c w ++ hi) =
      takeBack (fuel - k) (added - k * 1 <<< (w - 1))
        (lo ++ List.replicate k (w - 1) ++ List.replicate (c - k) w ++ hi) := by
  induction k generalizing lo added c fuel with
  | zero => simp
  | succ k ih =>
    obtain ⟨c, rfl⟩ : ∃ d, c = d + 1 := ⟨c - 1, by omega⟩
    obtain ⟨fuel, rfl⟩ : ∃ f, fuel = f + 1 := ⟨fuel - 1, by omega⟩
    rw [Nat.add_one_mul] at hadded
    have hstep := @takeBack_step added w lo (List.replicate c w ++ hi) hlo (by omega) (by omega) (by
      intro x hx
      rcases List.mem_append.mp hx with hr | hr
      · obtain ⟨-, rfl⟩ := List.mem_replicate.mp hr
        exact ⟨by omega, .inl (Nat.le_refl _)⟩
      · exact ⟨(hhi x hr).1, .inr (hhi x hr).2⟩) fuel
    have hrest := @ih (added - 1 <<< (w - 1)) (lo ++ [w - 1]) (by
      intro x hx
      rcases List.mem_append.mp hx with hl | hl
      · exact hlo x hl
      · rw [List.mem_singleton.mp hl]
        omega) (fun x hx => ⟨(hhi x hx).1, Nat.lt_of_le_of_lt (Nat.sub_le _ _) (hhi x hx).2⟩) c
        (by omega) (by omega) fuel (by omega)
    have hin : lo ++ List.replicate (c + 1) w ++ hi = lo ++ w :: (List.replicate c w ++ hi) := by
      simp [List.replicate_succ]
    have hout : lo ++ (w - 1) :: (List.replicate c w ++ hi) =
        lo ++ [w - 1] ++ List.replicate c w ++ hi := by simp
    rw [hin, hstep, hout, hrest, Nat.add_one_mul, Nat.add_sub_add_right, Nat.add_sub_add_right,
      List.replicate_succ]
    congr 1
    · omega
    · simp

/-- Add a run on top, joined with one of the same weight. -/
def pushRun (w k : Nat) : List (Nat × Nat) → List (Nat × Nat)
  | (v, c) :: runs => if v = w then (v, c + k) :: runs else (w, k) :: (v, c) :: runs
  | [] => [(w, k)]

/-- `takeBack` on runs, a whole block at a time; the runs still in reach stand highest first. -/
def takeRuns : Nat → Nat → List (Nat × Nat) → List (Nat × Nat) → Option (List (Nat × Nat))
  | 0, _, _, _ => none
  | fuel + 1, added, rest, done =>
    if added = 0 then some (rest.reverse ++ done)
    else
      match rest with
      | [] => none
      | (w, c) :: below =>
        if w ≤ 1 then none
        else if added < 1 <<< (w - 1) then takeRuns fuel added below ((w, c) :: done)
        else
          let k := min c (added / 1 <<< (w - 1))
          takeRuns fuel (added - k * 1 <<< (w - 1)) (pushRun (w - 1) k below)
            (if k = c then done else (w, c - k) :: done)

/-- Runs of falling weights, none of them zero. -/
def Falling (rest : List (Nat × Nat)) : Prop :=
  (rest.map Prod.fst).Pairwise (· > ·) ∧ ∀ run ∈ rest, 0 < run.1

instance (rest : List (Nat × Nat)) : Decidable (Falling rest) :=
  inferInstanceAs (Decidable (_ ∧ _))

theorem expand_pushRun (w k : Nat) (rest : List (Nat × Nat)) :
    expand (pushRun w k rest).reverse = expand rest.reverse ++ List.replicate k w := by
  cases rest with
  | nil => simp [pushRun]
  | cons run rest =>
    rw [pushRun]
    split
    · rename_i h
      subst h
      simp [List.append_assoc]
    · simp

theorem Falling.pushRun {rest : List (Nat × Nat)} (h : Falling rest) {w k : Nat} (hw : 0 < w)
    (hle : ∀ run ∈ rest, run.1 ≤ w) : Falling (pushRun w k rest) := by
  cases rest with
  | nil => exact ⟨by simp [Encoder.pushRun], by simpa [Encoder.pushRun] using hw⟩
  | cons run rest =>
    rw [Encoder.pushRun]
    split
    · exact ⟨by simpa using h.1, by simpa using h.2⟩
    · rename_i hne
      obtain ⟨hpair, hpos⟩ := h
      have hrun := hle run List.mem_cons_self
      refine ⟨?_, ?_⟩
      · rw [List.map_cons, List.pairwise_cons]
        refine ⟨?_, hpair⟩
        intro v hv
        rw [List.map_cons, List.mem_cons] at hv
        have hlow := (List.pairwise_cons.mp hpair).1
        rcases hv with rfl | hv
        · exact Nat.lt_of_le_of_ne hrun hne
        · have : run.1 > v := hlow v hv
          simp only at *
          omega
      · intro r hr
        rcases List.mem_cons.mp hr with rfl | hr
        · exact hw
        · exact hpos r hr

/-- What the runs come to is what the weights come to. -/
theorem takeRuns_expand {fuel : Nat} {rest done out : List (Nat × Nat)} (hrest : Falling rest)
    (hdone : ∀ x ∈ expand done, 0 < x ∧ added < 1 <<< (x - 1))
    (h : takeRuns fuel added rest done = some out) {rounds : Nat} (hrounds : added ≤ rounds) :
    takeBack rounds added (expand rest.reverse ++ expand done) = some (expand out) := by
  induction fuel generalizing added rest done rounds with
  | zero => cases h
  | succ fuel ih =>
    unfold takeRuns at h
    split at h
    · rename_i h0
      subst h0
      cases h
      have hstop : ∀ ws, takeBack rounds 0 ws = some ws := by
        intro ws
        cases rounds <;> rfl
      rw [hstop, expand_append]
    · rename_i h0
      cases rest with
      | nil => cases h
      | cons run below =>
        obtain ⟨w, c⟩ := run
        obtain ⟨hpair, hpos⟩ := hrest
        have hbelow : Falling below :=
          ⟨(List.pairwise_cons.mp hpair).2, fun r hr => hpos r (List.mem_cons_of_mem _ hr)⟩
        have hlow : ∀ r ∈ below, r.1 < w := fun r hr =>
          (List.pairwise_cons.mp hpair).1 r.1 (List.mem_map_of_mem hr)
        simp only at h
        split at h
        · cases h
        · rename_i hw
          split at h
          · -- out of reach, and it stays so
            rename_i hout
            have := ih hbelow (by
              intro x hx
              rw [expand_cons] at hx
              rcases List.mem_append.mp hx with hr | hr
              · obtain ⟨-, rfl⟩ := List.mem_replicate.mp hr
                exact ⟨by omega, hout⟩
              · exact hdone x hr) h hrounds
            simpa using this
          · rename_i hin
            have hlo : ∀ x ∈ expand below.reverse, 0 < x ∧ x < w := by
              intro x hx
              obtain ⟨d, hd⟩ := mem_expand hx
              have hd := List.mem_reverse.mp hd
              exact ⟨hbelow.2 _ hd, hlow _ hd⟩
            have hpow : 0 < 1 <<< (w - 1) := by
              rw [Nat.one_shiftLeft]
              exact Nat.two_pow_pos _
            generalize hk : min c (added / 1 <<< (w - 1)) = k at h
            have hkc : k ≤ c := hk ▸ Nat.min_le_left _ _
            have hkadd : k * 1 <<< (w - 1) ≤ added :=
              (Nat.mul_le_mul_right _ (hk ▸ Nat.min_le_right _ _)).trans (Nat.div_mul_le_self _ _)
            have hkle : k ≤ k * 1 <<< (w - 1) := Nat.le_mul_of_pos_right _ hpow
            have hblock := takeBack_block hlo (by omega) hdone hkc hkadd
              (show k ≤ rounds by omega)
            have hstill : ∀ x ∈ expand (if k = c then done else (w, c - k) :: done),
                0 < x ∧ added - k * 1 <<< (w - 1) < 1 <<< (x - 1) := by
              have hsmall : ∀ x ∈ expand done, 0 < x ∧
                  added - k * 1 <<< (w - 1) < 1 <<< (x - 1) := fun x hx =>
                ⟨(hdone x hx).1, Nat.lt_of_le_of_lt (Nat.sub_le _ _) (hdone x hx).2⟩
              intro x hx
              split at hx
              · exact hsmall x hx
              · rename_i hne
                rcases List.mem_append.mp hx with hr | hr
                · -- what is left of the block is out of reach now
                  obtain ⟨-, rfl⟩ := List.mem_replicate.mp hr
                  refine ⟨by omega, ?_⟩
                  have hkq : k = added / 1 <<< (x - 1) := by omega
                  have hmod := Nat.mod_lt added hpow
                  have hdiv := Nat.div_add_mod' added (1 <<< (x - 1))
                  rw [← hkq] at hdiv
                  omega
                · exact hsmall x hr
            have hfalling : Falling (pushRun (w - 1) k below) := by
              apply hbelow.pushRun (by omega)
              intro r hr
              have := hlow r hr
              omega
            have hnext := ih hfalling hstill h (show added - k * 1 <<< (w - 1) ≤ rounds - k by omega)
            rw [expand_pushRun] at hnext
            simp only [List.reverse_cons, expand_append, expand_cons, expand_nil, List.append_nil]
            rw [hblock]
            rw [← hnext]
            congr 1
            split
            · rename_i hkc'
              rw [hkc', Nat.sub_self]
              simp
            · simp

end TakeBack

/-- `redistributeWeights` on runs that rise. -/
def redistributeRuns (runs : List (Nat × Nat)) (maxNumBits : Nat) : Option (List (Nat × Nat)) :=
  let weightSumLog := Nat.log2 (runs.map fun run => run.2 * 1 <<< run.1).sum
  if weightSumLog < maxNumBits then some runs
  else
    let floor := weightSumLog - maxNumBits + 1
    let added := (runs.map fun run => run.2 * (1 <<< floor - 1 <<< min run.1 floor)).sum
    let rest := runs.foldl (fun rest run => pushRun (max run.1 floor) run.2 rest) []
    if Falling rest then
      match takeRuns 64 added rest [] with
      | some ((w, c + 1) :: out) =>
        some (((w, c + 1) :: out).map fun run => (run.1 - (w - 1), run.2))
      | _ => none
    else none

theorem redistributeRuns_expand {runs out : List (Nat × Nat)} {maxNumBits : Nat}
    (h : redistributeRuns runs maxNumBits = some out) :
    redistributeWeights (expand runs) maxNumBits = some (expand out) := by
  have hpushed : ∀ (floor : Nat) (runs rest : List (Nat × Nat)),
      expand (runs.foldl (fun rest run => pushRun (max run.1 floor) run.2 rest) rest).reverse =
        expand rest.reverse ++ (expand runs).map (max · floor) := by
    intro floor runs
    induction runs with
    | nil => simp
    | cons run runs ih =>
      intro rest
      rw [List.foldl_cons, ih, expand_pushRun, expand_cons, List.map_append, List.map_replicate,
        List.append_assoc]
  unfold redistributeRuns at h
  simp only [redistributeWeights, expand_sum]
  simp only at h
  split at h
  · rename_i hlog
    cases h
    rw [if_pos hlog]
  · rename_i hlog
    rw [if_neg hlog]
    split at h
    · rename_i hfalling
      split at h
      · rename_i w c taken htake
        cases h
        have hback := takeRuns_expand hfalling (by simp) htake (Nat.le_refl _)
        rw [hpushed, List.reverse_nil, expand_nil, List.nil_append, List.append_nil] at hback
        have hhead : (expand ((w, c + 1) :: taken)).headD 0 = w := rfl
        rw [hback]
        simp only [Option.bind_eq_bind, Option.bind_some, hhead, expand_map]
      · cases h
    · cases h

/-- The runs of the weights that are handed out to `amount` symbols. -/
def legacyRuns (amount : Nat) : Option (List (Nat × Nat)) :=
  redistributeRuns (distributeRuns amount amount [(1, 2)] 2 1 2) (Nat.log2 amount + 2)

/-- Runs of as many weights, which are those of a complete code of at most twelve bits. -/
def runsComplete (amount : Nat) (runs : List (Nat × Nat)) : Bool :=
  let sum := (runs.map fun run => run.2 * 2 ^ (run.1 - 1)).sum
  let maxBits := Nat.log2 sum
  (runs.map Prod.snd).sum = amount && runs.all (fun run => 0 < run.1 && run.1 ≤ maxBits) &&
    sum = 2 ^ maxBits && 0 < maxBits && maxBits ≤ 12

set_option maxRecDepth 4000 in
/-- Every number of symbols gets the weights of a complete code. -/
theorem legacyRuns_complete : ∀ amount ∈ List.range' 2 255,
    (((distributeRuns amount amount [(1, 2)] 2 1 2).map Prod.snd).sum = amount) ∧
      (legacyRuns amount).any (runsComplete amount) = true := by
  decide +kernel

end Huff0.Encoder
