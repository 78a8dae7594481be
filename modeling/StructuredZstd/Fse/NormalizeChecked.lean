import StructuredZstd.Fse.NormalizeSpec
import StructuredZstd.Runs.Guarded

namespace Fse.Encoder

open Checked

/-- `roundedShare` on machine words. -/
def roundedShareChecked (scale step vStep count : Nat) : Option Int := do
  let product ← mulU64 count step
  let probability ← asI32 (product >>> scale)
  if probability < 8 then
    let restToBeat ← mulU64 vStep (rtbTable.getD probability.toNat 0)
    let rest ← subU64 product (probability.toNat <<< scale)
    addI32 probability (if restToBeat < rest then 1 else 0)
  else some probability

def scanCountsChecked (scale step vStep lowThreshold : Nat) (lowProbCount : Int) :
    List Nat → Nat → Scan → Option (List Int × Scan)
  | [], _, scan => some ([], scan)
  | count :: counts, symbol, scan =>
    if count = 0 then do
      let (normalized, scan) ← scanCountsChecked scale step vStep lowThreshold lowProbCount counts
        (symbol + 1) scan
      some (0 :: normalized, scan)
    else if count ≤ lowThreshold then do
      let still ← subI32 scan.stillToDistribute 1
      let (normalized, scan) ← scanCountsChecked scale step vStep lowThreshold lowProbCount counts
        (symbol + 1) { scan with stillToDistribute := still }
      some (lowProbCount :: normalized, scan)
    else do
      let probability ← roundedShareChecked scale step vStep count
      let scan := if (scan.largestProbability : Int) < probability then
        { scan with largestProbability := probability.toNat, largest := symbol } else scan
      let still ← subI32 scan.stillToDistribute probability
      let (normalized, scan) ← scanCountsChecked scale step vStep lowThreshold lowProbCount counts
        (symbol + 1) { scan with stillToDistribute := still }
      some (probability :: normalized, scan)

def assignSmallChecked (lowThreshold lowOne : Nat) (lowProbCount : Int) :
    List Nat → Nat → Nat → Option (List Int × Nat × Nat)
  | [], distributed, total => some ([], distributed, total)
  | count :: counts, distributed, total =>
    if count = 0 then do
      let (normalized, rest) ← assignSmallChecked lowThreshold lowOne lowProbCount counts
        distributed total
      some (0 :: normalized, rest)
    else if count ≤ lowThreshold then do
      let distributed ← addU64 distributed 1
      let total ← subU64 total count
      let (normalized, rest) ← assignSmallChecked lowThreshold lowOne lowProbCount counts
        distributed total
      some (lowProbCount :: normalized, rest)
    else if count ≤ lowOne then do
      let distributed ← addU64 distributed 1
      let total ← subU64 total count
      let (normalized, rest) ← assignSmallChecked lowThreshold lowOne lowProbCount counts
        distributed total
      some (1 :: normalized, rest)
    else do
      let (normalized, rest) ← assignSmallChecked lowThreshold lowOne lowProbCount counts
        distributed total
      some (notYetAssigned :: normalized, rest)

def assignBelowChecked (lowOne : Nat) :
    List Int → List Nat → Nat → Nat → Option (List Int × Nat × Nat)
  | p :: normalized, count :: counts, distributed, total =>
    if p = notYetAssigned ∧ count ≤ lowOne then do
      let distributed ← addU64 distributed 1
      let total ← subU64 total count
      let (normalized, rest) ← assignBelowChecked lowOne normalized counts distributed total
      some (1 :: normalized, rest)
    else do
      let (normalized, rest) ← assignBelowChecked lowOne normalized counts distributed total
      some (p :: normalized, rest)
  | normalized, _, distributed, total => some (normalized, distributed, total)

def shareAroundChecked : Nat → Nat → Nat → List Int → Option (List Int)
  | 0, _, _, _ => none
  | fuel + 1, symbol, toDistribute, normalized =>
    if toDistribute = 0 then some normalized
    else
      let next := (symbol + 1) % normalized.length
      let p := normalized.getD symbol 0
      if 0 < p then do
        let p ← addI32 p 1
        shareAroundChecked fuel next (toDistribute - 1) (normalized.set symbol p)
      else shareAroundChecked fuel next toDistribute normalized

def assignWeightsChecked (vStepLog rStep : Nat) : List Int → List Nat → Nat → Option (List Int)
  | p :: normalized, count :: counts, tmpTotal =>
    if p = notYetAssigned then do
      let tmpEnd ← addU64 tmpTotal (← mulU64 count rStep)
      let weight ← subU64 (tmpEnd >>> vStepLog) (tmpTotal >>> vStepLog)
      if weight = 0 then none
      else do
        let share ← asI32 weight
        let rest ← assignWeightsChecked vStepLog rStep normalized counts tmpEnd
        some (share :: rest)
    else do
      let rest ← assignWeightsChecked vStepLog rStep normalized counts tmpTotal
      some (p :: rest)
  | normalized, _, _ => some normalized

def distributeRestChecked (tableLog : Nat) (counts : List Nat) (normalized : List Int)
    (distributed total toDistribute : Nat) : Option (List Int) :=
  if distributed = counts.length then do
    let maxSymbol := lastLargest counts 0 (0, 0)
    let share ← addI32 (normalized.getD maxSymbol 0) (← asI32 toDistribute)
    some (normalized.set maxSymbol share)
  else if total = 0 then
    shareAroundChecked ((toDistribute + 1) * counts.length + 1) 0 toDistribute normalized
  else do
    let vStepLog ← subU64 62 tableLog
    let mid ← subU64 (1 <<< (← subU64 vStepLog 1)) 1
    let slots ← mulU64 (1 <<< vStepLog) toDistribute
    let rStep ← divU64 (← addU64 slots mid) total
    assignWeightsChecked vStepLog rStep normalized counts mid

def normalizeM2Checked (tableLog : Nat) (counts : List Nat) (total : Nat) (lowProbCount : Int) :
    Option (List Int) := do
  let lowThreshold := total >>> tableLog
  let lowOne := (← mulU64 total 3) >>> (← addU64 tableLog 1)
  let (normalized, distributed, total) ← assignSmallChecked lowThreshold lowOne lowProbCount
    counts 0 total
  let toDistribute ← subU64 (1 <<< tableLog) distributed
  if toDistribute = 0 then some normalized
  else do
    let average ← divU64 total toDistribute
    if lowOne < average then do
      let lowOne ← divU64 (← mulU64 total 3) (← mulU64 toDistribute 2)
      let (normalized, distributed, total) ← assignBelowChecked lowOne normalized counts
        distributed total
      let toDistribute ← subU64 (1 <<< tableLog) distributed
      distributeRestChecked tableLog counts normalized distributed total toDistribute
    else distributeRestChecked tableLog counts normalized distributed total toDistribute

/-- `normalizeCounts` on machine words, with the check of the sum that closes it. -/
def normalizeCountsChecked (tableLog : Nat) (counts : List Nat) (total : Nat)
    (useLowProbCount : Bool) : Option (List Int) := do
  let lowProbCount : Int := if useLowProbCount then -1 else 1
  let scale ← subU64 62 tableLog
  let step ← divU64 (1 <<< 62) total
  let vStep := 1 <<< (← subU64 scale 20)
  let (normalized, scan) ← scanCountsChecked scale step vStep (total >>> tableLog) lowProbCount
    counts 0 ⟨1 <<< tableLog, 0, 0⟩
  let largest := normalized.getD scan.largest 0
  let normalized ←
    if largest / 2 ≤ (← subI32 0 scan.stillToDistribute) then
      normalizeM2Checked tableLog counts total lowProbCount
    else do
      let share ← addI32 largest scan.stillToDistribute
      some (normalized.set scan.largest share)
  if (normalized.map Int.natAbs).sum = 1 <<< tableLog then some normalized else none


section Passes

variable {tableLog total : Nat} {low : Int} {lowThreshold limit : Nat}

theorem rtbTable_lt (i : Nat) : rtbTable.getD i 0 < 2 ^ 20 := by
  rw [List.getD_eq_getElem?_getD]
  cases hi : rtbTable[i]? with
  | none => decide
  | some r =>
    have : ∀ r ∈ rtbTable, r < 2 ^ 20 := by decide
    exact this r (List.mem_of_getElem? hi)

/-- No count times the step passes the fixed point. -/
theorem product_le {count : Nat} (hcount : count ≤ total) :
    count * (1 <<< 62 / total) ≤ 2 ^ 62 := by
  calc count * (1 <<< 62 / total) ≤ total * (1 <<< 62 / total) := Nat.mul_le_mul_right _ hcount
    _ ≤ 1 <<< 62 := Nat.mul_div_le _ _
    _ = 2 ^ 62 := Nat.one_shiftLeft 62

theorem share_le {count : Nat} (hlog : tableLog ≤ 12) (hcount : count ≤ total) :
    (count * (1 <<< 62 / total)) >>> (62 - tableLog) ≤ 2 ^ 12 := by
  have hsplit : (2 : Nat) ^ 62 = 2 ^ (62 - tableLog) * 2 ^ tableLog := by
    rw [← Nat.pow_add]
    congr 1
    omega
  rw [Nat.shiftRight_eq_div_pow]
  apply Nat.div_le_of_le_mul
  calc count * (1 <<< 62 / total) ≤ 2 ^ (62 - tableLog) * 2 ^ tableLog :=
        hsplit ▸ product_le hcount
    _ ≤ 2 ^ (62 - tableLog) * 2 ^ 12 :=
        Nat.mul_le_mul_left _ (Nat.pow_le_pow_right (by decide) hlog)

theorem roundedShare_le {count : Nat} (hlog : tableLog ≤ 12) (hcount : count ≤ total) :
    roundedShare tableLog total count ≤ 2 ^ 13 := by
  have hshare := share_le hlog hcount
  unfold roundedShare
  simp only
  split_ifs <;> omega

theorem roundedShareChecked_eq {count : Nat} (hlog : tableLog ≤ 12) (hcount : count ≤ total) :
    roundedShareChecked (62 - tableLog) (1 <<< 62 / total) (1 <<< (62 - tableLog - 20)) count =
      some (roundedShare tableLog total count : Int) := by
  have hproduct := product_le hcount
  have hshare := share_le hlog hcount
  have hstep : 1 <<< (62 - tableLog - 20) ≤ 2 ^ 42 := by
    rw [Nat.one_shiftLeft]
    exact Nat.pow_le_pow_right (by decide) (by omega)
  unfold roundedShareChecked roundedShare
  simp only
  rw [mulU64_eq (hproduct.trans_lt (by decide))]
  generalize count * (1 <<< 62 / total) = product at hproduct hshare ⊢
  simp only [Option.bind_eq_bind, Option.bind_some]
  rw [asI32_eq (hshare.trans_lt (by decide))]
  simp only [Option.bind_some, Int.toNat_natCast]
  have hfloor : product >>> (62 - tableLog) <<< (62 - tableLog) ≤ product := by
    rw [Nat.shiftRight_eq_div_pow, Nat.shiftLeft_eq]
    exact Nat.div_mul_le_self _ _
  generalize product >>> (62 - tableLog) = probability at hshare hfloor ⊢
  by_cases hsmall : probability < 8
  · have hbeat : 1 <<< (62 - tableLog - 20) * rtbTable.getD probability 0 < 2 ^ 64 :=
      calc 1 <<< (62 - tableLog - 20) * rtbTable.getD probability 0
          ≤ 2 ^ 42 * 2 ^ 20 := Nat.mul_le_mul hstep (rtbTable_lt _).le
        _ < 2 ^ 64 := by decide
    rw [if_pos (by omega), if_pos hsmall, mulU64_eq hbeat, subU64_eq hfloor]
    simp only [Option.bind_some]
    split
    · rw [addI32_eq (by omega) (by omega), Nat.cast_add, Nat.cast_one]
    · rw [addI32_eq (by omega) (by omega), Nat.add_zero, Int.add_zero]
  · rw [if_neg (by omega), if_neg hsmall]

/-- The first pass: with room below zero for every symbol that occurs, nothing overflows. -/
theorem scanCountsChecked_eq {scale step vStep : Nat} {cs : List Nat}
    (hshare : ∀ c ∈ cs, roundedShareChecked scale step vStep c =
        some (roundedShare tableLog total c : Int) ∧ roundedShare tableLog total c ≤ 2 ^ 13)
    (symbol : Nat) {scan : Scan}
    (hlow : (cs.countP (0 < ·) : Int) * 2 ^ 13 ≤ scan.stillToDistribute + 2 ^ 31)
    (hhigh : scan.stillToDistribute < 2 ^ 31) :
    scanCountsChecked scale step vStep (total >>> tableLog) low cs symbol scan =
      some (scanCounts tableLog total low cs symbol scan) := by
  induction cs generalizing symbol scan with
  | nil => rfl
  | cons c cs ih =>
    have ih' := @ih fun x hx => hshare x (List.mem_cons_of_mem c hx)
    obtain ⟨hc, hle⟩ := hshare c List.mem_cons_self
    rw [List.countP_cons] at hlow
    rw [scanCountsChecked, scanCounts]
    split
    · rw [ih' (symbol + 1) (by push_cast at hlow; omega) hhigh]
      rfl
    · rename_i h0
      have hcount : decide (0 < c) = true := decide_eq_true (Nat.pos_of_ne_zero h0)
      rw [if_pos hcount, Nat.cast_add, Nat.cast_one, Int.add_mul] at hlow
      split
      · rw [subI32_eq (by omega) (by omega)]
        have := @ih' (symbol + 1) { scan with stillToDistribute := scan.stillToDistribute - 1 }
          (by simp only; omega) (by simp only; omega)
        simp only [Option.bind_eq_bind, Option.bind_some, this]
      · rw [hc]
        simp only [Option.bind_eq_bind, Option.bind_some, Nat.cast_lt, Int.toNat_natCast]
        generalize hscan : (if scan.largestProbability < roundedShare tableLog total c then
          { scan with largestProbability := roundedShare tableLog total c, largest := symbol }
          else scan) = scan'
        have hstill : scan'.stillToDistribute = scan.stillToDistribute := by
          rw [← hscan]
          split <;> rfl
        rw [hstill, subI32_eq (by omega) (by omega)]
        have := @ih' (symbol + 1)
          ⟨scan.stillToDistribute - roundedShare tableLog total c, scan'.largest,
            scan'.largestProbability⟩ (by simp only; omega) (by simp only; omega)
        simp only [Option.bind_some, this]

theorem assignSmallChecked_eq (lowOne : Nat) (cs : List Nat) {distributed rest : Nat}
    (hsum : cs.sum ≤ rest) (hfit : distributed + cs.sum < 2 ^ 64) :
    assignSmallChecked lowThreshold lowOne low cs distributed rest =
      some (assignSmall lowThreshold lowOne low cs distributed rest) := by
  induction cs generalizing distributed rest with
  | nil => rfl
  | cons c cs ih =>
    rw [List.sum_cons] at hsum hfit
    have hkeep := @ih distributed rest (by omega) (by omega)
    rw [assignSmallChecked, assignSmall]
    split
    · simp only [hkeep, Option.bind_eq_bind, Option.bind_some]
    · rename_i h0
      have htake := @ih (distributed + 1) (rest - c) (by omega) (by omega)
      rw [addU64_eq (by omega), subU64_eq (by omega)]
      simp only [hkeep, htake, Option.bind_eq_bind, Option.bind_some]
      split_ifs <;> rfl

theorem assignBelowChecked_eq {lowOne raised : Nat} (hle : lowThreshold ≤ lowOne)
    (hlow : low = -1 ∨ low = 1) (cs : List Nat) {distributed rest : Nat}
    (hsum : largeSum lowOne cs ≤ rest) (hfit : distributed + largeSum lowOne cs < 2 ^ 64) :
    assignBelowChecked raised (cs.map (classify lowThreshold lowOne low)) cs distributed rest =
      some (assignBelow raised (cs.map (classify lowThreshold lowOne low)) cs distributed rest) := by
  induction cs generalizing distributed rest with
  | nil => rfl
  | cons c cs ih =>
    rw [largeSum_cons] at hsum hfit
    rw [List.map_cons, assignBelowChecked, assignBelow]
    split
    · rename_i htake
      have hgt : lowOne < c := by
        by_contra hno
        exact @classify_small lowThreshold lowOne c low hlow (Nat.le_of_not_lt hno) htake.1
      rw [if_pos hgt] at hsum hfit
      rw [addU64_eq (by omega), subU64_eq (by omega)]
      simp only [Option.bind_eq_bind, Option.bind_some, @ih (distributed + 1) (rest - c) (by omega) (by omega)]
    · simp only [Option.bind_eq_bind, Option.bind_some, @ih distributed rest (by omega) (by omega)]

theorem shareAroundChecked_eq (fuel symbol toDistribute : Nat) {ps : List Int}
    (hfit : ∀ p ∈ ps, p + toDistribute < 2 ^ 31) :
    shareAroundChecked fuel symbol toDistribute ps = shareAround fuel symbol toDistribute ps := by
  induction fuel generalizing symbol toDistribute ps with
  | zero => rfl
  | succ fuel ih =>
    rw [shareAroundChecked, shareAround]
    split
    · rfl
    · rename_i h0
      simp only
      split
      · rename_i hp
        have hmem : ps.getD symbol 0 ∈ ps := by
          rw [List.getD_eq_getElem?_getD] at hp ⊢
          cases hget : ps[symbol]? with
          | none => simp [hget] at hp
          | some p => exact List.mem_of_getElem? hget
        have hone := hfit _ hmem
        rw [addI32_eq (by omega) (by omega)]
        simp only [Option.bind_eq_bind, Option.bind_some]
        apply ih
        intro p hset
        rcases List.mem_or_eq_of_mem_set hset with hin | rfl
        · have := hfit p hin
          omega
        · omega
      · exact ih _ _ hfit

theorem assignWeightsChecked_eq {vStepLog rStep : Nat} (hlow : low = -1 ∨ low = 1)
    (hv : 33 ≤ vStepLog) (cs : List Nat) {tmp : Nat}
    (hfit : tmp + largeSum limit cs * rStep < 2 ^ 64) :
    assignWeightsChecked vStepLog rStep (cs.map (classify lowThreshold limit low)) cs tmp =
      assignWeights vStepLog rStep (cs.map (classify lowThreshold limit low)) cs tmp := by
  induction cs generalizing tmp with
  | nil => rfl
  | cons c cs ih =>
    rw [largeSum_cons, Nat.add_mul] at hfit
    rw [List.map_cons, assignWeightsChecked, assignWeights]
    split
    · rename_i hp
      have hgt : limit < c := by
        by_contra hno
        exact @classify_small lowThreshold limit c low hlow (Nat.le_of_not_lt hno) hp
      rw [if_pos hgt] at hfit
      have hmono : tmp >>> vStepLog ≤ (tmp + c * rStep) >>> vStepLog := by
        rw [Nat.shiftRight_eq_div_pow, Nat.shiftRight_eq_div_pow]
        exact Nat.div_le_div_right (Nat.le_add_right _ _)
      have hweight : (tmp + c * rStep) >>> vStepLog < 2 ^ 31 := by
        rw [Nat.shiftRight_eq_div_pow, Nat.div_lt_iff_lt_mul (Nat.two_pow_pos _)]
        calc tmp + c * rStep < 2 ^ 31 * 2 ^ 33 := by omega
          _ ≤ 2 ^ 31 * 2 ^ vStepLog :=
            Nat.mul_le_mul_left _ (Nat.pow_le_pow_right (by decide) hv)
      rw [mulU64_eq (by omega)]
      simp only [Option.bind_eq_bind, Option.bind_some]
      rw [addU64_eq (by omega)]
      simp only [Option.bind_some]
      rw [subU64_eq hmono]
      simp only [Option.bind_some]
      split
      · rfl
      · rw [asI32_eq ((Nat.sub_le _ _).trans_lt hweight), @ih (tmp + c * rStep) (by omega)]
        rfl
    · rw [@ih tmp (by omega)]

end Passes

section Runs

variable {tableLog total : Nat} {counts : List Nat} {low : Int} {lowThreshold limit : Nat}

theorem fixedPoint_split (hlog : tableLog ≤ 12) : 2 ^ (62 - tableLog) * 2 ^ tableLog = 2 ^ 62 := by
  rw [← Nat.pow_add]
  congr 1
  omega

theorem classify_bounds (hlow : low = -1 ∨ low = 1) (count : Nat) :
    -2 ≤ classify lowThreshold limit low count ∧ classify lowThreshold limit low count ≤ 1 := by
  unfold classify notYetAssigned
  rcases hlow with rfl | rfl <;> split_ifs <;> decide

theorem distributeRestChecked_eq (hlow : low = -1 ∨ low = 1) (hlog : tableLog ≤ 12) (served : Nat) :
    distributeRestChecked tableLog counts (counts.map (classify lowThreshold limit low)) served
        (largeSum limit counts) (2 ^ tableLog - served) =
      distributeRest tableLog counts (counts.map (classify lowThreshold limit low)) served
        (largeSum limit counts) (2 ^ tableLog - served) := by
  have hsize : 2 ^ tableLog ≤ 2 ^ 12 := Nat.pow_le_pow_right (by decide) hlog
  generalize hslots : 2 ^ tableLog - served = slots
  have hbounds : ∀ p ∈ counts.map (classify lowThreshold limit low), -2 ≤ p ∧ p ≤ 1 := by
    intro p hp
    obtain ⟨c, _, rfl⟩ := List.mem_map.mp hp
    exact classify_bounds hlow c
  unfold distributeRestChecked distributeRest
  split
  · have hget : -2 ≤ (counts.map (classify lowThreshold limit low)).getD
          (lastLargest counts 0 (0, 0)) 0 ∧
        (counts.map (classify lowThreshold limit low)).getD (lastLargest counts 0 (0, 0)) 0 ≤ 1 := by
      rw [List.getD_eq_getElem?_getD]
      cases hp : (counts.map (classify lowThreshold limit low))[lastLargest counts 0 (0, 0)]? with
      | none => decide
      | some p => exact hbounds p (List.mem_of_getElem? hp)
    simp only
    rw [asI32_eq (by omega)]
    simp only [Option.bind_eq_bind, Option.bind_some]
    rw [addI32_eq (by omega) (by omega)]
    rfl
  · split
    · apply shareAroundChecked_eq
      intro p hp
      have := hbounds p hp
      omega
    · rename_i hzero
      have hsplit := fixedPoint_split hlog
      have hpos : 1 ≤ 1 <<< (62 - tableLog - 1) := by
        rw [Nat.one_shiftLeft]
        exact Nat.one_le_two_pow
      have hmid : 1 <<< (62 - tableLog - 1) ≤ 2 ^ 62 := by
        rw [Nat.one_shiftLeft]
        exact Nat.pow_le_pow_right (by decide) (by omega)
      have hspread : 1 <<< (62 - tableLog) * slots ≤ 2 ^ 62 := by
        rw [Nat.one_shiftLeft, ← hsplit]
        exact Nat.mul_le_mul_left _ (hslots ▸ Nat.sub_le _ _)
      rw [subU64_eq (by omega)]
      simp only [Option.bind_eq_bind, Option.bind_some]
      rw [subU64_eq (by omega)]
      simp only [Option.bind_some]
      rw [subU64_eq hpos, mulU64_eq (by omega)]
      simp only [Option.bind_some]
      rw [addU64_eq (by omega)]
      simp only [Option.bind_some]
      rw [divU64_eq (Nat.pos_of_ne_zero hzero)]
      simp only [Option.bind_some]
      apply assignWeightsChecked_eq hlow (by omega)
      have := Nat.mul_div_le (1 <<< (62 - tableLog) * slots + (1 <<< (62 - tableLog - 1) - 1))
        (largeSum limit counts)
      omega

/-- The second method stays within its words. -/
theorem normalizeM2Checked_eq (h : Roomy tableLog counts total) (hlow : low = -1 ∨ low = 1) :
    normalizeM2Checked tableLog counts total low = normalizeM2 tableLog counts total low := by
  have hlog := h.log_le
  have hsize : 2 ^ tableLog ≤ 2 ^ 12 := Nat.pow_le_pow_right (by decide) hlog
  have htotal : total ≤ 2 ^ 61 := h.le.trans (Nat.pow_le_pow_right (by decide) (by omega))
  have hle : total >>> tableLog ≤ (total * 3) >>> (tableLog + 1) := by
    rw [Nat.shiftRight_eq_div_pow, Nat.shiftRight_eq_div_pow, Nat.pow_succ,
      Nat.le_div_iff_mul_le (by positivity)]
    have := Nat.div_mul_le_self total (2 ^ tableLog)
    rw [← Nat.mul_assoc]
    omega
  have hsmall := assignSmall_eq hle low counts 0 0
  rw [h.sum_eq] at hsmall
  simp only [Nat.add_zero, Nat.zero_add] at hsmall
  unfold normalizeM2Checked normalizeM2
  rw [mulU64_eq (by omega), addU64_eq (by omega)]
  simp only [Option.bind_eq_bind, Option.bind_some, Nat.one_shiftLeft]
  generalize (total * 3) >>> (tableLog + 1) = lowOne at hle hsmall
  rw [assignSmallChecked_eq lowOne counts (by rw [h.sum_eq]) (by rw [h.sum_eq]; omega)]
  simp only [hsmall, Option.bind_some]
  have hcs := smallCount_add_largeSum_le lowOne counts
  rw [h.sum_eq] at hcs
  have hcl := smallCount_le_length lowOne counts
  have hroom : smallCount lowOne counts < 2 ^ tableLog := by
    have hpos := h.pos
    have hlen := h.length_pos
    rcases h.room with hr | hr <;> omega
  rw [subU64_eq (by omega), if_neg (by omega)]
  simp only [Option.bind_some]
  rw [if_neg (by omega), if_neg (by omega), divU64_eq (by omega)]
  simp only [Option.bind_some]
  split
  · rename_i hraise
    rw [mulU64_eq (by omega), mulU64_eq (by omega)]
    simp only [Option.bind_some]
    rw [divU64_eq (by omega)]
    simp only [Option.bind_some]
    have hraised : lowOne ≤ largeSum lowOne counts * 3 /
        ((2 ^ tableLog - smallCount lowOne counts) * 2) := by
      rw [Nat.le_div_iff_mul_le (by omega)]
      have := (Nat.le_div_iff_mul_le (by omega)).mp (Nat.le_of_lt hraise)
      rw [← Nat.mul_assoc]
      omega
    have hbelow := assignBelow_eq hle hraised hlow counts 0 0
    simp only [Nat.add_zero, Nat.zero_add] at hbelow
    generalize largeSum lowOne counts * 3 / ((2 ^ tableLog - smallCount lowOne counts) * 2) =
      raised at hraised hbelow
    rw [assignBelowChecked_eq hle hlow counts (Nat.le_refl _) (by omega), hbelow]
    simp only [Option.bind_some]
    have hcl' := smallCount_le_length raised counts
    have hcs' := smallCount_add_largeSum_le raised counts
    rw [h.sum_eq] at hcs'
    have hleft : smallCount raised counts ≤ 2 ^ tableLog := by
      rcases h.room with hr | hr <;> omega
    have hle' := h.le
    rw [subU64_eq hleft, if_neg (by omega)]
    exact distributeRestChecked_eq hlow hlog _
  · have hle' := h.le
    exact distributeRestChecked_eq hlow hlog _

theorem natAbs_sum {probs : List Int} (h : ∀ p ∈ probs, -1 ≤ p) :
    (probs.map Int.natAbs).sum = weightSum probs := by
  induction probs with
  | nil => rfl
  | cons p probs ih =>
    have hp := h p List.mem_cons_self
    rw [List.map_cons, List.sum_cons, weightSum_cons, ih fun q hq => h q (List.mem_cons_of_mem p hq)]
    have hw : weight p = p.natAbs := by
      unfold weight
      split_ifs <;> omega
    rw [hw]

/-- Few symbols can occur in a table with room for them. -/
theorem Roomy.present_le (h : Roomy tableLog counts total) :
    counts.countP (0 < ·) ≤ 2 ^ 12 := by
  have hsize : 2 ^ tableLog ≤ 2 ^ 12 := Nat.pow_le_pow_right (by decide) h.log_le
  have hlen : counts.countP (0 < ·) ≤ counts.length := List.countP_le_length
  have hsum : ∀ cs : List Nat, cs.countP (0 < ·) ≤ cs.sum := by
    intro cs
    induction cs with
    | nil => rfl
    | cons c cs ih =>
      rw [List.countP_cons, List.sum_cons]
      split <;> simp_all
      omega
  have := hsum counts
  rw [h.sum_eq] at this
  rcases h.room with hr | hr <;> omega

/-- The difference the first pass carries does not run away. -/
theorem scanCounts_still {cs : List Nat} (hshare : ∀ c ∈ cs, roundedShare tableLog total c ≤ 2 ^ 13)
    (symbol : Nat) (scan : Scan) :
    scan.stillToDistribute - (cs.countP (0 < ·) : Int) * 2 ^ 13 ≤
        (scanCounts tableLog total low cs symbol scan).2.stillToDistribute ∧
      (scanCounts tableLog total low cs symbol scan).2.stillToDistribute ≤
        scan.stillToDistribute := by
  induction cs generalizing symbol scan with
  | nil => simp [scanCounts]
  | cons c cs ih =>
    have ih' := ih fun x hx => hshare x (List.mem_cons_of_mem c hx)
    have hc := hshare c List.mem_cons_self
    rw [scanCounts]
    by_cases h0 : c = 0
    · rw [if_pos h0, List.countP_cons_of_neg (by simp [h0])]
      exact ih' (symbol + 1) scan
    · have hcount : (c :: cs).countP (0 < ·) = cs.countP (0 < ·) + 1 :=
        List.countP_cons_of_pos (by simpa using Nat.pos_of_ne_zero h0)
      rw [if_neg h0, hcount, Nat.cast_add, Nat.cast_one, Int.add_mul]
      split
      · have := ih' (symbol + 1) { scan with stillToDistribute := scan.stillToDistribute - 1 }
        simp only at this ⊢
        omega
      · simp only
        split
        · have := ih' (symbol + 1) ⟨scan.stillToDistribute - roundedShare tableLog total c, symbol,
            roundedShare tableLog total c⟩
          simp only at this ⊢
          omega
        · have := ih' (symbol + 1) ⟨scan.stillToDistribute - roundedShare tableLog total c,
            scan.largest, scan.largestProbability⟩
          simp only at this ⊢
          omega

/-- On machine words normalization returns the same shares and its closing check holds. -/
theorem normalizeCountsChecked_by (h : Roomy tableLog counts total) (useLowProbCount : Bool) :
    ∃ probs, normalizeCountsChecked tableLog counts total useLowProbCount = some probs ∧
      NormalizedBy (if useLowProbCount then -1 else 1) tableLog counts probs := by
  obtain ⟨probs, hprobs, hnorm⟩ := normalizeCounts_by h useLowProbCount
  refine ⟨probs, ?_, hnorm⟩
  have hlow : (if useLowProbCount then -1 else 1 : Int) = -1 ∨
      (if useLowProbCount then -1 else 1 : Int) = 1 := by
    cases useLowProbCount with
    | true => exact .inl rfl
    | false => exact .inr rfl
  have hlog := h.log_le
  have hsize : 2 ^ tableLog ≤ 2 ^ 12 := Nat.pow_le_pow_right (by decide) hlog
  have hpresent := h.present_le
  have hmem : ∀ c ∈ counts, c ≤ total := fun c hc =>
    h.sum_eq ▸ List.single_le_sum (fun _ _ => Nat.zero_le _) c hc
  have hclose : (probs.map Int.natAbs).sum = 1 <<< tableLog := by
    rw [Nat.one_shiftLeft, ← hnorm.sum_eq]
    apply natAbs_sum
    intro p hp
    obtain ⟨i, hi, rfl⟩ := List.mem_iff_getElem.mp hp
    exact (hnorm.served.get (by rwa [hnorm.served.length_eq]) hi).1
  unfold normalizeCounts at hprobs
  unfold normalizeCountsChecked
  simp only at hprobs ⊢
  generalize (if useLowProbCount then -1 else 1 : Int) = low at hlow hprobs ⊢
  rw [subU64_eq (by omega)]
  simp only [Option.bind_eq_bind, Option.bind_some]
  rw [divU64_eq h.pos]
  simp only [Option.bind_some]
  rw [subU64_eq (by omega)]
  simp only [Option.bind_some]
  rw [scanCountsChecked_eq (fun c hc => ⟨roundedShareChecked_eq hlog (hmem c hc),
    roundedShare_le hlog (hmem c hc)⟩) 0 (by simp only [Nat.one_shiftLeft]; omega)
    (by simp only [Nat.one_shiftLeft]; omega)]
  simp only [Option.bind_some]
  obtain ⟨hdown, hup⟩ := @scanCounts_still tableLog total low counts
    (fun c hc => roundedShare_le hlog (hmem c hc)) 0 ⟨((1 <<< tableLog : Nat) : Int), 0, 0⟩
  obtain ⟨hserved, hstill⟩ := scanCounts_spec hlow
    (fun c _ hc => h.roundedShare_pos (Nat.zero_lt_of_lt hc)) 0 ⟨((1 <<< tableLog : Nat) : Int), 0, 0⟩
  generalize scanCounts tableLog total low counts 0 ⟨((1 <<< tableLog : Nat) : Int), 0, 0⟩ = r
    at hprobs hdown hup hserved hstill ⊢
  simp only [Nat.one_shiftLeft] at hdown hup hstill
  rw [subI32_eq (by omega) (by omega)]
  simp only [Option.bind_some, Int.zero_sub]
  split at hprobs
  · rename_i hsecond
    rw [if_pos hsecond, normalizeM2Checked_eq h hlow, hprobs]
    exact if_pos hclose
  · rename_i hfirst
    -- the share that takes the difference stays within the table
    have hshare : -1 ≤ r.1.getD r.2.largest 0 ∧
        r.1.getD r.2.largest 0 + r.2.stillToDistribute ≤ ((2 ^ tableLog : Nat) : Int) := by
      rcases Nat.lt_or_ge r.2.largest r.1.length with hin | hout
      · have hp := forall₂_getD hserved (List.getElem?_eq_getElem (hserved.length_eq ▸ hin))
        have hset := weightSum_set hin 0
        have hw : r.1.getD r.2.largest 0 ≤ (weight (r.1.getD r.2.largest 0) : Int) := by
          unfold weight
          split_ifs <;> omega
        rw [show weight 0 = 0 from rfl] at hset
        exact ⟨hp.1, by omega⟩
      · rw [List.getD_eq_getElem?_getD, List.getElem?_eq_none hout, Option.getD_none]
        omega
    rw [if_neg hfirst, addI32_eq (by omega) (by omega)]
    simp only [Option.bind_some]
    rw [Option.some.injEq] at hprobs
    rw [hprobs]
    exact if_pos hclose

end Runs

section Claims

variable {tableLog : Nat} {counts : List Nat}

/-- The table logs a histogram can be normalized to: `min_table_log` or more, up to the clamp. -/
structure Admissible (tableLog : Nat) (counts : List Nat) : Prop where
  min_le : minTableLog counts.sum (counts.length - 1) ≤ tableLog
  log_le : tableLog ≤ 12

/-- The log `optimal_table_log` picks for an alphabet of at most 2048 symbols is one of them. -/
theorem optimalTableLog_admissible {maxLog minus : Nat} (hlen : counts.length ≤ 2048)
    (h : optimalTableLog maxLog counts.sum (counts.length - 1) minus = some tableLog) :
    Admissible tableLog counts := by
  have hmin : minTableLog counts.sum (counts.length - 1) ≤ 12 := by
    unfold minTableLog
    refine (Nat.min_le_right _ _).trans ?_
    split
    · decide
    · rename_i h0
      have : Nat.log2 (counts.length - 1) < 11 := (Nat.log2_lt h0).mpr (by omega)
      omega
  unfold optimalTableLog at h
  split at h
  · simp at h
  · simp only [Option.some.injEq] at h
    split_ifs at h <;> exact ⟨by omega, by omega⟩

/-- Normalization on machine words neither panics nor overflows, fills the table exactly, gives a
share to the symbols that occur and to no others, and a negative one only as asked. -/
theorem normalizeCountsChecked_valid (htwo : 2 ≤ counts.sum)
    (hle : counts.sum ≤ 2 ^ (61 - tableLog))
    (hlog : Admissible tableLog counts ∨ counts.length ≤ 2048 ∧ ∃ maxLog minus,
      optimalTableLog maxLog counts.sum (counts.length - 1) minus = some tableLog)
    (useLowProbCount : Bool) :
    ∃ probs, normalizeCountsChecked tableLog counts counts.sum useLowProbCount = some probs ∧
      probs.length = counts.length ∧ (probs.map Int.natAbs).sum = 2 ^ tableLog ∧
      (∀ s, probs.getD s 0 ≠ 0 ↔ counts.getD s 0 ≠ 0) ∧
      ∀ p ∈ probs, p < 0 → p = -1 ∧ useLowProbCount = true := by
  have hadm : Admissible tableLog counts := by
    rcases hlog with h | ⟨hlen, maxLog, minus, h⟩
    · exact h
    · exact optimalTableLog_admissible hlen h
  have hne : counts.length - 1 + 1 = counts.length := by
    cases counts with
    | nil => simp at htwo
    | cons c cs => rfl
  have hroomy : Roomy tableLog counts counts.sum := by
    refine ⟨rfl, by omega, hle, hadm.log_le, ?_⟩
    have := room_of_minTableLog hadm.min_le
    rwa [hne] at this
  obtain ⟨probs, hprobs, hnorm⟩ := normalizeCountsChecked_by hroomy useLowProbCount
  have hserved : ∀ p ∈ probs, -1 ≤ p ∧ (p < 0 → (if useLowProbCount then -1 else 1 : Int) < 0) := by
    intro p hp
    obtain ⟨i, hi, rfl⟩ := List.mem_iff_getElem.mp hp
    have := hnorm.served.get (by rwa [hnorm.served.length_eq]) hi
    exact ⟨this.1, this.2.1⟩
  refine ⟨probs, hprobs, hnorm.served.length_eq.symm, ?_, fun s => ?_, fun p hp hneg => ?_⟩
  · rw [natAbs_sum fun p hp => (hserved p hp).1, hnorm.sum_eq]
  · rcases Nat.lt_or_ge s counts.length with hin | hout
    · have := forall₂_getD hnorm.served (List.getElem?_eq_getElem hin)
      have hc : counts.getD s 0 = counts[s] := by
        rw [List.getD_eq_getElem?_getD, List.getElem?_eq_getElem hin, Option.getD_some]
      rw [hc]
      exact not_congr this.2.2
    · have hp : probs.getD s 0 = 0 := by
        rw [List.getD_eq_getElem?_getD, List.getElem?_eq_none (hnorm.served.length_eq ▸ hout),
          Option.getD_none]
      have hc : counts.getD s 0 = 0 := by
        rw [List.getD_eq_getElem?_getD, List.getElem?_eq_none hout, Option.getD_none]
      exact ⟨fun h => absurd hp h, fun h => absurd hc h⟩
  · obtain ⟨hge, hlow⟩ := hserved p hp
    refine ⟨by omega, ?_⟩
    cases useLowProbCount with
    | true => rfl
    | false => exact absurd (hlow hneg) (by decide)

/-- Sixteen samples of three symbols, in a table of the smallest size. -/
theorem normalizeCountsChecked_valid_three :
    optimalTableLog 9 (List.sum [9, 0, 6, 1]) 3 2 = some 5 ∧
      ∃ probs, normalizeCountsChecked 5 [9, 0, 6, 1] (List.sum [9, 0, 6, 1]) true = some probs ∧
        (probs.map Int.natAbs).sum = 2 ^ 5 := by
  have hlog : optimalTableLog 9 (List.sum [9, 0, 6, 1]) 3 2 = some 5 := by decide
  obtain ⟨probs, hprobs, -, hsum, -⟩ := @normalizeCountsChecked_valid 5 [9, 0, 6, 1] (by decide)
    (by decide) (.inr ⟨by decide, 9, 2, hlog⟩) true
  exact ⟨hlog, probs, hprobs, hsum⟩

/-- Eight symbols whose counts add up to a little over `2 ^ 57` lose a slot: the step of the last
pass is rounded down too far, and the closing check fails. -/
theorem normalizeCounts_loses_slot :
    ∃ counts : List Nat, counts.sum = 1464 * 10 ^ 14 ∧ (∀ c ∈ counts, 0 < c) ∧
      optimalTableLog 5 counts.sum (counts.length - 1) 2 = some 5 ∧ Admissible 5 counts ∧
      normalizeCounts 5 counts counts.sum true = some [3, 4, 5, 3, 4, 5, 5, 2] ∧
      (List.map Int.natAbs [3, 4, 5, 3, 4, 5, 5, 2]).sum = 31 ∧
      normalizeCountsChecked 5 counts counts.sum true = none := by
  refine ⟨[118 * 10 ^ 14, 222 * 10 ^ 14, 222 * 10 ^ 14, 118 * 10 ^ 14, 222 * 10 ^ 14,
    222 * 10 ^ 14, 222 * 10 ^ 14, 118 * 10 ^ 14], ?_⟩
  refine ⟨by decide +kernel, by decide +kernel, by decide +kernel, ⟨by decide +kernel, by decide⟩,
    by decide +kernel, by decide, by decide +kernel⟩

end Claims

end Fse.Encoder
