import StructuredZstd.Encoding.TableSelection
import StructuredZstd.Fse.NormalizeSpec
import StructuredZstd.Fse.HeaderRoundTrip
import StructuredZstd.Fse.Transition
import Mathlib.Data.List.GetD

namespace Encoding

open Fse Fse.Encoder

/-- The three streams of sequence codes. -/
inductive SequenceStream where
  | literalLength
  | matchLength
  | offset
deriving Repr, DecidableEq

namespace SequenceStream

/-- The log its callers hold a table of the stream to. -/
def maxLog : SequenceStream → Nat
  | literalLength => 9
  | matchLength => 9
  | offset => 8

def maxCode : SequenceStream → Nat
  | literalLength => 35
  | matchLength => 52
  | offset => 31

theorem log_bounds (stream : SequenceStream) : 5 ≤ stream.maxLog ∧ stream.maxLog ≤ 9 := by
  cases stream <;> decide

theorem code_fits (stream : SequenceStream) {code : Nat} (h : code ≤ stream.maxCode) :
    2 * code < 2 ^ (stream.maxLog - 1) := by
  cases stream with
  | literalLength => exact Nat.lt_of_le_of_lt (Nat.mul_le_mul_left 2 h) (by decide)
  | matchLength => exact Nat.lt_of_le_of_lt (Nat.mul_le_mul_left 2 h) (by decide)
  | offset => exact Nat.lt_of_le_of_lt (Nat.mul_le_mul_left 2 h) (by decide)

end SequenceStream

/-- The histogram of the codes of a block, with its sum and its last code, as the callers build
them. -/
structure HistogramOf (stream : SequenceStream) (counts : List Nat) (total maxSymbol : Nat) :
    Prop where
  slots : counts.length = sequenceCodeSlots
  sum_eq : counts.sum = total
  pos : 0 < total
  le : total ≤ 2 ^ 31
  last : 0 < counts.getD maxSymbol 0
  above : ∀ s, maxSymbol < s → counts.getD s 0 = 0
  code : maxSymbol ≤ stream.maxCode

/-- A table the builder has built. -/
def BuiltTable (t : FSETable) : Prop :=
  ∃ (d : Distribution) (out : FSETable),
    buildTableFromProbabilitiesInto d.probs d.accLog out = some t

/-- A table codes a symbol: with a probability, a start state and a transition out of every
state. -/
structure Codes (t : FSETable) (symbol : Nat) : Prop where
  probability : (t.states symbol).probability ≠ 0
  start : (t.startState symbol).isSome
  next : ∀ idx < t.tableSize, (t.nextState symbol idx).isSome

/-- A table codes whatever a histogram counts. -/
def Covers (t : FSETable) (counts : List Nat) : Prop :=
  ∀ symbol, counts.getD symbol 0 ≠ 0 → Codes t symbol

/-- A histogram counts one symbol and no other. -/
def CountsOnly (counts : List Nat) (symbol : Nat) : Prop :=
  ∀ s, counts.getD s 0 ≠ 0 ↔ s = symbol

/-- A mode serves the codes of a histogram. -/
def TableChoice.Usable (previous : Option PreviousFseTable) (default : FSETable)
    (counts : List Nat) (choice : TableChoice) : Prop :=
  match choice.mode with
  | .predefined t => t = default ∧ Covers t counts
  | .encoded t => choice.next = some t ∧ Covers t counts
  | .rle symbol => CountsOnly counts symbol
  | .repeatLast (.rle symbol) => previous = some (.rle symbol) ∧ CountsOnly counts symbol
  | .repeatLast p => previous = some p ∧ ∃ t, p.asTable default = some t ∧ Covers t counts

section Tables

variable {t : FSETable} {d : Distribution}

theorem BuiltTable.tableOf (h : BuiltTable t) : ∃ d, TableOf d t := by
  obtain ⟨d, out, hbuild⟩ := h
  obtain ⟨t', hbuild', htable⟩ := build_spec d out
  rw [hbuild] at hbuild'
  cases hbuild'
  exact ⟨d, htable⟩

/-- A probability is all a built table needs to code a symbol. -/
theorem codes_of_probability (h : TableOf d t) {symbol : Nat}
    (hp : (t.states symbol).probability ≠ 0) : Codes t symbol := by
  rw [h.probability, List.getD_eq_getElem?_getD] at hp
  cases hs : d.probs[symbol]? with
  | none =>
    rw [hs] at hp
    exact absurd rfl hp
  | some p =>
    rw [hs, Option.getD_some] at hp
    refine ⟨?_, ?_, ?_⟩
    · rw [h.probability, List.getD_eq_getElem?_getD, hs]
      exact hp
    · obtain ⟨u, hu, _⟩ := h.startState_spec hs hp (d.range p (List.mem_of_getElem? hs))
      rw [hu]
      rfl
    · intro idx hidx
      obtain ⟨nb, u, hnext, _⟩ := h.nextState_spec hs hp (h.size_eq ▸ hidx)
      rw [hnext]
      rfl

theorem probability_bounds (h : TableOf d t) (symbol : Nat) :
    -1 ≤ (t.states symbol).probability ∧ (t.states symbol).probability ≤ 2 ^ d.accLog := by
  rw [h.probability, List.getD_eq_getElem?_getD]
  cases hs : d.probs[symbol]? with
  | none => exact ⟨by decide, by positivity⟩
  | some p =>
    have hlow := d.range p (List.mem_of_getElem? hs)
    have hweight := (weight_le hs).1
    refine ⟨hlow, ?_⟩
    rw [Option.getD_some]
    unfold weight at hweight
    split at hweight
    · rename_i hneg
      rw [hneg]
      exact (by decide : (-1 : Int) ≤ 0).trans (by positivity)
    · have hcast : (p.toNat : Int) ≤ ((2 ^ d.accLog : Nat) : Int) := Int.ofNat_le.mpr hweight
      push_cast at hcast
      omega

end Tables

section Prices

variable {price : Nat → Option (Option Nat)}

theorem priceCodes_isSome (h : ∀ s, (price s).isSome) (counts : List Nat) (symbol cost : Nat) :
    (priceCodes price counts symbol cost).isSome := by
  induction counts generalizing symbol cost with
  | nil => rfl
  | cons count counts ih =>
    rw [priceCodes]
    split
    · exact ih _ _
    · cases hp : price symbol with
      | none => simpa [hp] using h symbol
      | some c =>
        cases c with
        | none => rfl
        | some c => exact ih _ _

/-- A histogram has a cost only if each of its codes has a price. -/
theorem price_of_cost {counts : List Nat} {symbol cost c : Nat}
    (h : priceCodes price counts symbol cost = some (some c)) (i : Nat)
    (hi : counts.getD i 0 ≠ 0) : ∃ p, price (symbol + i) = some (some p) := by
  induction counts generalizing symbol cost i with
  | nil => exact absurd rfl hi
  | cons count counts ih =>
    rw [priceCodes] at h
    split at h
    · rename_i hzero
      cases i with
      | zero => exact absurd hzero hi
      | succ i =>
        have hnext := ih h i hi
        rwa [Nat.add_assoc, Nat.add_comm 1 i] at hnext
    · cases hp : price symbol with
      | none => simp [hp] at h
      | some p =>
        cases p with
        | none => simp [hp] at h
        | some p =>
          cases i with
          | zero => exact ⟨p, hp⟩
          | succ i =>
            simp only [hp] at h
            have hnext := ih h i hi
            rwa [Nat.add_assoc, Nat.add_comm 1 i] at hnext

theorem length_inverseProbabilityLog256 : inverseProbabilityLog256.length = 256 := by
  decide +kernel

theorem shareCost_isSome (shift : Nat) (prob : Int) : (shareCost shift prob).isSome := by
  simp only [shareCost]
  split
  · rfl
  · generalize (if prob = -1 then 1 else prob.toNat) <<< shift = norm
    split
    · rfl
    · rename_i hin
      rw [List.getElem?_eq_getElem (by rw [length_inverseProbabilityLog256]; omega)]
      rfl

theorem probability_of_shareCost {shift c : Nat} {prob : Int}
    (h : shareCost shift prob = some (some c)) : prob ≠ 0 := by
  intro hzero
  simp [shareCost, hzero] at h

theorem probability_of_bitCost {tableLog c : Nat} {prob : Int}
    (h : bitCost tableLog prob = some (some c)) : prob ≠ 0 := by
  intro hzero
  simp [bitCost, hzero] at h

/-- The price of a transform of `m` bits at most, whose narrow states start at `x`. -/
theorem transform_price {tableLog m x : Nat} (hlog : tableLog ≤ 9) (hm : 1 ≤ m)
    (hlow : 2 ^ tableLog ≤ x) (hhigh : x ≤ 2 ^ (tableLog + 1)) :
    (m <<< 16 - x) >>> 16 + 1 = m ∧ m <<< 16 - x + 2 ^ tableLog ≤ m <<< 16 ∧
      (m <<< 16 - (m <<< 16 - x + 2 ^ tableLog)) <<< 8 >>> tableLog ≤ 256 := by
  have hpos : 0 < 2 ^ tableLog := Nat.two_pow_pos _
  have hsize : 2 ^ (tableLog + 1) ≤ 2 ^ 10 := Nat.pow_le_pow_right (by decide) (by omega)
  simp only [Nat.shiftLeft_eq, Nat.shiftRight_eq_div_pow]
  refine ⟨by omega, by omega, ?_⟩
  rw [Nat.div_le_iff_le_mul_add_pred hpos]
  rw [Nat.pow_succ] at hhigh
  have hrest : m * 2 ^ 16 - (m * 2 ^ 16 - x + 2 ^ tableLog) ≤ 2 ^ tableLog := by omega
  exact (Nat.mul_le_mul_right (2 ^ 8) hrest).trans (Nat.le_add_right _ _)

theorem deltaNbBits?_spec {tableLog : Nat} {prob : Int} (hlog : 1 ≤ tableLog) (hlow : -1 ≤ prob)
    (hhigh : prob ≤ 2 ^ tableLog) (hp : prob ≠ 0) :
    ∃ m x, deltaNbBits? tableLog prob = some (some (m <<< 16 - x)) ∧ 1 ≤ m ∧
      2 ^ tableLog ≤ x ∧ x ≤ 2 ^ (tableLog + 1) := by
  simp only [deltaNbBits?]
  split
  · refine ⟨tableLog, 1 <<< tableLog, rfl, hlog, ?_, ?_⟩
    · rw [Nat.one_shiftLeft]
    · rw [Nat.one_shiftLeft]
      exact Nat.pow_le_pow_right (by decide) (Nat.le_succ _)
  · rename_i hone
    have hmany : 1 < prob := by omega
    rw [if_pos hmany]
    generalize hn : prob.toNat = p
    have hsome : prob = (p : Int) := by omega
    have htwo : 2 ≤ p := by omega
    have hle : p ≤ 2 ^ tableLog := by
      rw [hsome] at hhigh
      exact_mod_cast hhigh
    obtain ⟨hover, hunder⟩ := log2_bounds htwo
    have hbits : Nat.log2 (p - 1) < tableLog :=
      (Nat.pow_lt_pow_iff_right (by decide)).mp (Nat.lt_of_lt_of_le hover hle)
    have hsplit : Nat.log2 (p - 1) + (tableLog - Nat.log2 (p - 1)) = tableLog := by omega
    rw [if_neg (by omega)]
    refine ⟨tableLog - Nat.log2 (p - 1), p <<< (tableLog - Nat.log2 (p - 1)), rfl, by omega, ?_, ?_⟩
    · calc 2 ^ tableLog
          = 2 ^ Nat.log2 (p - 1) * 2 ^ (tableLog - Nat.log2 (p - 1)) := by
            rw [← Nat.pow_add, hsplit]
        _ ≤ p * 2 ^ (tableLog - Nat.log2 (p - 1)) := Nat.mul_le_mul_right _ hover.le
        _ = p <<< (tableLog - Nat.log2 (p - 1)) := (Nat.shiftLeft_eq _ _).symm
    · calc p <<< (tableLog - Nat.log2 (p - 1))
          = p * 2 ^ (tableLog - Nat.log2 (p - 1)) := Nat.shiftLeft_eq _ _
        _ ≤ 2 ^ (Nat.log2 (p - 1) + 1) * 2 ^ (tableLog - Nat.log2 (p - 1)) :=
            Nat.mul_le_mul_right _ hunder
        _ = 2 ^ (tableLog + 1) := by
            rw [← Nat.pow_add]
            congr 1
            omega

/-- A probability within the table is priced without a subtraction below zero. -/
theorem bitCost_isSome {tableLog : Nat} {prob : Int} (hlog : 1 ≤ tableLog) (hlog' : tableLog ≤ 9)
    (hlow : -1 ≤ prob) (hhigh : prob ≤ 2 ^ tableLog) : (bitCost tableLog prob).isSome := by
  simp only [bitCost]
  split
  · rfl
  · rename_i hp
    obtain ⟨m, x, hdelta, hm, hx, hx'⟩ := deltaNbBits?_spec hlog hlow hhigh hp
    obtain ⟨hbits, hle, hnorm⟩ := transform_price hlog' hm hx hx'
    rw [hdelta]
    simp only [hbits, Nat.one_shiftLeft]
    rw [if_neg (Nat.not_lt.mpr hle), if_neg (by omega)]
    split
    · rfl
    · rfl

/-- Under its own frequencies a code that is not all of the histogram has an entry. -/
theorem entropyCost_isSome {counts : List Nat} {total : Nat} (h : ∀ c ∈ counts, c < total)
    (cost : Nat) : (entropyCost counts total cost).isSome := by
  induction counts generalizing cost with
  | nil => rfl
  | cons count counts ih =>
    have hrest : ∀ c ∈ counts, c < total := fun c hc => h c (List.mem_cons_of_mem count hc)
    rw [entropyCost]
    split
    · exact ih hrest cost
    · have hlt : count < total := h count List.mem_cons_self
      have hnorm : 256 * count / total < 256 :=
        (Nat.div_lt_iff_lt_mul (by omega)).mpr (Nat.mul_lt_mul_of_pos_left hlt (by decide))
      dsimp only
      generalize hn : (if 256 * count / total = 0 then 1 else 256 * count / total) = norm
      have hin : norm < 256 := by
        rw [← hn]
        split
        · decide
        · exact hnorm
      rw [List.getElem?_eq_getElem (by rwa [length_inverseProbabilityLog256])]
      exact ih hrest _

end Prices

section Costs

variable {t : FSETable} {d : Distribution} {alphabet : List Nat}

theorem tableSize_ne_zero (h : TableOf d t) : t.tableSize ≠ 0 := by
  rw [h.size_eq]
  exact Nat.ne_of_gt d.size_pos

theorem fseBitCost_isSome (h : TableOf d t) (alphabet : List Nat) :
    (fseBitCost alphabet t).isSome := by
  rw [fseBitCost, if_neg (tableSize_ne_zero h), h.accLog_eq]
  apply priceCodes_isSome
  intro s
  obtain ⟨hlow, hhigh⟩ := probability_bounds h s
  exact bitCost_isSome (Nat.le_trans (by decide) d.log_ge) d.log_le hlow hhigh

theorem crossEntropyCost_isSome (h : TableOf d t) (alphabet : List Nat) :
    (crossEntropyCost alphabet t).isSome := by
  rw [crossEntropyCost, if_neg (tableSize_ne_zero h)]
  dsimp only
  split
  · rfl
  · exact priceCodes_isSome (fun s => shareCost_isSome _ _) _ _ _

/-- A table with a bit cost codes all that is counted. -/
theorem codes_of_fseBitCost (h : TableOf d t) {c : Nat}
    (hc : fseBitCost alphabet t = some (some c)) {s : Nat} (hs : alphabet.getD s 0 ≠ 0) :
    Codes t s := by
  rw [fseBitCost, if_neg (tableSize_ne_zero h)] at hc
  obtain ⟨p, hp⟩ := price_of_cost hc s hs
  rw [Nat.zero_add] at hp
  exact codes_of_probability h (probability_of_bitCost hp)

/-- So does one with a cross entropy. -/
theorem codes_of_crossEntropyCost (h : TableOf d t) {c : Nat}
    (hc : crossEntropyCost alphabet t = some (some c)) {s : Nat} (hs : alphabet.getD s 0 ≠ 0) :
    Codes t s := by
  rw [crossEntropyCost, if_neg (tableSize_ne_zero h)] at hc
  dsimp only at hc
  split at hc
  · cases hc
  · obtain ⟨p, hp⟩ := price_of_cost hc s hs
    rw [Nat.zero_add] at hp
    exact codes_of_probability h (probability_of_shareCost hp)

end Costs

/-- Several codes leave none of them all of the histogram. -/
theorem add_countP_le {counts : List Nat} {c : Nat} (h : c ∈ counts) :
    c + counts.countP (0 < ·) ≤ counts.sum + 1 := by
  induction counts with
  | nil => cases h
  | cons x xs ih =>
    have hle : xs.countP (0 < ·) ≤ xs.sum := by
      clear ih h
      induction xs with
      | nil => rfl
      | cons y ys ih =>
        rw [List.countP_cons, List.sum_cons]
        split
        · rename_i hy
          have := of_decide_eq_true hy
          omega
        · omega
    rw [List.countP_cons, List.sum_cons]
    rcases List.mem_cons.mp h with rfl | h
    · split <;> omega
    · have hrest := ih h
      split
      · rename_i hx
        have := of_decide_eq_true hx
        omega
      · omega

namespace HistogramOf

variable {stream : SequenceStream} {counts : List Nat} {total maxSymbol : Nat}

theorem symbol_lt (h : HistogramOf stream counts total maxSymbol) : maxSymbol < counts.length := by
  by_contra hge
  have hlast := h.last
  rw [List.getD_eq_default _ _ (Nat.le_of_not_lt hge)] at hlast
  exact Nat.lt_irrefl 0 hlast

theorem alphabet_length (h : HistogramOf stream counts total maxSymbol) :
    (counts.take (maxSymbol + 1)).length = maxSymbol + 1 := by
  rw [List.length_take]
  exact Nat.min_eq_left h.symbol_lt

/-- The live slots hold the whole histogram. -/
theorem alphabet_getD (h : HistogramOf stream counts total maxSymbol) (s : Nat) :
    (counts.take (maxSymbol + 1)).getD s 0 = counts.getD s 0 := by
  rcases Nat.lt_or_ge maxSymbol s with hs | hs
  · rw [h.above s hs, List.getD_eq_default _ _ (by rw [h.alphabet_length]; exact hs)]
  · rw [List.getD_eq_getElem?_getD, List.getD_eq_getElem?_getD,
      List.getElem?_take_of_lt (Nat.lt_succ_of_le hs)]

theorem alphabet_sum (h : HistogramOf stream counts total maxSymbol) :
    (counts.take (maxSymbol + 1)).sum = total := by
  rw [sum_take_of_zero fun s hs => h.above s hs, h.sum_eq]

theorem alphabet_lastCounted (h : HistogramOf stream counts total maxSymbol) :
    lastCounted (counts.take (maxSymbol + 1)) = maxSymbol := by
  have hsum : 0 < (counts.take (maxSymbol + 1)).sum := by
    rw [h.alphabet_sum]
    exact h.pos
  obtain ⟨hlt, _, hzero⟩ := lastCounted_spec hsum
  rw [h.alphabet_length] at hlt
  apply Nat.le_antisymm (Nat.le_of_lt_succ hlt)
  by_contra hbefore
  have hnone := hzero maxSymbol (Nat.lt_of_not_le hbefore)
  rw [h.alphabet_getD] at hnone
  exact Nat.ne_of_gt h.last hnone

theorem take_succ (h : HistogramOf stream counts total maxSymbol) :
    counts.take (maxSymbol + 1) = counts.take maxSymbol ++ [counts.getD maxSymbol 0] := by
  rw [List.take_add_one, List.getD_eq_getElem?_getD, List.getElem?_eq_getElem h.symbol_lt]
  rfl

theorem countP_alphabet (h : HistogramOf stream counts total maxSymbol) :
    (counts.take (maxSymbol + 1)).countP (0 < ·) =
      (counts.take maxSymbol).countP (0 < ·) + 1 := by
  rw [h.take_succ, List.countP_append, List.countP_singleton, decide_eq_true h.last]
  rfl

/-- A histogram of one distinct code counts its last code only. -/
theorem countsOnly (h : HistogramOf stream counts total maxSymbol)
    (hone : (counts.take (maxSymbol + 1)).countP (0 < ·) = 1) : CountsOnly counts maxSymbol := by
  rw [h.countP_alphabet, Nat.add_eq_right, List.countP_eq_zero] at hone
  intro s
  constructor
  · intro hs
    by_contra hne
    rcases Nat.lt_or_gt_of_ne hne with hlt | hgt
    · have hin : s < (counts.take maxSymbol).length := by
        rw [List.length_take]
        exact Nat.lt_min.mpr ⟨hlt, hlt.trans h.symbol_lt⟩
      have hzero := hone _ (List.getElem_mem hin)
      rw [List.getElem_take] at hzero
      rw [List.getD_eq_getElem _ _ (hlt.trans h.symbol_lt)] at hs
      exact hzero (decide_eq_true (Nat.pos_of_ne_zero hs))
    · exact hs (h.above s hgt)
  · rintro rfl
    exact Nat.ne_of_gt h.last

theorem lt_total (h : HistogramOf stream counts total maxSymbol)
    (htwo : 2 ≤ (counts.take (maxSymbol + 1)).countP (0 < ·)) :
    ∀ c ∈ counts.take (maxSymbol + 1), c < total := by
  intro c hc
  have hle := add_countP_le hc
  rw [h.alphabet_sum] at hle
  omega

theorem two_le_total (h : HistogramOf stream counts total maxSymbol)
    (htwo : 2 ≤ (counts.take (maxSymbol + 1)).countP (0 < ·)) : 2 ≤ total := by
  have hmem : counts.getD maxSymbol 0 ∈ counts.take (maxSymbol + 1) := by
    rw [h.take_succ]
    exact List.mem_append_right _ (List.mem_singleton_self _)
  have hlt := h.lt_total htwo _ hmem
  have := h.last
  omega

end HistogramOf

theorem sum_set {xs : List Nat} {i : Nat} (h : i < xs.length) (y : Nat) :
    (xs.set i y).sum + xs.getD i 0 = xs.sum + y := by
  induction xs generalizing i with
  | nil => cases h
  | cons x xs ih =>
    cases i with
    | zero =>
      rw [List.set_cons_zero, List.sum_cons, List.sum_cons, List.getD_cons_zero]
      omega
    | succ i =>
      have hrest := ih (Nat.lt_of_succ_lt_succ h)
      rw [List.set_cons_succ, List.sum_cons, List.sum_cons, List.getD_cons_succ]
      omega

section Building

variable {tableLog : Nat} {counts probs : List Nat}

/-- A normalized histogram is a distribution. -/
theorem distribution_of_normalized {probs : List Int} (h : Normalized tableLog counts probs)
    (hlen : counts.length ≤ 256) (hlow : 5 ≤ tableLog) (hhigh : tableLog ≤ 9) :
    ∃ d : Distribution, d.probs = probs ∧ d.accLog = tableLog := by
  refine ⟨⟨probs, tableLog, ?_, ?_, h.sum_eq, hlow, hhigh⟩, rfl, rfl⟩
  · rw [← h.served.length_eq]
    exact hlen
  · intro p hp
    obtain ⟨i, hi, rfl⟩ := List.mem_iff_getElem.mp hp
    have hi' : i < counts.length := by rwa [h.served.length_eq]
    exact (h.served.get hi' hi).1

/-- The table of a normalized histogram codes what is counted. -/
theorem build_of_normalized {probs : List Int} (h : Normalized tableLog counts probs)
    (hlen : counts.length ≤ 256) (hlow : 5 ≤ tableLog) (hhigh : tableLog ≤ 9) (out : FSETable) :
    ∃ t, buildTableFromProbabilitiesInto probs tableLog out = some t ∧ Covers t counts := by
  obtain ⟨d, rfl, rfl⟩ := distribution_of_normalized h hlen hlow hhigh
  obtain ⟨t, hbuild, htable⟩ := build_spec d out
  refine ⟨t, hbuild, ?_⟩
  intro s hs
  apply codes_of_probability htable
  rw [htable.probability]
  cases hc : counts[s]? with
  | none =>
    rw [List.getD_eq_getElem?_getD, hc] at hs
    exact absurd rfl hs
  | some c =>
    intro hzero
    have hserved := (forall₂_getD h.served hc).2.mp hzero
    rw [List.getD_eq_getElem?_getD, hc] at hs
    exact hs hserved

theorem ncountHeaderBits_isSome (d : Distribution) {len : Nat} {prob : Nat → Int}
    (hlen : d.probs.length ≤ len) (hprob : ∀ k, prob k = d.probs.getD k 0) :
    (ncountHeaderBits len prob d.accLog).isSome := by
  obtain ⟨body, hbody, _⟩ := writeNcountBody_spec hlen hprob (BitIo.BitWriter.ofOutput [])
  obtain ⟨n, _, hbits⟩ := ncountHeaderBits_body hbody
  rw [hbits]
  rfl

end Building

namespace HistogramOf

variable {stream : SequenceStream} {counts : List Nat} {total maxSymbol : Nat}

/-- The log of the stream's table, and the room it leaves the histogram. -/
theorem tableLog_spec (h : HistogramOf stream counts total maxSymbol) (htwo : 2 ≤ total) :
    ∃ log, optimalTableLog stream.maxLog total maxSymbol 2 = some log ∧ 5 ≤ log ∧ log ≤ 9 ∧
      (2 * (maxSymbol + 1) ≤ 2 ^ log ∨ total < 2 ^ log) := by
  obtain ⟨hmin, hmax⟩ := stream.log_bounds
  obtain ⟨log, hlog, hlow, hhigh, hroom⟩ :=
    optimalTableLog_spec 2 htwo hmin (hmax.trans (by decide)) (stream.code_fits h.code)
  exact ⟨log, hlog, hlow, hhigh.trans hmax, hroom⟩

theorem length_le (h : HistogramOf stream counts total maxSymbol) :
    (counts.take (maxSymbol + 1)).length ≤ 256 := by
  rw [List.length_take, h.slots]
  exact (Nat.min_le_right _ _).trans (by decide)

/-- The histogram as it stands is normalized without a panic. -/
theorem normalizeHistogram_spec (h : HistogramOf stream counts total maxSymbol) (htwo : 2 ≤ total)
    (avoid0Numbit : Bool) :
    ∃ probs log, normalizeHistogram (counts.take (maxSymbol + 1)) stream.maxLog avoid0Numbit =
        some (probs, log) ∧ 5 ≤ log ∧ log ≤ 9 ∧
      Normalized log (counts.take (maxSymbol + 1)) probs := by
  obtain ⟨log, hlog, hlow, hhigh, hroom⟩ := h.tableLog_spec htwo
  have hroomy : Roomy log (counts.take (maxSymbol + 1)) total := by
    refine ⟨h.alphabet_sum, h.pos, le_fixedPoint h.le (hhigh.trans (by decide)),
      hhigh.trans (by decide), ?_⟩
    rw [h.alphabet_length]
    exact hroom
  obtain ⟨probs, hprobs, hnorm⟩ := normalizeCounts_spec hroomy avoid0Numbit
  refine ⟨probs, log, ?_, hlow, hhigh, hnorm⟩
  have htake : (counts.take (maxSymbol + 1)).take (maxSymbol + 1) =
      counts.take (maxSymbol + 1) := by
    rw [List.take_take, Nat.min_self]
  simp only [normalizeHistogram, h.alphabet_sum, h.alphabet_lastCounted, hlog, htake,
    Option.bind_eq_bind, Option.bind_some, hprobs, h.alphabet_length, Nat.sub_self,
    List.replicate_zero, List.append_nil]

/-- So is the histogram without an occurrence of its last code. -/
theorem normalizeSeqCounts_spec (h : HistogramOf stream counts total maxSymbol) (htwo : 2 ≤ total)
    {lastCode : Nat} (hlast : lastCode ≤ maxSymbol) :
    ∃ probs log adjusted, normalizeSeqCounts (counts.take (maxSymbol + 1)) stream.maxLog lastCode =
        some (probs, log) ∧ 5 ≤ log ∧ log ≤ 9 ∧ Normalized log adjusted probs ∧
      adjusted.length = maxSymbol + 1 ∧
      ∀ s, adjusted.getD s 0 ≠ 0 ↔ (counts.take (maxSymbol + 1)).getD s 0 ≠ 0 := by
  obtain ⟨log, hlog, hlow, hhigh, hroom⟩ := h.tableLog_spec htwo
  generalize halpha : counts.take (maxSymbol + 1) = alphabet
  have hlen : alphabet.length = maxSymbol + 1 := halpha ▸ h.alphabet_length
  have hsum : alphabet.sum = total := halpha ▸ h.alphabet_sum
  have hcounted : lastCounted alphabet = maxSymbol := halpha ▸ h.alphabet_lastCounted
  have hin : lastCode < alphabet.length := by
    rw [hlen]
    exact Nat.lt_succ_of_le hlast
  have htake (xs : List Nat) (hxs : xs.length = maxSymbol + 1) : xs.take (maxSymbol + 1) = xs := by
    rw [← hxs, List.take_length]
  by_cases hadjust : 1 < alphabet.getD lastCode 0
  · generalize hx : alphabet.set lastCode (alphabet.getD lastCode 0 - 1) = adjusted
    have hxlen : adjusted.length = maxSymbol + 1 := by rw [← hx, List.length_set, hlen]
    have hxsum : adjusted.sum = total - 1 := by
      have hset := sum_set hin (alphabet.getD lastCode 0 - 1)
      rw [hx, hsum] at hset
      omega
    have hroomy : Roomy log adjusted (total - 1) := by
      refine ⟨hxsum, by omega,
        le_fixedPoint ((Nat.sub_le _ _).trans h.le) (hhigh.trans (by decide)),
        hhigh.trans (by decide), ?_⟩
      rw [hxlen]
      omega
    obtain ⟨probs, hprobs, hnorm⟩ := normalizeCounts_spec hroomy (decide (2048 ≤ total - 1))
    refine ⟨probs, log, adjusted, ?_, hlow, hhigh, hnorm, hxlen, ?_⟩
    · simp only [normalizeSeqCounts, hsum, hcounted, hlog, Option.bind_eq_bind, Option.bind_some,
        hadjust, if_true, hx, htake adjusted hxlen, hprobs]
    · intro s
      rw [← hx, List.getD_eq_getElem?_getD, List.getElem?_set]
      by_cases hs : lastCode = s
      · subst hs
        rw [if_pos rfl, if_pos hin, Option.getD_some]
        omega
      · rw [if_neg hs, ← List.getD_eq_getElem?_getD]
  · have hroomy : Roomy log alphabet total := by
      refine ⟨hsum, h.pos, le_fixedPoint h.le (hhigh.trans (by decide)),
        hhigh.trans (by decide), ?_⟩
      rw [hlen]
      exact hroom
    obtain ⟨probs, hprobs, hnorm⟩ := normalizeCounts_spec hroomy (decide (2048 ≤ total))
    refine ⟨probs, log, alphabet, ?_, hlow, hhigh, hnorm, hlen, fun s => Iff.rfl⟩
    simp only [normalizeSeqCounts, hsum, hcounted, hlog, Option.bind_eq_bind, Option.bind_some,
      hadjust, if_false, htake alphabet hlen, hprobs]

/-- The last code is put back where it was taken from. -/
theorem restored {alphabet : List Nat} {lastCode : Nat} (hin : lastCode < alphabet.length) :
    (if 1 < alphabet.getD lastCode 0 then
      (if 1 < alphabet.getD lastCode 0 then
        alphabet.set lastCode (alphabet.getD lastCode 0 - 1) else alphabet).set lastCode
          ((if 1 < alphabet.getD lastCode 0 then
            alphabet.set lastCode (alphabet.getD lastCode 0 - 1) else alphabet).getD lastCode 0 + 1)
      else if 1 < alphabet.getD lastCode 0 then
        alphabet.set lastCode (alphabet.getD lastCode 0 - 1) else alphabet) = alphabet := by
  by_cases hadjust : 1 < alphabet.getD lastCode 0
  · have hget : (alphabet.set lastCode (alphabet.getD lastCode 0 - 1)).getD lastCode 0 + 1 =
        alphabet.getD lastCode 0 := by
      rw [List.getD_eq_getElem?_getD, List.getElem?_set_self hin, Option.getD_some]
      omega
    simp only [if_pos hadjust, hget, List.set_set]
    rw [List.getD_eq_getElem _ _ hin, List.set_getElem_self]
  · simp only [if_neg hadjust]

theorem covers_of_alphabet (h : HistogramOf stream counts total maxSymbol) {t : FSETable}
    (ht : Covers t (counts.take (maxSymbol + 1))) : Covers t counts :=
  fun s hs => ht s (by rwa [h.alphabet_getD])

/-- The table a block is given codes all its codes, and the histogram is whole again. -/
theorem buildSeqCtable_spec (h : HistogramOf stream counts total maxSymbol) (htwo : 2 ≤ total)
    {lastCode : Nat} (hlast : lastCode ≤ maxSymbol) (out : FSETable) :
    ∃ t, buildSeqCtable (counts.take (maxSymbol + 1)) stream.maxLog lastCode out =
        some (t, counts.take (maxSymbol + 1)) ∧ Covers t counts := by
  obtain ⟨probs, log, adjusted, hprobs, hlow, hhigh, hnorm, hlen, hsame⟩ :=
    h.normalizeSeqCounts_spec htwo hlast
  have hlen' : adjusted.length ≤ 256 := by
    rw [hlen, ← h.alphabet_length]
    exact h.length_le
  obtain ⟨t, hbuild, hcovers⟩ := build_of_normalized hnorm hlen' hlow hhigh out
  have hin : lastCode < (counts.take (maxSymbol + 1)).length := by
    rw [h.alphabet_length]
    exact Nat.lt_succ_of_le hlast
  refine ⟨t, ?_, h.covers_of_alphabet fun s hs => hcovers s ((hsame s).mpr hs)⟩
  simp only [buildSeqCtable, buildSeqCtableInto, hprobs, hbuild, Option.bind_eq_bind,
    Option.bind_some, if_neg (Nat.not_le.mpr hin)]
  rw [restored hin]

/-- So does the table of a plain histogram. -/
theorem buildTableFromCounts_spec (h : HistogramOf stream counts total maxSymbol)
    (htwo : 2 ≤ total) (avoid0Numbit : Bool) (out : FSETable) :
    ∃ t, buildTableFromCountsInto (counts.take (maxSymbol + 1)) stream.maxLog avoid0Numbit out =
      some t ∧ Covers t counts := by
  obtain ⟨probs, log, hprobs, hlow, hhigh, hnorm⟩ := h.normalizeHistogram_spec htwo avoid0Numbit
  obtain ⟨t, hbuild, hcovers⟩ := build_of_normalized hnorm h.length_le hlow hhigh out
  refine ⟨t, ?_, h.covers_of_alphabet hcovers⟩
  simp only [buildTableFromCountsInto, hprobs, Option.bind_eq_bind, Option.bind_some, hbuild]

theorem newTotalCost_isSome (h : HistogramOf stream counts total maxSymbol)
    (htwo : 2 ≤ (counts.take (maxSymbol + 1)).countP (0 < ·)) (useLowProbCount : Bool) :
    ∃ cost, newTotalCost (counts.take (maxSymbol + 1)) total stream.maxLog 2 useLowProbCount =
      some (some cost) := by
  obtain ⟨probs, log, hprobs, hlow, hhigh, hnorm⟩ :=
    h.normalizeHistogram_spec (h.two_le_total htwo) useLowProbCount
  obtain ⟨d, rfl, rfl⟩ := distribution_of_normalized hnorm h.length_le hlow hhigh
  have hheader : (ncountHeaderBits (counts.take (maxSymbol + 1)).length
      (fun i => d.probs.getD i 0) d.accLog).isSome :=
    ncountHeaderBits_isSome d hnorm.served.length_eq.ge fun _ => rfl
  obtain ⟨header, hheader⟩ := Option.isSome_iff_exists.mp hheader
  obtain ⟨entropy, hentropy⟩ :=
    Option.isSome_iff_exists.mp (entropyCost_isSome (h.lt_total htwo) 0)
  refine ⟨header + entropy, ?_⟩
  simp only [newTotalCost, fseHeaderBitsForCounts, hprobs, hheader, hentropy, Option.bind_eq_bind,
    Option.bind_some, Nat.one_lt_ofNat, if_true]

theorem chooseNew_spec (h : HistogramOf stream counts total maxSymbol) (htwo : 2 ≤ total)
    {lastCode : Option Nat} (hlast : ∀ code, lastCode = some code → code ≤ maxSymbol)
    (useLowProbCount : Bool) (next : Option FSETable) :
    ∃ t, chooseNew counts (counts.take (maxSymbol + 1)) stream.maxLog lastCode useLowProbCount next =
      some ⟨.encoded t, counts, some t⟩ ∧ Covers t counts := by
  cases lastCode with
  | none =>
    obtain ⟨t, hbuild, hcovers⟩ :=
      h.buildTableFromCounts_spec htwo useLowProbCount (next.getD FSETable.blank)
    exact ⟨t, by simp only [chooseNew, hbuild, Option.bind_eq_bind, Option.bind_some], hcovers⟩
  | some code =>
    obtain ⟨t, hbuild, hcovers⟩ :=
      h.buildSeqCtable_spec htwo (hlast code rfl) (next.getD FSETable.blank)
    refine ⟨t, ?_, hcovers⟩
    simp only [chooseNew, hbuild, Option.bind_eq_bind, Option.bind_some]
    rw [h.alphabet_length, List.take_append_drop]

end HistogramOf

/-- The best choice has a cost, and there is one where the new table has a cost. -/
theorem cheapest_spec (previous predefined : Option Nat) (new : Nat) :
    ∃ cost choice,
      cheaper (cheaper (cheaper none previous .previous) predefined .predefined) (some new) .new =
        some (cost, choice) ∧
      match choice with
      | .previous => previous.isSome = true
      | .predefined => predefined.isSome = true
      | .new => True := by
  cases previous with
  | none =>
    cases predefined with
    | none => exact ⟨new, .new, rfl, trivial⟩
    | some q =>
      by_cases hq : q ≤ new
      · exact ⟨q, .predefined, if_pos hq, rfl⟩
      · exact ⟨new, .new, if_neg hq, trivial⟩
  | some p =>
    cases predefined with
    | none =>
      by_cases hp : p ≤ new
      · exact ⟨p, .previous, if_pos hp, rfl⟩
      · exact ⟨new, .new, if_neg hp, trivial⟩
    | some q =>
      simp only [cheaper]
      by_cases hpq : p ≤ q
      · rw [if_pos hpq]
        by_cases hp : p ≤ new
        · exact ⟨p, .previous, if_pos hp, rfl⟩
        · exact ⟨new, .new, if_neg hp, trivial⟩
      · rw [if_neg hpq]
        by_cases hq : q ≤ new
        · exact ⟨q, .predefined, if_pos hq, rfl⟩
        · exact ⟨new, .new, if_neg hq, trivial⟩

section Selection

variable {stream : SequenceStream} {counts : List Nat} {total maxSymbol : Nat}
  {previous : Option PreviousFseTable} {default : FSETable} {next : Option FSETable}

/-- The tables at hand: the default one is built, and so is one that is remembered. -/
structure TablesBuilt (previous : Option PreviousFseTable) (default : FSETable) : Prop where
  default : BuiltTable default
  custom : ∀ t, previous = some (.custom t) → BuiltTable t

theorem TablesBuilt.asTable (h : TablesBuilt previous default) {p : PreviousFseTable}
    {t : FSETable} (hp : previous = some p) (ht : p.asTable default = some t) : BuiltTable t := by
  cases p with
  | default =>
    cases ht
    exact h.default
  | custom table =>
    cases ht
    exact h.custom t hp
  | rle symbol => cases ht

/-- The cost of a repeat never panics, and a table that has one codes all that is counted. -/
theorem previousCost_spec (h : TablesBuilt previous default) (alphabet : List Nat) :
    ∃ cost, previousCost previous default alphabet = some cost ∧
      (cost.isSome = true → ∃ p t, previous = some p ∧ p.asTable default = some t ∧
        Covers t alphabet) := by
  simp only [previousCost]
  cases htable : previous.bind (·.asTable default) with
  | none => exact ⟨none, rfl, nofun⟩
  | some t =>
    obtain ⟨p, hp, ht⟩ := Option.bind_eq_some_iff.mp htable
    obtain ⟨d, hd⟩ := (h.asTable hp ht).tableOf
    obtain ⟨cost, hcost⟩ := Option.isSome_iff_exists.mp (fseBitCost_isSome hd alphabet)
    refine ⟨cost, hcost, ?_⟩
    intro hsome
    obtain ⟨c, rfl⟩ := Option.isSome_iff_exists.mp hsome
    exact ⟨p, t, hp, ht, fun s hs => codes_of_fseBitCost hd hcost hs⟩

/-- A repeat of a table that codes all is usable. -/
theorem usable_repeat {p : PreviousFseTable} {t : FSETable} (hp : previous = some p)
    (ht : p.asTable default = some t) (hcovers : Covers t counts) :
    TableChoice.Usable previous default counts ⟨.repeatLast p, counts, next⟩ := by
  cases p with
  | default => exact ⟨hp, t, ht, hcovers⟩
  | custom table => exact ⟨hp, t, ht, hcovers⟩
  | rle symbol => cases ht

theorem singleCodeMode_usable (h : HistogramOf stream counts total maxSymbol)
    (hdefault : BuiltTable default)
    (hone : (counts.take (maxSymbol + 1)).countP (0 < ·) = 1) :
    TableChoice.Usable previous default counts
      ⟨singleCodeMode previous default total maxSymbol, counts, next⟩ := by
  have honly := h.countsOnly hone
  obtain ⟨d, hd⟩ := hdefault.tableOf
  have hfresh : TableChoice.Usable previous default counts
      ⟨if total ≤ 2 ∧ (default.states maxSymbol).probability ≠ 0 then .predefined default
        else .rle maxSymbol, counts, next⟩ := by
    split
    · rename_i hcheap
      refine ⟨rfl, ?_⟩
      intro s hs
      rw [(honly s).mp hs]
      exact codes_of_probability hd hcheap.2
    · exact honly
  simp only [singleCodeMode]
  split
  · rename_i prevSymbol
    split
    · rename_i hsame
      rw [hsame]
      exact ⟨rfl, honly⟩
    · exact hfresh
  · exact hfresh

theorem chooseByCost_usable (h : HistogramOf stream counts total maxSymbol)
    (htables : TablesBuilt previous default)
    (htwo : 2 ≤ (counts.take (maxSymbol + 1)).countP (0 < ·)) {lastCode : Option Nat}
    (hlast : ∀ code, lastCode = some code → code ≤ maxSymbol) (next : Option FSETable) :
    ∃ choice, chooseByCost previous default counts total maxSymbol stream.maxLog 2 lastCode next =
        some choice ∧
      choice.counts = counts ∧ choice.Usable previous default counts := by
  obtain ⟨d, hd⟩ := htables.default.tableOf
  obtain ⟨newCost, hnew⟩ := h.newTotalCost_isSome htwo (decide (2048 ≤ total))
  obtain ⟨predefinedCost, hpredefined⟩ :=
    Option.isSome_iff_exists.mp (crossEntropyCost_isSome hd (counts.take (maxSymbol + 1)))
  obtain ⟨previousCost, hprevious, hrepeat⟩ :=
    previousCost_spec htables (counts.take (maxSymbol + 1))
  obtain ⟨cost, choice, hbest, hchoice⟩ := cheapest_spec previousCost predefinedCost newCost
  simp only [chooseByCost, hnew, hpredefined, hprevious, hbest, Option.bind_eq_bind,
    Option.bind_some, Option.map_some]
  cases choice with
  | previous =>
    obtain ⟨p, t, hp, ht, hcovers⟩ := hrepeat hchoice
    refine ⟨_, rfl, rfl, ?_⟩
    rw [hp]
    exact usable_repeat rfl ht (h.covers_of_alphabet hcovers)
  | predefined =>
    obtain ⟨c, rfl⟩ := Option.isSome_iff_exists.mp hchoice
    refine ⟨_, rfl, rfl, rfl, ?_⟩
    exact h.covers_of_alphabet fun s hs => codes_of_crossEntropyCost hd hpredefined hs
  | new =>
    obtain ⟨t, ht, hcovers⟩ :=
      h.chooseNew_spec (h.two_le_total htwo) hlast (decide (2048 ≤ total)) next
    exact ⟨_, ht, rfl, rfl, hcovers⟩

/-- The selection never panics, leaves the histogram as it was, and its mode serves every code
that occurs. -/
theorem choose_table_usable (h : HistogramOf stream counts total maxSymbol)
    (htables : TablesBuilt previous default) (strategy : StrategyTag) (lastCode : Option Nat)
    (hlast : ∀ code, lastCode = some code → code ≤ maxSymbol) (next : Option FSETable) :
    ∃ choice, chooseTableFromCounts previous default counts total maxSymbol stream.maxLog strategy
        lastCode next = some choice ∧
      choice.counts = counts ∧ choice.Usable previous default counts := by
  have hsome : 1 ≤ (counts.take (maxSymbol + 1)).countP (0 < ·) := by
    rw [h.countP_alphabet]
    exact Nat.le_add_left 1 _
  simp only [chooseTableFromCounts, if_neg (Nat.ne_of_gt h.pos),
    if_neg (Nat.not_le.mpr h.symbol_lt)]
  rcases Nat.lt_or_ge ((counts.take (maxSymbol + 1)).countP (0 < ·)) 2 with hone | htwo
  · have hcount : (counts.take (maxSymbol + 1)).countP (0 < ·) = 1 := by omega
    rw [if_pos (by omega)]
    exact ⟨_, rfl, rfl, singleCodeMode_usable h htables.default hcount⟩
  · have hmin : min 2 ((counts.take (maxSymbol + 1)).countP (0 < ·)) = 2 := Nat.min_eq_left htwo
    rw [hmin, if_neg (by decide)]
    have hcost := chooseByCost_usable h htables htwo hlast next
    split
    · obtain ⟨cost, hprevious, hrepeat⟩ :=
        previousCost_spec htables (counts.take (maxSymbol + 1))
      rw [hprevious]
      cases previous with
      | none => cases cost <;> exact hcost
      | some p =>
        cases cost with
        | none => exact hcost
        | some c =>
          obtain ⟨q, t, hq, ht, hcovers⟩ := hrepeat rfl
          cases hq
          exact ⟨_, rfl, rfl, usable_repeat rfl ht (h.covers_of_alphabet hcovers)⟩
    · exact hcost

end Selection

/-- A table of two codes. -/
def evenDistribution : Distribution :=
  .decided [16, 16] 5 (by decide)

/-- Three offset codes, two of them the same. -/
def threeOffsets : List Nat := [0, 0, 0, 1, 0, 2] ++ List.replicate 58 0

theorem threeOffsets_histogram : HistogramOf .offset threeOffsets 3 5 where
  slots := rfl
  sum_eq := rfl
  pos := by decide
  le := by decide
  last := by decide
  above := by
    intro s hs
    rw [threeOffsets, List.getD_append_right _ _ _ _ (by exact hs), List.getD_eq_getElem?_getD,
      List.getElem?_replicate]
    split <;> rfl
  code := by decide

theorem choose_table_usable_offsets : ∃ t choice,
    buildTableFromProbabilities [16, 16] 5 = some t ∧
      chooseTableFromCounts (some (.custom t)) t threeOffsets 3 5 8 .fast (some 5) none =
        some choice ∧
      choice.counts = threeOffsets ∧ choice.Usable (some (.custom t)) t threeOffsets := by
  obtain ⟨t, ht, _⟩ := build_spec evenDistribution FSETable.blank
  have hbuilt : BuiltTable t := ⟨evenDistribution, FSETable.blank, ht⟩
  have htables : TablesBuilt (some (.custom t)) t := ⟨hbuilt, by rintro u ⟨⟩; exact hbuilt⟩
  obtain ⟨choice, hchoice⟩ := choose_table_usable threeOffsets_histogram htables .fast (some 5)
    (by rintro code ⟨⟩; exact Nat.le_refl 5) none
  exact ⟨t, choice, ht, hchoice⟩

end Encoding
