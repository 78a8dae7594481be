import StructuredZstd.Bits.Rank
import Mathlib.Algebra.Order.Ring.Nat
import Mathlib.Tactic.Positivity
import Mathlib.Data.Nat.Prime.Basic

namespace Fse

open Bits

/-- How many states a normalized probability occupies; `-1` stands for less than one. -/
def weight (prob : Int) : Nat := if prob = -1 then 1 else prob.toNat

/-- The sum of the weights, which a table must bring to its size. -/
def weightSum (probs : List Int) : Nat := (probs.map weight).sum

@[simp] theorem weightSum_nil : weightSum [] = 0 := rfl

@[simp] theorem weightSum_cons (p : Int) (ps : List Int) :
    weightSum (p :: ps) = weight p + weightSum ps := rfl

/-- A normalized distribution over at most 256 symbols. -/
structure Distribution where
  probs : List Int
  accLog : Nat
  length_le : probs.length ≤ 256
  range : ∀ p ∈ probs, -1 ≤ p
  sum_eq : weightSum probs = 2 ^ accLog
  log_ge : 5 ≤ accLog
  log_le : accLog ≤ 9

/-- The distribution of a concrete list, its conditions decided together. -/
def Distribution.decided (probs : List Int) (accLog : Nat)
    (h : probs.length ≤ 256 ∧ (∀ p ∈ probs, -1 ≤ p) ∧ weightSum probs = 2 ^ accLog ∧
      5 ≤ accLog ∧ accLog ≤ 9) : Distribution where
  probs
  accLog
  length_le := h.1
  range := h.2.1
  sum_eq := h.2.2.1
  log_ge := h.2.2.2.1
  log_le := h.2.2.2.2

/-- The symbols of probability `-1`, numbered from `s`. -/
def lowFrom : List Int → Nat → List Nat
  | [], _ => []
  | p :: ps, s => if p = -1 then s :: lowFrom ps (s + 1) else lowFrom ps (s + 1)

/-- The symbols of positive probability, numbered from `s`, each as often as it has states. -/
def itemsFrom : List Int → Nat → List Nat
  | [], _ => []
  | p :: ps, s => if p ≤ 0 then itemsFrom ps (s + 1) else
      List.replicate p.toNat s ++ itemsFrom ps (s + 1)

theorem lowFrom_length_add (ps : List Int) (s : Nat) :
    (lowFrom ps s).length + (itemsFrom ps s).length = weightSum ps := by
  induction ps generalizing s with
  | nil => rfl
  | cons p ps ih =>
    have := ih (s + 1)
    simp only [lowFrom, itemsFrom, weightSum_cons, weight]
    split_ifs with h1 h2 h2
    · simp; omega
    · omega
    · omega
    · simp; omega

theorem lowFrom_bounds {ps : List Int} {s a : Nat} (h : a ∈ lowFrom ps s) :
    s ≤ a ∧ a < s + ps.length := by
  induction ps generalizing s with
  | nil => simp [lowFrom] at h
  | cons p ps ih =>
    simp only [lowFrom] at h
    split at h
    · rcases List.mem_cons.mp h with rfl | h
      · simp
      · have := ih h
        simp; omega
    · have := ih h
      simp; omega

theorem itemsFrom_bounds {ps : List Int} {s a : Nat} (h : a ∈ itemsFrom ps s) :
    s ≤ a ∧ a < s + ps.length := by
  induction ps generalizing s with
  | nil => simp [itemsFrom] at h
  | cons p ps ih =>
    simp only [itemsFrom] at h
    split at h
    · have := ih h
      simp; omega
    · rcases List.mem_append.mp h with h | h
      · have := List.eq_of_mem_replicate h
        simp; omega
      · have := ih h
        simp; omega

/-- Each symbol is listed exactly as often as it has states. -/
theorem count_symbols (ps : List Int) (s k : Nat) :
    (lowFrom ps s).count (s + k) + (itemsFrom ps s).count (s + k) =
      weight (ps.getD k 0) := by
  induction ps generalizing s k with
  | nil => simp [lowFrom, itemsFrom, weight]
  | cons p ps ih =>
    rcases k with _ | k
    · have h1 : (lowFrom ps (s + 1)).count s = 0 := by
        rw [List.count_eq_zero]
        intro h
        have := lowFrom_bounds h
        omega
      have h2 : (itemsFrom ps (s + 1)).count s = 0 := by
        rw [List.count_eq_zero]
        intro h
        have := itemsFrom_bounds h
        omega
      simp only [lowFrom, itemsFrom, Nat.add_zero, List.getD_cons_zero, weight]
      split_ifs with h3 h4 h4
      · simp [h1, h2]
      · omega
      · simp [h1, h2]
        omega
      · simp [h1, h2]
    · have he : s + (k + 1) = s + 1 + k := by omega
      have hne : s ≠ s + 1 + k := by omega
      rw [he, List.getD_cons_succ, ← ih (s + 1) k]
      simp only [lowFrom, itemsFrom]
      split_ifs <;> simp [List.count_cons_of_ne hne, List.count_replicate, hne]

/-- Symbols laid along a whole round of a walk, the `-1` ones above its stops: each owns as many
slots as its probability gives it. -/
theorem laid_count (w : Walk) {probs : List Int} (hitems : (itemsFrom probs 0).length = w.limit)
    (hsum : w.limit + (lowFrom probs 0).length = w.size) (s : Nat) :
    (Walk.setAll (List.replicate w.limit 0 ++ (lowFrom probs 0).reverse)
      ((w.stops 0 w.size).zip (itemsFrom probs 0))).count s = weight (probs.getD s 0) := by
  generalize hslots : Walk.setAll (List.replicate w.limit 0 ++ (lowFrom probs 0).reverse)
    ((w.stops 0 w.size).zip (itemsFrom probs 0)) = slots
  have hb : (List.replicate w.limit 0 ++ (lowFrom probs 0).reverse).length = w.size := by
    simp [hsum]
  have hperm := w.take_setAll_perm hitems hb
  rw [hslots] at hperm
  have hdrop : slots.drop w.limit = (lowFrom probs 0).reverse := by
    apply List.ext_getElem?
    intro i
    have := w.setAll_above (itemsFrom probs 0)
      (List.replicate w.limit 0 ++ (lowFrom probs 0).reverse) (Nat.le_add_right w.limit i)
    rw [hslots] at this
    rw [List.getElem?_drop]
    refine this.trans ?_
    rw [List.getElem?_append_right (by simp)]
    simp
  have hsplit : slots.count s = (slots.take w.limit).count s + (slots.drop w.limit).count s := by
    rw [← List.count_append, List.take_append_drop]
  have hc := count_symbols probs 0 s
  rw [Nat.zero_add] at hc
  rw [hsplit, hdrop, List.count_reverse, ← hc, Nat.add_comm]
  congr 1
  exact hperm.count_eq s

namespace Distribution

variable (d : Distribution)

def size : Nat := 2 ^ d.accLog

def low : List Nat := lowFrom d.probs 0

def items : List Nat := itemsFrom d.probs 0

/-- The number of slots below those of the `-1` symbols. -/
def limit : Nat := d.size - d.low.length

theorem low_add_items : d.low.length + d.items.length = d.size := by
  rw [low, items, lowFrom_length_add, d.sum_eq, size]

theorem items_length : d.items.length = d.limit := by
  have := d.low_add_items
  rw [limit]
  omega

theorem limit_add_low : d.limit + d.low.length = d.size := by
  have := d.low_add_items
  rw [limit]
  omega

theorem size_pos : 0 < d.size := by unfold size; positivity

theorem size_le : d.size ≤ 512 :=
  Nat.pow_le_pow_right (by decide : 0 < 2) d.log_le

/-- The stride of the spread. -/
def stride (size : Nat) : Nat := (size >>> 1) + (size >>> 3) + 3

/-- The stride is odd from sixteen slots on, so it reaches every slot of a power of two. -/
theorem stride_coprime {accLog : Nat} (h : 4 ≤ accLog) :
    Nat.Coprime (stride (2 ^ accLog)) (2 ^ accLog) := by
  obtain ⟨k, rfl⟩ : ∃ k, accLog = k + 4 := ⟨accLog - 4, by omega⟩
  apply Nat.Coprime.pow_right
  rw [Nat.coprime_two_right, stride, Nat.shiftRight_eq_div_pow, Nat.shiftRight_eq_div_pow,
    Nat.odd_iff]
  have he : 2 ^ (k + 4) = 2 ^ k * 16 := by rw [Nat.pow_add]
  omega

/-- The walk of the spread over the slots of the positive symbols. -/
def walk : Walk where
  size := d.size
  step := stride d.size
  limit := d.limit
  coprime := stride_coprime (by have := d.log_ge; omega)
  limit_le := Nat.sub_le _ _
  size_pos := d.size_pos

@[simp] theorem walk_size : d.walk.size = d.size := rfl
@[simp] theorem walk_limit : d.walk.limit = d.limit := rfl
@[simp] theorem walk_step : d.walk.step = stride d.size := rfl

/-- The symbol of each slot: the `-1` symbols from the top down, the others along the walk. -/
def slots : List Nat :=
  Walk.setAll (List.replicate d.limit 0 ++ d.low.reverse)
    ((d.walk.stops 0 d.size).zip d.items)

@[simp] theorem slots_length : d.slots.length = d.size := by
  rw [slots, setAll_length]
  simp [d.limit_add_low]

/-- Every symbol owns as many slots as its probability gives it. -/
theorem slots_count (s : Nat) : d.slots.count s = weight (d.probs.getD s 0) :=
  laid_count d.walk d.items_length d.limit_add_low s

/-- Only listed symbols own slots. -/
theorem lt_of_mem_slots {s : Nat} (h : s ∈ d.slots) : s < d.probs.length := by
  by_contra hge
  have hc := d.slots_count s
  rw [List.getD_eq_getElem?_getD, List.getElem?_eq_none (by omega)] at hc
  have := List.count_pos_iff.mpr h
  simp [weight] at hc
  omega

/-- The first place of a symbol's slots when the slots are sorted by symbol. -/
def first (s : Nat) : Nat := weightSum (d.probs.take s)

theorem first_succ (s : Nat) : d.first (s + 1) = d.first s + weight (d.probs.getD s 0) := by
  rw [first, first, List.take_add_one, List.getD_eq_getElem?_getD]
  cases h : d.probs[s]? with
  | none => simp [weight]
  | some p => simp [weightSum]

theorem first_mono {s s' : Nat} (h : s ≤ s') : d.first s ≤ d.first s' := by
  induction h with
  | refl => exact Nat.le_refl _
  | step _ ih =>
    rw [Nat.succ_eq_add_one, first_succ]
    omega

theorem first_length : d.first d.probs.length = d.size := by
  rw [first, List.take_length, d.sum_eq, size]

theorem first_add_le {s : Nat} (h : s < d.probs.length) :
    d.first s + weight (d.probs.getD s 0) ≤ d.size := by
  rw [← first_succ, ← d.first_length]
  exact d.first_mono h

/-- Where the slot `u` of symbol `s` is filed. -/
def filing (u s : Nat) : Nat := d.first s + rank d.slots u s

theorem rank_lt_weight {u s : Nat} (h : d.slots[u]? = some s) :
    rank d.slots u s < weight (d.probs.getD s 0) := by
  rw [← d.slots_count]
  exact rank_lt_count h

theorem lt_of_slot {u s : Nat} (h : d.slots[u]? = some s) : s < d.probs.length :=
  d.lt_of_mem_slots (List.mem_of_getElem? h)

theorem filing_lt {u s : Nat} (h : d.slots[u]? = some s) : d.filing u s < d.size := by
  have h1 := d.rank_lt_weight h
  have h2 := d.first_add_le (d.lt_of_slot h)
  unfold filing
  omega

/-- No two slots are filed in one place. -/
theorem filing_injective {u u' s s' : Nat} (h : d.slots[u]? = some s)
    (h' : d.slots[u']? = some s') (he : d.filing u s = d.filing u' s') : u = u' := by
  have h1 := d.rank_lt_weight h
  have h2 := d.rank_lt_weight h'
  have e1 := d.first_succ s
  have e2 := d.first_succ s'
  unfold filing at he
  rcases Nat.lt_trichotomy s s' with hlt | rfl | hlt
  · have := d.first_mono (show s + 1 ≤ s' from hlt)
    omega
  · exact rank_injective h h' (by omega)
  · have := d.first_mono (show s' + 1 ≤ s from hlt)
    omega

/-- Every place of the table has a slot filed in it. -/
theorem exists_filing {i : Nat} (hi : i < d.size) :
    ∃ u s, d.slots[u]? = some s ∧ d.filing u s = i := by
  have hslot : ∀ u < d.size, d.slots[u]? = some (d.slots.getD u 0) := by
    intro u hu
    rw [List.getD_eq_getElem?_getD, List.getElem?_eq_getElem (by rwa [slots_length])]
    rfl
  let places := (List.range d.size).map fun u => d.filing u (d.slots.getD u 0)
  have hnodup : places.Nodup := by
    refine List.Nodup.map_on ?_ List.nodup_range
    intro u hu v hv he
    exact d.filing_injective (hslot u (List.mem_range.mp hu)) (hslot v (List.mem_range.mp hv)) he
  have hperm : places.Perm (List.range d.size) := by
    refine (List.subperm_of_subset hnodup ?_).perm_of_length_le (by simp [places])
    intro x hx
    obtain ⟨u, hu, rfl⟩ := List.mem_map.mp hx
    exact List.mem_range.mpr (d.filing_lt (hslot u (List.mem_range.mp hu)))
  obtain ⟨u, hu, he⟩ := List.mem_map.mp (hperm.mem_iff.mpr (List.mem_range.mpr hi))
  exact ⟨u, _, hslot u (List.mem_range.mp hu), he⟩

end Distribution

end Fse
