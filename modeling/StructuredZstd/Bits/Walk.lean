import Mathlib.Data.List.Perm.Basic
import Mathlib.Data.List.Nodup
import Mathlib.Data.Nat.ModEq
import Mathlib.Data.List.Perm.Subperm
import Mathlib.Tactic.Ring

namespace Bits

/-- A walk around a ring of `size` places in steps of `step`, coprime to the size, that stops
only at the places under `limit`. -/
structure Walk where
  size : Nat
  step : Nat
  limit : Nat
  coprime : Nat.Coprime step size
  limit_le : limit ≤ size
  size_pos : 0 < size

namespace Walk

variable (w : Walk)

/-- The place reached after `k` steps from `0`. -/
def place (k : Nat) : Nat := k * w.step % w.size

/-- The stops among the places after `k, …, k + n - 1` steps, in walking order. -/
def stops (k n : Nat) : List Nat :=
  ((List.range' k n).map w.place).filter (· < w.limit)

@[simp] theorem place_zero : w.place 0 = 0 := by simp [place]

@[simp] theorem place_size : w.place w.size = 0 := by simp [place]

theorem place_lt (k : Nat) : w.place k < w.size := Nat.mod_lt _ w.size_pos

theorem place_succ (k : Nat) : (w.place k + w.step) % w.size = w.place (k + 1) := by
  simp [place, Nat.add_mul, Nat.mod_add_mod]

theorem place_injOn {j k : Nat} (hj : j < w.size) (hk : k < w.size)
    (h : w.place j = w.place k) : j = k := by
  have hm : j ≡ k [MOD w.size] :=
    Nat.ModEq.cancel_right_of_coprime (by rw [Nat.gcd_comm]; exact w.coprime) h
  exact Nat.ModEq.eq_of_lt_of_lt hm hj hk

/-- One full round visits every place once. -/
theorem places_perm : ((List.range' 0 w.size).map w.place).Perm (List.range w.size) := by
  have hn : ((List.range' 0 w.size).map w.place).Nodup := by
    refine List.Nodup.map_on ?_ List.nodup_range'
    intro j hj k hk h
    rw [List.mem_range'_1] at hj hk
    exact w.place_injOn (by omega) (by omega) h
  refine (List.subperm_of_subset hn ?_).perm_of_length_le (by simp)
  intro p hp
  obtain ⟨k, _, rfl⟩ := List.mem_map.mp hp
  exact List.mem_range.mpr (w.place_lt k)

theorem filter_range (n m : Nat) (h : m ≤ n) :
    (List.range n).filter (· < m) = List.range m := by
  induction n with
  | zero => simp [Nat.le_zero.mp h]
  | succ n ih =>
    rw [List.range_succ, List.filter_append]
    rcases Nat.lt_or_ge n m with hm | hm
    · have : m = n + 1 := by omega
      subst this
      rw [List.filter_eq_self.mpr, List.range_succ]
      · simp
      · intro a ha
        simp at ha ⊢
        omega
    · rw [ih hm]
      simp [Nat.not_lt.mpr hm]

/-- The stops of one full round are the places under the limit, each once. -/
theorem stops_perm : (w.stops 0 w.size).Perm (List.range w.limit) := by
  have h := w.places_perm.filter (fun p => decide (p < w.limit))
  rwa [filter_range _ _ w.limit_le] at h

theorem stops_length : (w.stops 0 w.size).length = w.limit := by
  simpa using w.stops_perm.length_eq

theorem stops_succ (k n : Nat) :
    w.stops k (n + 1) =
      if w.place k < w.limit then w.place k :: w.stops (k + 1) n else w.stops (k + 1) n := by
  simp only [stops, List.range'_succ, List.map_cons, List.filter_cons]
  by_cases h : w.place k < w.limit <;> simp [h]

/-- Walk on until a stop; the fuel bounds the number of steps. -/
def skip : Nat → Nat → Nat
  | 0, p => p
  | fuel + 1, p => if p < w.limit then p else skip fuel ((p + w.step) % w.size)

/-- Skipping reaches the next stop of the round, or its start once the round is over. -/
theorem skip_eq {k n fuel : Nat} (hk : k + n = w.size) (hf : n ≤ fuel) (h0 : 0 < w.limit) :
    w.skip (fuel + 1) (w.place k) = (w.stops k n).headD 0 := by
  induction n generalizing k fuel with
  | zero =>
    have : k = w.size := by omega
    subst this
    simp [skip, stops, h0]
  | succ n ih =>
    rw [skip, stops_succ]
    split
    · rfl
    · obtain ⟨fuel, rfl⟩ : ∃ f, fuel = f + 1 := ⟨fuel - 1, by omega⟩
      rw [w.place_succ, ih (by omega) (by omega)]

/-- Lay the items down at the stops, each time walking on to the next one. -/
def layDown {α : Type} : List α → Nat → List α → Nat × List α
  | [], p, table => (p, table)
  | a :: items, p, table => layDown items (w.skip w.size ((p + w.step) % w.size)) (table.set p a)

theorem layDown_append {α : Type} (as bs : List α) (p : Nat) (table : List α) :
    w.layDown (as ++ bs) p table =
      w.layDown bs (w.layDown as p table).1 (w.layDown as p table).2 := by
  induction as generalizing p table with
  | nil => rfl
  | cons a as ih => exact ih _ _

/-- Write each item at its place. -/
def setAll {α : Type} (table : List α) : List (Nat × α) → List α
  | [] => table
  | (p, a) :: ps => setAll (table.set p a) ps

/-- The items land on the stops in order, and a complete round ends where it began. -/
theorem layDown_eq {α : Type} (items : List α) (k n : Nat) (table : List α)
    (hk : k + n = w.size) (h0 : 0 < w.limit) (hl : items.length ≤ (w.stops k n).length) :
    w.layDown items ((w.stops k n).headD 0) table =
      (((w.stops k n).drop items.length).headD 0, setAll table ((w.stops k n).zip items)) := by
  induction items generalizing k n table with
  | nil => simp [layDown, setAll]
  | cons a items ih =>
    -- walk to the next stop: induction on the steps left in the round
    induction n generalizing k with
    | zero => simp [stops] at hl
    | succ n ihn =>
      rw [stops_succ] at hl ⊢
      split at hl
      · rename_i hp
        rw [if_pos hp]
        obtain ⟨f, hf⟩ : ∃ f, w.size = f + 1 := ⟨w.size - 1, by have := w.size_pos; omega⟩
        have hs : w.skip w.size ((w.place k + w.step) % w.size) = (w.stops (k + 1) n).headD 0 := by
          rw [w.place_succ, hf]
          exact w.skip_eq (by omega) (by omega) h0
        simp only [List.headD_cons, layDown, hs, List.length_cons, List.drop_succ_cons,
          List.zip_cons_cons, setAll]
        exact ih (k + 1) n (table.set (w.place k) a) (by omega) (by simpa using hl)
      · rename_i hp
        rw [if_neg hp]
        exact ihn (k + 1) (by omega) hl

/-- As many items as there are stops are laid in one round, which ends where it began. -/
theorem layDown_round {α : Type} {items : List α} (hitems : items.length = w.limit)
    (table : List α) :
    w.layDown items 0 table = (0, setAll table ((w.stops 0 w.size).zip items)) := by
  rcases Nat.eq_zero_or_pos w.limit with h0 | h0
  · have hnil : items = [] := List.eq_nil_of_length_eq_zero (hitems.trans h0)
    simp [hnil, layDown, setAll]
  · have hl : items.length = (w.stops 0 w.size).length := hitems.trans w.stops_length.symm
    have hh : (w.stops 0 w.size).headD 0 = 0 := by
      obtain ⟨n, hn⟩ : ∃ n, w.size = n + 1 := ⟨w.size - 1, by have := w.size_pos; omega⟩
      rw [hn, stops_succ, place_zero, if_pos h0]
      rfl
    have hround := w.layDown_eq items 0 w.size table (Nat.zero_add _) h0 (by omega)
    rw [hh, hl, List.drop_length] at hround
    exact hround

end Walk

section SetAll

variable {α : Type}

@[simp] theorem setAll_length (table : List α) (ps : List (Nat × α)) :
    (Walk.setAll table ps).length = table.length := by
  induction ps generalizing table with
  | nil => rfl
  | cons p ps ih => simp [Walk.setAll, ih]

/-- A place that is not written keeps its item. -/
theorem setAll_getElem?_of_notMem (table : List α) (ps : List (Nat × α)) {i : Nat}
    (h : i ∉ ps.map Prod.fst) : (Walk.setAll table ps)[i]? = table[i]? := by
  induction ps generalizing table with
  | nil => rfl
  | cons p ps ih =>
    simp only [List.map_cons, List.mem_cons, not_or] at h
    rw [Walk.setAll, ih _ h.2, List.getElem?_set_ne (Ne.symm h.1)]

/-- Distinct places inside the table hold the items written to them. -/
theorem setAll_getElem?_of_mem (table : List α) (ps : List (Nat × α))
    (hn : (ps.map Prod.fst).Nodup) {i : Nat} {a : α} (hm : (i, a) ∈ ps) (hi : i < table.length) :
    (Walk.setAll table ps)[i]? = some a := by
  induction ps generalizing table with
  | nil => simp at hm
  | cons p ps ih =>
    simp only [List.map_cons, List.nodup_cons] at hn
    rcases List.mem_cons.mp hm with rfl | hm
    · rw [Walk.setAll, setAll_getElem?_of_notMem _ _ hn.1]
      simp [hi]
    · exact ih _ hn.2 hm (by simpa using hi)

end SetAll

namespace Walk

variable (w : Walk) {α : Type}

/-- Items laid down over one full round: the stops read in order give them back. -/
theorem setAll_stops {items table : List α} (hl : items.length = w.limit)
    (ht : table.length = w.size) :
    (w.stops 0 w.size).map (fun p => (setAll table ((w.stops 0 w.size).zip items))[p]?) =
      items.map some := by
  have hlen : (w.stops 0 w.size).length = items.length := by rw [w.stops_length, hl]
  have hnd : (((w.stops 0 w.size).zip items).map Prod.fst).Nodup := by
    rw [List.map_fst_zip (by omega)]
    exact w.stops_perm.nodup_iff.mpr List.nodup_range
  apply List.ext_getElem?
  intro i
  rw [List.getElem?_map, List.getElem?_map]
  rcases Nat.lt_or_ge i items.length with hi | hi
  · have hi' : i < (w.stops 0 w.size).length := by omega
    rw [List.getElem?_eq_getElem hi, List.getElem?_eq_getElem hi', Option.map_some,
      Option.map_some]
    congr 1
    apply setAll_getElem?_of_mem _ _ hnd
    · rw [List.mem_iff_getElem]
      exact ⟨i, by simp; omega, by simp⟩
    · have := w.stops_perm.mem_iff.mp (List.getElem_mem hi')
      rw [List.mem_range] at this
      have := w.limit_le
      omega
  · rw [List.getElem?_eq_none hi, List.getElem?_eq_none (by omega)]
    rfl

theorem setAll_above (items table : List α) {p : Nat} (hp : w.limit ≤ p) :
    (setAll table ((w.stops 0 w.size).zip items))[p]? = table[p]? := by
  apply setAll_getElem?_of_notMem
  intro hm
  obtain ⟨q, hq, rfl⟩ := List.mem_map.mp hm
  have := w.stops_perm.mem_iff.mp (List.of_mem_zip hq).1
  rw [List.mem_range] at this
  omega

/-- Under the limit the table holds the items laid down, in some order. -/
theorem take_setAll_perm {items table : List α} (hl : items.length = w.limit)
    (ht : table.length = w.size) :
    ((setAll table ((w.stops 0 w.size).zip items)).take w.limit).Perm items := by
  set t := setAll table ((w.stops 0 w.size).zip items) with htd
  have htl : t.length = w.size := by rw [htd, setAll_length, ht]
  have hp : ((List.range w.limit).map (fun p => t[p]?)).Perm (items.map some) := by
    rw [← w.setAll_stops hl ht]
    exact (w.stops_perm.map _).symm
  have hr : (List.range w.limit).map (fun p => t[p]?) = (t.take w.limit).map some := by
    have := w.limit_le
    apply List.ext_getElem
    · simp; omega
    · intro i h1 h2
      simp at h1 h2
      simp [List.getElem?_eq_getElem (show i < t.length by omega)]
  rw [hr] at hp
  exact (List.map_perm_map_iff (Option.some_injective _)).mp hp

end Walk

end Bits
