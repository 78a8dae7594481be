import Mathlib.Data.List.Basic
import Mathlib.Data.Nat.ModEq

namespace Bits.Circular

section Writes

variable {α : Type}

/-- The memory after `data` was written from slot `i` on. -/
def overwrite (mem : List α) (i : Nat) (data : List α) : List α :=
  mem.take i ++ data ++ mem.drop (i + data.length)

@[simp] theorem overwrite_nil (mem : List α) (i : Nat) : overwrite mem i [] = mem := by
  simp [overwrite]

theorem length_overwrite {mem : List α} {i : Nat} {data : List α}
    (h : i + data.length ≤ mem.length) : (overwrite mem i data).length = mem.length := by
  simp only [overwrite, List.length_append, List.length_take, List.length_drop]
  omega

/-- A second write of the same length leaves nothing of the first. -/
theorem overwrite_overwrite {mem x y : List α} {i : Nat} (h : i ≤ mem.length)
    (hxy : x.length = y.length) : overwrite (overwrite mem i x) i y = overwrite mem i y := by
  have htake : (mem.take i).length = i := by rw [List.length_take, Nat.min_eq_left h]
  simp only [overwrite, List.append_assoc]
  rw [List.take_left' htake, List.drop_append, htake, List.drop_of_length_le (by omega),
    List.nil_append, Nat.add_sub_cancel_left, List.drop_left' hxy, hxy]

end Writes

variable {α : Type} [Inhabited α]

/-- `n` slots from `start` on, going back to slot 0 at `cap`. -/
def arc (mem : List α) (cap start n : Nat) : List α :=
  (List.range n).map fun j => mem.getD ((start + j) % cap) default

theorem getD_overwrite {mem : List α} {i : Nat} {data : List α} (h : i ≤ mem.length) (j : Nat) :
    (overwrite mem i data).getD j default =
      if i ≤ j ∧ j < i + data.length then data.getD (j - i) default else mem.getD j default := by
  have htake : (mem.take i).length = i := by rw [List.length_take, Nat.min_eq_left h]
  simp only [overwrite, List.getD_eq_getElem?_getD, List.append_assoc]
  rcases Nat.lt_or_ge j i with hlt | hge
  · rw [if_neg (by omega), List.getElem?_append_left (by omega), List.getElem?_take_of_lt hlt]
  · rw [List.getElem?_append_right (by omega), htake]
    rcases Nat.lt_or_ge j (i + data.length) with hin | hout
    · rw [if_pos ⟨hge, hin⟩, List.getElem?_append_left (by omega)]
    · rw [if_neg (by omega), List.getElem?_append_right (by omega), List.getElem?_drop]
      congr 2
      omega

theorem getD_span (mem : List α) (i : Nat) {n j : Nat} (h : j < n) :
    ((mem.drop i).take n).getD j default = mem.getD (i + j) default := by
  simp only [List.getD_eq_getElem?_getD, List.getElem?_take_of_lt h, List.getElem?_drop]

/-- Below two rounds, the remainder is one subtraction at most. -/
theorem mod_two_rounds {x cap : Nat} (h : x < 2 * cap) :
    x % cap = if cap ≤ x then x - cap else x := by
  split
  · rw [Nat.mod_eq_sub_mod ‹_›, Nat.mod_eq_of_lt (by omega)]
  · exact Nat.mod_eq_of_lt (by omega)

@[simp] theorem length_arc (mem : List α) (cap start n : Nat) :
    (arc mem cap start n).length = n := by
  simp [arc]

theorem arc_congr {mem mem' : List α} {cap start n : Nat}
    (h : ∀ j < n, mem'.getD ((start + j) % cap) default = mem.getD ((start + j) % cap) default) :
    arc mem' cap start n = arc mem cap start n := by
  apply List.map_congr_left
  intro j hj
  exact h j (List.mem_range.mp hj)

theorem arc_eq {mem : List α} {cap start : Nat} {data : List α}
    (h : ∀ j < data.length, mem.getD ((start + j) % cap) default = data.getD j default) :
    arc mem cap start data.length = data := by
  apply List.ext_getElem (length_arc ..)
  intro j hj hj'
  simp only [arc, List.getElem_map, List.getElem_range]
  rw [h j hj', List.getD_eq_getElem?_getD, List.getElem?_eq_getElem hj', Option.getD_some]

theorem arc_add (mem : List α) (cap start m n : Nat) :
    arc mem cap start (m + n) = arc mem cap start m ++ arc mem cap ((start + m) % cap) n := by
  simp only [arc, List.range_add, List.map_append, List.map_map]
  congr 1
  apply List.map_congr_left
  intro j _
  simp only [Function.comp_apply, Nat.mod_add_mod, Nat.add_assoc]

theorem drop_arc (mem : List α) (cap start : Nat) {m n : Nat} (h : m ≤ n) :
    (arc mem cap start n).drop m = arc mem cap ((start + m) % cap) (n - m) := by
  obtain ⟨k, rfl⟩ := Nat.exists_eq_add_of_le h
  rw [arc_add, List.drop_left' (length_arc ..), Nat.add_sub_cancel_left]

/-- A stretch that does not reach the end of the ring is a slice of the memory. -/
theorem arc_of_le {mem : List α} {cap start n : Nat} (hcap : start + n ≤ cap)
    (hmem : start + n ≤ mem.length) : arc mem cap start n = (mem.drop start).take n := by
  have hlen : ((mem.drop start).take n).length = n := by
    rw [List.length_take, List.length_drop]
    omega
  have hslots : ∀ j < ((mem.drop start).take n).length,
      mem.getD ((start + j) % cap) default = ((mem.drop start).take n).getD j default := by
    intro j hj
    rw [hlen] at hj
    rw [getD_span mem start hj, Nat.mod_eq_of_lt (by omega)]
  have hslice := arc_eq hslots
  rwa [hlen] at hslice

end Bits.Circular

namespace Bits.Ring

variable {α : Type}

/-- Slot `i` onwards, all the way round, the ring holds `pending`, oldest first. -/
structure Window (ring : List α) (i : Nat) (pending : List α) : Prop where
  length : pending.length = ring.length
  slot : ∀ j < ring.length, ring[(i + j) % ring.length]? = pending[j]?

theorem window_start (ring : List α) : Window ring ring.length ring where
  length := rfl
  slot j hj := by rw [Nat.add_mod_left, Nat.mod_eq_of_lt hj]

theorem Window.head {ring pending : List α} {i : Nat} {x : α}
    (h : Window ring i (x :: pending)) : ring[i % ring.length]? = some x := by
  have hl := h.length
  rw [List.length_cons] at hl
  simpa using h.slot 0 (by omega)

/-- Two offsets below the length that name one slot are equal. -/
theorem offset_injective {n i j k : Nat} (hj : j < n) (hk : k < n)
    (h : (i + j) % n = (i + k) % n) : j = k := by
  have := Nat.ModEq.add_left_cancel' i (show i + j ≡ i + k [MOD n] from h)
  rwa [Nat.ModEq, Nat.mod_eq_of_lt hj, Nat.mod_eq_of_lt hk] at this

/-- Overwriting the oldest slot drops it and queues the new one. -/
theorem Window.push {ring pending : List α} {i : Nat} {x : α} (y : α)
    (h : Window ring i (x :: pending)) :
    Window (ring.set (i % ring.length) y) (i + 1) (pending ++ [y]) := by
  have hl := h.length
  rw [List.length_cons] at hl
  refine ⟨by simp [← hl], fun j hj => ?_⟩
  rw [List.length_set] at hj ⊢
  rcases Nat.lt_or_ge j pending.length with hlt | hge
  · have hne : i % ring.length ≠ (i + 1 + j) % ring.length := by
      intro he
      have := offset_injective (n := ring.length) (i := i) (j := 0) (k := 1 + j) (by omega) (by omega)
        (by rw [Nat.add_zero, he, Nat.add_assoc])
      omega
    rw [List.getElem?_set_ne hne, List.getElem?_append_left hlt]
    have := h.slot (1 + j) (by omega)
    rw [← Nat.add_assoc, Nat.add_comm 1 j, List.getElem?_cons_succ] at this
    exact this
  · have hj' : j = pending.length := by omega
    subst hj'
    have he : (i + 1 + pending.length) % ring.length = i % ring.length := by
      rw [Nat.add_assoc, Nat.add_comm 1, hl, Nat.add_mod_right]
    rw [he, List.getElem?_set_self (Nat.mod_lt _ (by omega)), List.getElem?_concat_length]

end Bits.Ring
