import StructuredZstd.Bits.Walk

namespace Bits

variable {α : Type} [DecidableEq α]

/-- How many times the item in slot `u` occurs before that slot. -/
def rank (table : List α) (u : Nat) (a : α) : Nat := (table.take u).count a

theorem rank_succ_self {table : List α} {u : Nat} {a : α} (h : table[u]? = some a) :
    rank table (u + 1) a = rank table u a + 1 := by
  simp [rank, List.take_add_one, h, List.count_append]

theorem rank_mono (table : List α) (a : α) {u v : Nat} (h : u ≤ v) :
    rank table u a ≤ rank table v a :=
  (List.take_sublist_take_left h).count_le a

/-- Slots of one item are told apart by their ranks. -/
theorem rank_injective {table : List α} {u v : Nat} {a : α} (hu : table[u]? = some a)
    (hv : table[v]? = some a) (h : rank table u a = rank table v a) : u = v := by
  rcases Nat.lt_trichotomy u v with hlt | heq | hlt
  · have := rank_mono table a (show u + 1 ≤ v from hlt)
    rw [rank_succ_self hu] at this
    omega
  · exact heq
  · have := rank_mono table a (show v + 1 ≤ u from hlt)
    rw [rank_succ_self hv] at this
    omega

theorem rank_lt_count {table : List α} {u : Nat} {a : α} (hu : table[u]? = some a) :
    rank table u a < table.count a := by
  have h1 := rank_succ_self hu
  have h2 : rank table (u + 1) a ≤ table.count a := (List.take_sublist _ _).count_le a
  omega

/-- Every rank below the number of occurrences is taken by some slot. -/
theorem exists_rank (table : List α) (a : α) {k : Nat} (hk : k < table.count a) :
    ∃ u, table[u]? = some a ∧ rank table u a = k := by
  induction table generalizing k with
  | nil => simp at hk
  | cons b table ih =>
    by_cases hb : b = a
    · subst hb
      rcases k with _ | k
      · exact ⟨0, by simp, by simp [rank]⟩
      · obtain ⟨u, hu, hr⟩ := ih (k := k) (by simpa using hk)
        exact ⟨u + 1, by simpa using hu, by simp [rank] at hr ⊢; exact hr⟩
    · obtain ⟨u, hu, hr⟩ := ih (k := k) (by simpa [hb] using hk)
      refine ⟨u + 1, by simpa using hu, ?_⟩
      simp only [rank, List.take_succ_cons] at hr ⊢
      rw [List.count_cons_of_ne hb, hr]

section Sorted

/-- How many items come before those equal to `a` when the items are sorted. -/
def below (items : List Nat) (a : Nat) : Nat := items.countP (· < a)

theorem below_succ (items : List Nat) (a : Nat) :
    below items (a + 1) = below items a + items.count a := by
  induction items with
  | nil => rfl
  | cons b items ih =>
    unfold below at ih ⊢
    rw [List.countP_cons, List.countP_cons, List.count_cons, ih]
    simp only [decide_eq_true_eq, beq_iff_eq]
    split_ifs <;> omega

theorem below_mono (items : List Nat) {a b : Nat} (h : a ≤ b) : below items a ≤ below items b := by
  apply List.countP_mono_left
  intro x _ hx
  rw [decide_eq_true_eq] at hx ⊢
  omega

variable {items : List Nat} {u v a b : Nat}

/-- The stable sort keeps the places of different items apart. -/
theorem place_injective (hu : items[u]? = some a) (hv : items[v]? = some b)
    (h : below items a + rank items u a = below items b + rank items v b) : u = v := by
  have ha := rank_lt_count hu
  have hb := rank_lt_count hv
  rcases Nat.lt_trichotomy a b with hlt | rfl | hlt
  · have := below_mono items (show a + 1 ≤ b from hlt)
    rw [below_succ] at this
    omega
  · exact rank_injective hu hv (by omega)
  · have := below_mono items (show b + 1 ≤ a from hlt)
    rw [below_succ] at this
    omega

theorem place_lt (hu : items[u]? = some a) : below items a + rank items u a < items.length := by
  have ha := rank_lt_count hu
  have hle : below items (a + 1) ≤ items.length := List.countP_le_length
  rw [below_succ] at hle
  omega

end Sorted

end Bits
