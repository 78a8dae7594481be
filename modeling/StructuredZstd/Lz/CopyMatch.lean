import Mathlib.Data.List.Basic

namespace Lz

variable {α : Type}

/-- Append, `n` times, the element that lies `offset` back from the end. -/
def copyMatch (offset : Nat) : Nat → List α → List α
  | 0, out => out
  | n + 1, out =>
    match out[out.length - offset]? with
    | some x => copyMatch offset n (out ++ [x])
    | none => out

/-- The next `n` elements of a list said over and over, from a phase on. -/
def cycleFrom (base : List α) : Nat → Nat → List α
  | _, 0 => []
  | phase, n + 1 =>
    match base[phase % base.length]? with
    | some x => x :: cycleFrom base (phase + 1) n
    | none => []

section Cycle

variable {base : List α}

theorem cycleFrom_nil (phase n : Nat) : cycleFrom ([] : List α) phase n = [] := by
  cases n with
  | zero => rfl
  | succ n => simp [cycleFrom]

theorem cycleFrom_succ (hb : base ≠ []) (phase n : Nat) :
    cycleFrom base phase (n + 1) =
      base.get ⟨phase % base.length, Nat.mod_lt _ (List.length_pos_iff.mpr hb)⟩ ::
        cycleFrom base (phase + 1) n := by
  rw [cycleFrom, List.getElem?_eq_getElem (Nat.mod_lt _ (List.length_pos_iff.mpr hb))]
  rfl

@[simp] theorem length_cycleFrom (hb : base ≠ []) (phase n : Nat) :
    (cycleFrom base phase n).length = n := by
  induction n generalizing phase with
  | zero => rfl
  | succ n ih => rw [cycleFrom_succ hb, List.length_cons, ih]

theorem cycleFrom_add (phase m n : Nat) :
    cycleFrom base phase (m + n) =
      cycleFrom base phase m ++ cycleFrom base (phase + m) n := by
  by_cases hb : base = []
  · subst hb
    simp [cycleFrom_nil]
  · induction m generalizing phase with
    | zero => simp [cycleFrom]
    | succ m ih =>
      rw [Nat.add_right_comm, cycleFrom_succ hb, cycleFrom_succ hb, ih (phase + 1),
        List.cons_append, Nat.add_assoc, Nat.add_comm 1]

theorem cycleFrom_congr {p q : Nat} (h : p % base.length = q % base.length) (n : Nat) :
    cycleFrom base p n = cycleFrom base q n := by
  by_cases hb : base = []
  · subst hb
    rw [cycleFrom_nil, cycleFrom_nil]
  · induction n generalizing p q with
    | zero => rfl
    | succ n ih =>
      have hnext : (p + 1) % base.length = (q + 1) % base.length := by
        rw [Nat.add_mod, h, ← Nat.add_mod]
      rw [cycleFrom_succ hb, cycleFrom_succ hb, ih hnext]
      congr 2
      exact Fin.ext h

theorem take_cycleFrom (phase m n : Nat) (h : m ≤ n) :
    (cycleFrom base phase n).take m = cycleFrom base phase m := by
  by_cases hb : base = []
  · subst hb
    simp [cycleFrom_nil]
  · obtain ⟨k, rfl⟩ := Nat.exists_eq_add_of_le h
    rw [cycleFrom_add, List.take_left' (length_cycleFrom hb phase m)]

theorem getElem?_cycleFrom (hb : base ≠ []) {phase n i : Nat} (h : i < n) :
    (cycleFrom base phase n)[i]? = base[(phase + i) % base.length]? := by
  obtain ⟨k, rfl⟩ := Nat.exists_eq_add_of_lt h
  have hpos : 0 < base.length := List.length_pos_iff.mpr hb
  rw [Nat.add_assoc, cycleFrom_add, List.getElem?_append_right (by simp [hb])]
  rw [length_cycleFrom hb, Nat.sub_self, cycleFrom_succ hb, List.getElem?_cons_zero,
    List.getElem?_eq_getElem (Nat.mod_lt _ hpos)]
  rfl

/-- One round is the list itself. -/
theorem cycleFrom_zero_length : cycleFrom base 0 base.length = base := by
  by_cases hb : base = []
  · subst hb
    rfl
  · refine List.ext_getElem? fun i => ?_
    rcases Nat.lt_or_ge i base.length with hi | hi
    · rw [getElem?_cycleFrom hb hi, Nat.zero_add, Nat.mod_eq_of_lt hi]
    · rw [List.getElem?_eq_none (by rwa [length_cycleFrom hb]), List.getElem?_eq_none hi]

theorem cycleFrom_zero_of_le {n : Nat} (h : n ≤ base.length) :
    cycleFrom base 0 n = base.take n := by
  have hone : cycleFrom base 0 base.length = base := cycleFrom_zero_length
  conv_rhs => rw [← hone]
  rw [take_cycleFrom 0 n _ h]

/-- The list and what follows it. -/
theorem append_cycleFrom (n : Nat) :
    base ++ cycleFrom base 0 n = cycleFrom base 0 (base.length + n) := by
  rw [cycleFrom_add, cycleFrom_zero_length, Nat.zero_add]
  congr 1
  exact cycleFrom_congr (by simp) n

/-- A cycle written with indices. -/
theorem map_range_eq_cycleFrom (hb : base ≠ []) (d : α) (phase n : Nat) :
    (List.range n).map (fun i => base.getD ((phase + i) % base.length) d) =
      cycleFrom base phase n := by
  refine List.ext_getElem? fun i => ?_
  rcases Nat.lt_or_ge i n with hi | hi
  · have hlt : (phase + i) % base.length < base.length :=
      Nat.mod_lt _ (List.length_pos_iff.mpr hb)
    rw [getElem?_cycleFrom hb hi, List.getElem?_map, List.getElem?_range hi, Option.map_some,
      List.getD_eq_getElem?_getD, List.getElem?_eq_getElem hlt, Option.getD_some]
  · rw [List.getElem?_eq_none (by simpa using hi),
      List.getElem?_eq_none (by rwa [length_cycleFrom hb])]

end Cycle

section Copy

variable {offset n : Nat} {out : List α}

/-- A match repeats what lies `offset` back. -/
theorem copyMatch_eq (hpos : 0 < offset) (hle : offset ≤ out.length) :
    copyMatch offset n out = out ++ cycleFrom (out.drop (out.length - offset)) 0 n := by
  have hlen : (out.drop (out.length - offset)).length = offset := by
    rw [List.length_drop]
    omega
  have hb : out.drop (out.length - offset) ≠ [] := List.length_pos_iff.mp (by omega)
  -- the copy after `k` steps, from which `n` more are to come
  have hrun : ∀ n k, copyMatch offset n
      (out ++ cycleFrom (out.drop (out.length - offset)) 0 k) =
        out ++ cycleFrom (out.drop (out.length - offset)) 0 (k + n) := by
    intro n
    induction n with
    | zero => intro k; rfl
    | succ n ih =>
      intro k
      have hread : (out ++ cycleFrom (out.drop (out.length - offset)) 0 k)[
          (out ++ cycleFrom (out.drop (out.length - offset)) 0 k).length - offset]? =
            (out.drop (out.length - offset))[k % offset]? := by
        rw [List.length_append, length_cycleFrom hb]
        rcases Nat.lt_or_ge k offset with hk | hk
        · rw [List.getElem?_append_left (by omega), Nat.mod_eq_of_lt hk, List.getElem?_drop]
          congr 1
          omega
        · rw [List.getElem?_append_right (by omega), getElem?_cycleFrom hb (by omega), hlen,
            Nat.zero_add]
          congr 1
          rw [show out.length + k - offset - out.length = k - offset by omega,
            ← Nat.mod_eq_sub_mod hk]
      have hlt : k % offset < (out.drop (out.length - offset)).length := by
        rw [hlen]
        exact Nat.mod_lt _ hpos
      have hone : cycleFrom (out.drop (out.length - offset)) 0 k ++
          [(out.drop (out.length - offset))[k % offset]] =
            cycleFrom (out.drop (out.length - offset)) 0 (k + 1) := by
        rw [cycleFrom_add, cycleFrom_succ hb]
        simp [hlen, cycleFrom]
      rw [copyMatch, hread, List.getElem?_eq_getElem hlt]
      dsimp only
      rw [List.append_assoc, hone, ih (k + 1), Nat.add_assoc, Nat.add_comm 1]
  simpa [cycleFrom] using hrun n 0

theorem length_copyMatch (hpos : 0 < offset) (hle : offset ≤ out.length) :
    (copyMatch offset n out).length = out.length + n := by
  have hb : out.drop (out.length - offset) ≠ [] := by
    refine List.length_pos_iff.mp ?_
    rw [List.length_drop]
    omega
  rw [copyMatch_eq hpos hle, List.length_append, length_cycleFrom hb]

/-- A match in two pieces. -/
theorem copyMatch_add (offset m n : Nat) (out : List α) :
    copyMatch offset (m + n) out = copyMatch offset n (copyMatch offset m out) := by
  induction m generalizing out with
  | zero => rw [Nat.zero_add, copyMatch]
  | succ m ih =>
    rw [Nat.succ_add, copyMatch, copyMatch]
    cases hread : out[out.length - offset]? with
    | some x => exact ih _
    | none =>
      cases n with
      | zero => rfl
      | succ n => rw [copyMatch, hread]

/-- A match no longer than its offset copies what is there already. -/
theorem copyMatch_of_le (hpos : 0 < offset) (hle : offset ≤ out.length) (hn : n ≤ offset) :
    copyMatch offset n out = out ++ (out.drop (out.length - offset)).take n := by
  rw [copyMatch_eq hpos hle, cycleFrom_zero_of_le (by rw [List.length_drop]; omega)]

/-- Any offset but zero finds something to copy in an output that is not empty. -/
theorem length_copyMatch_of_ne_nil (hpos : 0 < offset) (hout : out ≠ []) :
    (copyMatch offset n out).length = out.length + n := by
  induction n generalizing out with
  | zero => rfl
  | succ n ih =>
    have hlen := List.length_pos_iff.mpr hout
    have hlt : out.length - offset < out.length := by omega
    rw [copyMatch, List.getElem?_eq_getElem hlt]
    dsimp only
    rw [ih (by simp), List.length_append, List.length_singleton]
    omega

/-- What lies before the reach of a match does not matter to it. -/
theorem copyMatch_append (hpos : 0 < offset) (hle : offset ≤ out.length) (front : List α) :
    copyMatch offset n (front ++ out) = front ++ copyMatch offset n out := by
  rw [copyMatch_eq hpos (by rw [List.length_append]; omega), copyMatch_eq hpos hle,
    List.append_assoc]
  congr 3
  rw [List.length_append, Nat.add_sub_assoc hle, List.drop_append, List.drop_eq_nil_of_le (by omega),
    Nat.add_sub_cancel_left, List.nil_append]

end Copy

end Lz
