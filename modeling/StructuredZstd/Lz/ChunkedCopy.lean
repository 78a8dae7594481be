import StructuredZstd.Lz.Wildcopy

namespace Lz

open Bits.Circular (overwrite)

variable {α : Type}

/-- Moves of chunks, each an offset and a width, from `data` to the same offsets behind `dst`. -/
def copyChunks (data : List α) (dst : Nat) : List (Nat × Nat) → List α → Option (List α)
  | [], mem => some mem
  | (offset, width) :: chunks, mem =>
    (move width mem (dst + offset) (.apart (data.drop offset))).bind (copyChunks data dst chunks)

/-- The chunks take a copy of the first `covered` slots to one of the first `stop`: none begins past
what is copied already. -/
inductive Covers : Nat → List (Nat × Nat) → Nat → Prop where
  | nil (n : Nat) : Covers n [] n
  | cons {covered offset width stop : Nat} {chunks : List (Nat × Nat)} (start : offset ≤ covered)
      (rest : Covers (max covered (offset + width)) chunks stop) :
      Covers covered ((offset, width) :: chunks) stop

namespace Covers

variable {a b c offset width : Nat} {chunks more : List (Nat × Nat)}

theorem le (h : Covers a chunks b) : a ≤ b := by
  induction h with
  | nil n => exact Nat.le_refl n
  | cons start rest ih => omega

theorem append (h : Covers a chunks b) (h' : Covers b more c) : Covers a (chunks ++ more) c := by
  induction h with
  | nil n => exact h'
  | cons start rest ih => exact .cons start (ih h')

/-- A last chunk that ends where the copy should. -/
theorem single (start : offset ≤ a) (hend : a ≤ offset + width) :
    Covers a [(offset, width)] (offset + width) := by
  refine .cons start ?_
  rw [Nat.max_eq_right hend]
  exact .nil _

/-- A chunk that goes on past what is copied. -/
theorem step (start : offset ≤ a) (hend : a ≤ offset + width)
    (rest : Covers (offset + width) chunks c) : Covers a ((offset, width) :: chunks) c := by
  refine .cons start ?_
  rwa [Nat.max_eq_right hend]

end Covers

section Loops

variable {body : Nat → List (Nat × Nat)} {step stop len : Nat}

/-- `while o < stop`, with the fuel to make every round. -/
def belowLoop (body : Nat → List (Nat × Nat)) (step stop : Nat) : Nat → Nat →
    List (Nat × Nat) × Nat
  | 0, o => ([], o)
  | fuel + 1, o =>
    if o < stop then
      let (rest, last) := belowLoop body step stop fuel (o + step)
      (body o ++ rest, last)
    else ([], o)

/-- `while o + step <= len`. -/
def roomLoop (body : Nat → List (Nat × Nat)) (step len : Nat) : Nat → Nat →
    List (Nat × Nat) × Nat
  | 0, o => ([], o)
  | fuel + 1, o =>
    if o + step ≤ len then
      let (rest, last) := roomLoop body step len fuel (o + step)
      (body o ++ rest, last)
    else ([], o)

theorem belowLoop_covers (hbody : ∀ o, Covers o (body o) (o + step)) (hstep : 0 < step)
    (fuel o : Nat) (hfuel : stop ≤ o + fuel) :
    Covers o (belowLoop body step stop fuel o).1 (belowLoop body step stop fuel o).2 ∧
      stop ≤ (belowLoop body step stop fuel o).2 ∧
      (belowLoop body step stop fuel o).2 < max (o + 1) (stop + step) ∧
      (step ∣ stop - o → o ≤ stop → (belowLoop body step stop fuel o).2 = stop) := by
  induction fuel generalizing o with
  | zero =>
    refine ⟨.nil o, hfuel, by simp [belowLoop], fun _ hle => ?_⟩
    exact Nat.le_antisymm hle hfuel
  | succ fuel ih =>
    by_cases hlt : o < stop
    · obtain ⟨hcov, hle, hbound, hdvd⟩ := ih (o + step) (by omega)
      simp only [belowLoop, if_pos hlt]
      refine ⟨(hbody o).append hcov, hle, by omega, fun hd _ => ?_⟩
      obtain ⟨k, hk⟩ := hd
      cases k with
      | zero => omega
      | succ k =>
        rw [Nat.mul_succ] at hk
        exact hdvd ⟨k, by omega⟩ (by omega)
    · simp only [belowLoop, if_neg hlt]
      refine ⟨.nil o, Nat.not_lt.mp hlt, by omega, fun _ hle => by omega⟩

theorem roomLoop_covers (hbody : ∀ o, Covers o (body o) (o + step)) (hstep : 0 < step)
    (fuel o : Nat) (hfuel : len ≤ o + fuel) (ho : o ≤ len) :
    Covers o (roomLoop body step len fuel o).1 (roomLoop body step len fuel o).2 ∧
      (roomLoop body step len fuel o).2 ≤ len ∧
      len < (roomLoop body step len fuel o).2 + step := by
  induction fuel generalizing o with
  | zero =>
    refine ⟨.nil o, ho, ?_⟩
    simp only [roomLoop]
    omega
  | succ fuel ih =>
    by_cases hroom : o + step ≤ len
    · obtain ⟨hcov, hle, hlt⟩ := ih (o + step) (by omega) hroom
      simp only [roomLoop, if_pos hroom]
      exact ⟨(hbody o).append hcov, hle, hlt⟩
    · simp only [roomLoop, if_neg hroom]
      exact ⟨.nil o, ho, by omega⟩

end Loops

section Writes

variable {data mem : List α} {dst covered offset width stop : Nat}

theorem getElem?_overwrite {i : Nat} (h : i + data.length ≤ mem.length) (j : Nat) :
    (overwrite mem i data)[j]? = if i ≤ j ∧ j < i + data.length then data[j - i]? else mem[j]? := by
  have htake : (mem.take i).length = i := List.length_take_of_le (by omega)
  simp only [overwrite, List.append_assoc]
  rcases Nat.lt_or_ge j i with hlt | hge
  · rw [if_neg (by omega), List.getElem?_append_left (by omega), List.getElem?_take_of_lt hlt]
  · rw [List.getElem?_append_right (by omega), htake]
    rcases Nat.lt_or_ge j (i + data.length) with hin | hout
    · rw [if_pos ⟨hge, hin⟩, List.getElem?_append_left (by omega)]
    · rw [if_neg (by omega), List.getElem?_append_right (by omega), List.getElem?_drop]
      congr 1
      omega

/-- A chunk over a copy, from where the copy reaches to. -/
theorem overwrite_chunk (hread : covered ≤ data.length) (hchunk : offset + width ≤ data.length)
    (hfit : dst + max covered (offset + width) ≤ mem.length) (hstart : offset ≤ covered) :
    overwrite (overwrite mem dst (data.take covered)) (dst + offset) ((data.drop offset).take width) =
      overwrite mem dst (data.take (max covered (offset + width))) := by
  have hold : (data.take covered).length = covered := List.length_take_of_le hread
  have hnew : ((data.drop offset).take width).length = width := by
    rw [List.length_take, List.length_drop]
    omega
  have hall : (data.take (max covered (offset + width))).length = max covered (offset + width) :=
    List.length_take_of_le (by omega)
  have hlen : (overwrite mem dst (data.take covered)).length = mem.length :=
    Bits.Circular.length_overwrite (by omega)
  apply List.ext_getElem?
  intro j
  rw [getElem?_overwrite (by omega), getElem?_overwrite (by omega), getElem?_overwrite (by omega),
    hold, hnew, hall]
  by_cases hin : dst + offset ≤ j ∧ j < dst + offset + width
  · rw [if_pos hin, if_pos (by omega), List.getElem?_take_of_lt (by omega), List.getElem?_drop,
      List.getElem?_take_of_lt (by omega)]
    congr 1
    omega
  · rw [if_neg hin]
    by_cases hcov : dst ≤ j ∧ j < dst + covered
    · rw [if_pos hcov, if_pos (by omega), List.getElem?_take_of_lt (by omega),
        List.getElem?_take_of_lt (by omega)]
    · rw [if_neg hcov, if_neg (by omega)]

theorem copyChunks_covers {chunks : List (Nat × Nat)} (h : Covers covered chunks stop)
    (hread : stop ≤ data.length) (hfit : dst + stop ≤ mem.length) :
    copyChunks data dst chunks (overwrite mem dst (data.take covered)) =
      some (overwrite mem dst (data.take stop)) := by
  induction h with
  | nil n => rfl
  | @cons covered offset width stop chunks start rest ih =>
    have hle : max covered (offset + width) ≤ stop := rest.le
    have hcov : (data.take covered).length = covered := List.length_take_of_le (by omega)
    have hlen : (overwrite mem dst (data.take covered)).length = mem.length :=
      Bits.Circular.length_overwrite (by omega)
    have hmove : width ≤ (data.drop offset).length ∧
        dst + offset + width ≤ (overwrite mem dst (data.take covered)).length := by
      rw [List.length_drop]
      omega
    rw [copyChunks, move, Source.read, if_pos hmove, Option.bind_some,
      overwrite_chunk (by omega) (by omega) (by omega) start]
    exact ih hread hfit

/-- A copy from its beginning. -/
theorem copyChunks_all {chunks : List (Nat × Nat)} (h : Covers 0 chunks stop)
    (hread : stop ≤ data.length) (hfit : dst + stop ≤ mem.length) :
    copyChunks data dst chunks mem = some (overwrite mem dst (data.take stop)) := by
  have hcopy := copyChunks_covers h hread hfit
  rwa [List.take_zero, Bits.Circular.overwrite_nil] at hcopy

/-- What the memory begins with after a copy that may have gone past `n`. -/
theorem take_overwrite {n : Nat} (hread : stop ≤ data.length) (hfit : dst + stop ≤ mem.length)
    (hn : n ≤ stop) :
    (overwrite mem dst (data.take stop)).take (dst + n) = mem.take dst ++ data.take n := by
  have htake : (mem.take dst).length = dst := List.length_take_of_le (by omega)
  have hstop : (data.take stop).length = stop := List.length_take_of_le hread
  rw [overwrite, List.append_assoc, List.take_append, htake, Nat.add_sub_cancel_left,
    List.take_of_length_le (by omega), List.take_append_of_le_length (by omega), List.take_take,
    Nat.min_eq_left hn]

end Writes

end Lz
