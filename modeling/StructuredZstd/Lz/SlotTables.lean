import Mathlib.Data.List.Basic
import Mathlib.Tactic.Common

namespace Lz

/-- What is done to a table of tagged positions: a position stored in a slot, the table cleared,
and every position moved down with the bytes it names. -/
inductive SlotOp where
  | put (slot tag pos : Nat)
  | clear
  | slide (n : Nat)
deriving Repr, DecidableEq

/-- A slide takes a position down, or off the floor. -/
def slid (n : Nat) : Option (Nat × Nat) → Option (Nat × Nat)
  | some (t, p) => if n < p then some (t, p - n) else none
  | none => none

/-- What a slot holds after a log, newest operation first: the last position stored there since
the last clear, less the slides since then, while it stays above the floor. -/
def held : List SlotOp → Nat → Option (Nat × Nat)
  | [], _ => none
  | .put s t p :: log, slot => if s = slot then some (t, p) else held log slot
  | .clear :: _, _ => none
  | .slide n :: log, slot => slid n (held log slot)

/-- The position a lookup under a tag reads: zero names none. -/
def named : Option (Nat × Nat) → Nat → Nat
  | some (t, p), tag => if t = tag then p else 0
  | none, _ => 0

@[simp] theorem held_put_self (log : List SlotOp) (s t p : Nat) :
    held (.put s t p :: log) s = some (t, p) := by
  simp [held]

theorem held_put_of_ne {s slot : Nat} (h : s ≠ slot) (log : List SlotOp) (t p : Nat) :
    held (.put s t p :: log) slot = held log slot := by
  simp [held, h]

@[simp] theorem held_clear (log : List SlotOp) (slot : Nat) :
    held (.clear :: log) slot = none := rfl

@[simp] theorem held_slide (n : Nat) (log : List SlotOp) (slot : Nat) :
    held (.slide n :: log) slot = slid n (held log slot) := rfl

section StrideFill

variable {T : Type} (group : Nat → T → T) (step : Nat)

/-- Fill the groups that end before `stop`: the table, and where the next call resumes. -/
def strideFill (stop s : Nat) (t : T) : T × Nat :=
  if 0 < step ∧ s + step < stop then strideFill stop (s + step) (group s t) else (t, s)
termination_by stop - s

variable {group step}

theorem strideFill_group {stop s : Nat} (hstep : 0 < step) (h : s + step < stop) (t : T) :
    strideFill group step stop s t = strideFill group step stop (s + step) (group s t) := by
  rw [strideFill, if_pos ⟨hstep, h⟩]

theorem strideFill_done {stop s : Nat} (h : stop ≤ s + step) (t : T) :
    strideFill group step stop s t = (t, s) := by
  rw [strideFill, if_neg (fun hgo => absurd hgo.2 (Nat.not_lt.mpr h))]

/-- Where one call stopped, a call with a later bound goes on as if it had been the only one. -/
theorem strideFill_resume (hstep : 0 < step) {stop stop' : Nat} (h : stop ≤ stop') (s : Nat)
    (t : T) :
    strideFill group step stop' (strideFill group step stop s t).2
      (strideFill group step stop s t).1 = strideFill group step stop' s t := by
  induction s, t using strideFill.induct group step stop with
  | case1 s t hgo ih =>
    rw [strideFill_group hstep hgo.2, strideFill_group hstep (Nat.lt_of_lt_of_le hgo.2 h), ih]
  | case2 s t hgo =>
    have hdone : stop ≤ s + step := Nat.not_lt.mp fun hlt => hgo ⟨hstep, hlt⟩
    rw [strideFill_done hdone]

/-- Only the groups filled matter. -/
theorem strideFill_congr {group' : Nat → T → T} {stop : Nat}
    (h : ∀ p t, p + step < stop → group p t = group' p t) (s : Nat) (t : T) :
    strideFill group step stop s t = strideFill group' step stop s t := by
  induction s, t using strideFill.induct group step stop with
  | case1 s t hgo ih =>
    rw [strideFill_group hgo.1 hgo.2, ih, h s t hgo.2, ← strideFill_group hgo.1 hgo.2]
  | case2 s t hgo =>
    rw [strideFill, if_neg hgo, strideFill, if_neg hgo]

variable (group step) in
/-- The next call resumes no earlier, and no later than the bound unless it began there. -/
theorem strideFill_bounds (stop s : Nat) (t : T) :
    s ≤ (strideFill group step stop s t).2 ∧ (strideFill group step stop s t).2 < max stop (s + 1) := by
  induction s, t using strideFill.induct group step stop with
  | case1 s t hgo ih =>
    rw [strideFill_group hgo.1 hgo.2]
    omega
  | case2 s t hgo =>
    rw [strideFill, if_neg hgo]
    omega

end StrideFill

end Lz
