import Mathlib.Data.List.Basic

namespace Runs

variable {σ ρ : Type}

/-- What the body of a loop comes to: another round, or a result. -/
inductive Next (σ ρ : Type) where
  | again (s : σ)
  | done (r : ρ)

def Next.map {σ' : Type} (view : σ → σ') : Next σ ρ → Next σ' ρ
  | .again s => .again (view s)
  | .done r => .done r

/-- Run a body for at most `fuel` rounds. -/
def loop (body : σ → Next σ ρ) : Nat → σ → Option ρ
  | 0, _ => none
  | fuel + 1, s =>
    match body s with
    | .again s => loop body fuel s
    | .done r => some r

/-- The states the body is entered in. -/
def visits (body : σ → Next σ ρ) : Nat → σ → List σ
  | 0, _ => []
  | fuel + 1, s =>
    s :: match body s with
      | .again s => visits body fuel s
      | .done _ => []

section Rules

variable {body : σ → Next σ ρ} {I C : σ → Prop} {P : ρ → Prop}

/-- What the body keeps where `C` holds is kept over all rounds, when `C` holds in each. -/
theorem visits_inv_of (hstep : ∀ s s', I s → C s → body s = .again s' → I s') (fuel : Nat) {s : σ}
    (h : I s) (hC : ∀ x ∈ visits body fuel s, C x) : ∀ x ∈ visits body fuel s, I x := by
  induction fuel generalizing s with
  | zero => simp [visits]
  | succ fuel ih =>
    intro x hx
    rw [visits] at hC
    rw [visits, List.mem_cons] at hx
    rcases hx with rfl | hx
    · exact h
    · cases hb : body s with
      | again s' =>
        rw [hb] at hx hC
        exact ih (hstep s s' h (hC s List.mem_cons_self) hb)
          (fun y hy => hC y (List.mem_cons_of_mem s hy)) x hx
      | done r => simp [hb] at hx

/-- What the body gives out under its invariant holds of the result. -/
theorem loop_post_of (hstep : ∀ s s', I s → C s → body s = .again s' → I s')
    (hdone : ∀ s r, I s → C s → body s = .done r → P r) (fuel : Nat) {s : σ} {r : ρ} (h : I s)
    (hC : ∀ x ∈ visits body fuel s, C x) (hr : loop body fuel s = some r) : P r := by
  induction fuel generalizing s with
  | zero => cases hr
  | succ fuel ih =>
    rw [visits] at hC
    rw [loop] at hr
    cases hb : body s with
    | again s' =>
      rw [hb] at hr hC
      exact ih (hstep s s' h (hC s List.mem_cons_self) hb)
        (fun y hy => hC y (List.mem_cons_of_mem s hy)) hr
    | done r' =>
      rw [hb] at hr
      cases hr
      exact hdone s _ h (hC s List.mem_cons_self) hb

theorem loop_getD_post_of (hstep : ∀ s s', I s → C s → body s = .again s' → I s')
    (hdone : ∀ s r, I s → C s → body s = .done r → P r) (fuel : Nat) {s : σ} {r : ρ} (h : I s)
    (hC : ∀ x ∈ visits body fuel s, C x) (hr : P r) : P ((loop body fuel s).getD r) := by
  cases hl : loop body fuel s with
  | none => exact hr
  | some r' => exact loop_post_of hstep hdone fuel h hC hl

/-- An invariant of the body holds wherever the body is entered. -/
theorem visits_inv (hstep : ∀ s s', I s → body s = .again s' → I s') (fuel : Nat) {s : σ}
    (h : I s) : ∀ x ∈ visits body fuel s, I x :=
  visits_inv_of (C := fun _ => True) (fun s s' hs _ => hstep s s' hs) fuel h fun _ _ => trivial

theorem loop_getD_post (hstep : ∀ s s', I s → body s = .again s' → I s')
    (hdone : ∀ s r, I s → body s = .done r → P r) (fuel : Nat) {s : σ} {r : ρ} (h : I s)
    (hr : P r) : P ((loop body fuel s).getD r) :=
  loop_getD_post_of (C := fun _ => True) (fun s s' hs _ => hstep s s' hs)
    (fun s r hs _ => hdone s r hs) fuel h (fun _ _ => trivial) hr

/-- A body that keeps its invariant and lowers a measure comes to a result, and rounds to spare
change nothing about it. -/
theorem loop_total (size : σ → Nat)
    (hbody : ∀ s, I s → (∃ s', body s = .again s' ∧ I s' ∧ size s' < size s) ∨
      ∃ r, body s = .done r ∧ P r) {s : σ} (hs : I s) :
    ∃ r, P r ∧ ∀ fuel, size s < fuel → loop body fuel s = some r := by
  induction hn : size s using Nat.strongRecOn generalizing s with
  | ind n ih =>
    rcases hbody s hs with ⟨s', hb, hs', hlt⟩ | ⟨r, hb, hr⟩
    · obtain ⟨r, hr, hloop⟩ := ih (size s') (by omega) hs' rfl
      refine ⟨r, hr, ?_⟩
      intro fuel hfuel
      cases fuel with
      | zero => cases hfuel
      | succ fuel =>
        rw [loop, hb]
        exact hloop fuel (by omega)
    · refine ⟨r, hr, ?_⟩
      intro fuel hfuel
      cases fuel with
      | zero => cases hfuel
      | succ fuel => rw [loop, hb]

/-- Two bodies that stay in step come to one result. -/
theorem loop_eq_of {σ' : Type} {body' : σ' → Next σ' ρ} {view : σ → σ'}
    (hstep : ∀ s s', I s → body s = .again s' → I s')
    (hview : ∀ s, I s → body' (view s) = (body s).map view) (fuel : Nat) {s : σ} (h : I s) :
    loop body' fuel (view s) = loop body fuel s := by
  induction fuel generalizing s with
  | zero => rfl
  | succ fuel ih =>
    rw [loop, loop, hview s h]
    cases hb : body s with
    | again s' => exact ih (hstep s s' h hb)
    | done r => rfl

end Rules

end Runs
