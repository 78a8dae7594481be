import Mathlib.Data.Int.Basic
import Mathlib.Tactic.Ring
import Mathlib.Tactic.SplitIfs
import StructuredZstd.Runs.Loop

namespace Runs

/-- Computations that may stop. An error is a result like any other; no result at all is an index
out of range, an operation that overflows, or a loop that does not end. -/
abbrev Guarded (ε α : Type) := ExceptT ε Option α

namespace Guarded

variable {ε δ α β σ ρ : Type}

def stop : Guarded ε α := ExceptT.mk none

def index (l : List α) (i : Nat) : Guarded ε α :=
  match l[i]? with
  | some a => pure a
  | none => stop

def setAt (l : List α) (i : Nat) (a : α) : Guarded ε (List α) :=
  if i < l.length then pure (l.set i a) else stop

/-- The items from `i` up to `j`. -/
def slice (l : List α) (i j : Nat) : Guarded ε (List α) :=
  if i ≤ j ∧ j ≤ l.length then pure ((l.take j).drop i) else stop

/-- The items from `i` up to `j` all set to `a`. -/
def fillRange (l : List α) (i j : Nat) (a : α) : Guarded ε (List α) :=
  if i ≤ j ∧ j ≤ l.length then pure (l.take i ++ List.replicate (j - i) a ++ l.drop j) else stop

/-- An unsigned difference. -/
def sub (a b : Nat) : Guarded ε Nat := if b ≤ a then pure (a - b) else stop

/-- An unsigned value of `bits` bits. -/
def unsigned (bits n : Nat) : Guarded ε Nat := if n < 2 ^ bits then pure n else stop

def i32 (x : Int) : Guarded ε Int := if -2 ^ 31 ≤ x ∧ x < 2 ^ 31 then pure x else stop

def isize (x : Int) : Guarded ε Int := if -2 ^ 63 ≤ x ∧ x < 2 ^ 63 then pure x else stop

def mapError (f : ε → δ) (m : Guarded ε α) : Guarded δ α :=
  ExceptT.mk (m.run.map (Except.mapError f))

def loop (body : σ → Guarded ε (Next σ ρ)) : Nat → σ → Guarded ε ρ
  | 0, _ => stop
  | fuel + 1, s => do
    match ← body s with
    | .again s => loop body fuel s
    | .done r => pure r

def whileLoop (cond : σ → Bool) (body : σ → Guarded ε σ) : Nat → σ → Guarded ε σ
  | 0, _ => stop
  | fuel + 1, s =>
    if cond s then do
      let s ← body s
      whileLoop cond body fuel s
    else pure s

theorem index_eq {l : List α} {i : Nat} {a : α} (h : l[i]? = some a) :
    index (ε := ε) l i = pure a := by
  unfold index
  rw [h]

theorem setAt_eq {l : List α} {i : Nat} (h : i < l.length) (a : α) :
    setAt (ε := ε) l i a = pure (l.set i a) := if_pos h

theorem slice_eq {l : List α} {i j : Nat} (hij : i ≤ j) (hj : j ≤ l.length) :
    slice (ε := ε) l i j = pure ((l.take j).drop i) := if_pos ⟨hij, hj⟩

theorem fillRange_eq {l : List α} {i j : Nat} (hij : i ≤ j) (hj : j ≤ l.length) (a : α) :
    fillRange (ε := ε) l i j a = pure (l.take i ++ List.replicate (j - i) a ++ l.drop j) :=
  if_pos ⟨hij, hj⟩

theorem fillRange_getElem? {l : List α} {i j : Nat} (hij : i ≤ j) (hj : j ≤ l.length) (a : α)
    (p : Nat) : (l.take i ++ List.replicate (j - i) a ++ l.drop j)[p]? =
      if i ≤ p ∧ p < j then some a else l[p]? := by
  have hi : (l.take i).length = i := by
    rw [List.length_take]
    omega
  rcases Nat.lt_or_ge p i with hp | hp
  · rw [List.append_assoc, List.getElem?_append_left (by omega), List.getElem?_take_of_lt hp,
      if_neg (by omega)]
  · rcases Nat.lt_or_ge p j with hpj | hpj
    · rw [List.append_assoc, List.getElem?_append_right (by omega), hi,
        List.getElem?_append_left (by simp; omega), List.getElem?_replicate, if_pos (by omega),
        if_pos ⟨hp, hpj⟩]
    · rw [List.getElem?_append_right (by simp; omega), List.getElem?_drop, if_neg (by omega)]
      congr 1
      simp
      omega

theorem sub_eq {a b : Nat} (h : b ≤ a) : sub (ε := ε) a b = pure (a - b) := if_pos h

theorem unsigned_eq {bits n : Nat} (h : n < 2 ^ bits) : unsigned (ε := ε) bits n = pure n :=
  if_pos h

theorem isize_eq {x : Int} (hlo : -2 ^ 63 ≤ x) (hhi : x < 2 ^ 63) : isize (ε := ε) x = pure x :=
  if_pos ⟨hlo, hhi⟩

/-- The computation does not stop, and what it gives without an error is as said. -/
def Meets (m : Guarded ε α) (Q : α → Prop) : Prop :=
  ∃ r, m.run = some r ∧ ∀ a, r = .ok a → Q a

/-- The same, with what is said of an error as well. -/
def Ends (m : Guarded ε α) (E : ε → Prop) (Q : α → Prop) : Prop :=
  ∃ r, m.run = some r ∧ (∀ e, r = .error e → E e) ∧ ∀ a, r = .ok a → Q a

section Rules

variable {P Q : α → Prop}

theorem Meets.isSome {m : Guarded ε α} (h : Meets m Q) : m.run.isSome := by
  obtain ⟨r, hr, -⟩ := h
  rw [hr]
  rfl

theorem Meets.ok {m : Guarded ε α} (h : Meets m Q) {a : α} (hm : m.run = some (.ok a)) : Q a := by
  obtain ⟨r, hr, hok⟩ := h
  exact hok a (Option.some.inj (hr.symm.trans hm))

theorem Meets.mono {m : Guarded ε α} (h : Meets m P) (hPQ : ∀ a, P a → Q a) : Meets m Q := by
  obtain ⟨r, hr, hok⟩ := h
  exact ⟨r, hr, fun a ha => hPQ a (hok a ha)⟩

theorem meets_pure {a : α} (h : Q a) : Meets (pure a : Guarded ε α) Q := by
  refine ⟨.ok a, rfl, ?_⟩
  rintro b hb
  cases hb
  exact h

theorem meets_throw (e : ε) : Meets (throw e : Guarded ε α) Q := by
  refine ⟨.error e, rfl, ?_⟩
  rintro a ha
  cases ha

theorem Meets.bind {m : Guarded ε α} {f : α → Guarded ε β} {R : β → Prop} (hm : Meets m P)
    (hf : ∀ a, P a → Meets (f a) R) : Meets (m >>= f) R := by
  obtain ⟨r, hr, hok⟩ := hm
  cases r with
  | error e =>
    refine ⟨.error e, ?_, ?_⟩
    · rw [ExceptT.run_bind, hr]
      rfl
    · intro b hb
      cases hb
  | ok a =>
    obtain ⟨r, hr', hok'⟩ := hf a (hok a rfl)
    refine ⟨r, ?_, hok'⟩
    rw [ExceptT.run_bind, hr]
    exact hr'

theorem Meets.mapError {m : Guarded ε α} (h : Meets m Q) (f : ε → δ) :
    Meets (mapError f m) Q := by
  obtain ⟨r, hr, hok⟩ := h
  refine ⟨Except.mapError f r, ?_, ?_⟩
  · show m.run.map _ = _
    rw [hr]
    rfl
  · rintro a ha
    cases r with
    | error e => cases ha
    | ok b =>
      cases ha
      exact hok _ rfl

theorem meets_ite {c : Prop} [Decidable c] {m m' : Guarded ε α} (hm : c → Meets m Q)
    (hm' : ¬c → Meets m' Q) : Meets (if c then m else m') Q := by
  split
  · exact hm ‹_›
  · exact hm' ‹_›

theorem meets_index {l : List α} {i : Nat} (hi : i < l.length) (hQ : ∀ a, l[i]? = some a → Q a) :
    Meets (index l i : Guarded ε α) Q := by
  unfold index
  rw [List.getElem?_eq_getElem hi]
  exact meets_pure (hQ _ (List.getElem?_eq_getElem hi))

theorem meets_setAt {l : List α} {i : Nat} {a : α} {R : List α → Prop} (hi : i < l.length)
    (hR : R (l.set i a)) : Meets (setAt l i a : Guarded ε (List α)) R := by
  unfold setAt
  rw [if_pos hi]
  exact meets_pure hR

theorem meets_slice {l : List α} {i j : Nat} {R : List α → Prop} (hij : i ≤ j)
    (hj : j ≤ l.length) (hR : R ((l.take j).drop i)) :
    Meets (slice l i j : Guarded ε (List α)) R := by
  unfold slice
  rw [if_pos ⟨hij, hj⟩]
  exact meets_pure hR

theorem meets_sub {a b : Nat} {R : Nat → Prop} (h : b ≤ a) (hR : R (a - b)) :
    Meets (sub a b : Guarded ε Nat) R := by
  unfold sub
  rw [if_pos h]
  exact meets_pure hR

theorem meets_unsigned {bits n : Nat} {R : Nat → Prop} (h : n < 2 ^ bits) (hR : R n) :
    Meets (unsigned bits n : Guarded ε Nat) R := by
  unfold unsigned
  rw [if_pos h]
  exact meets_pure hR

theorem meets_i32 {x : Int} {R : Int → Prop} (hlo : -2 ^ 31 ≤ x) (hhi : x < 2 ^ 31) (hR : R x) :
    Meets (i32 x : Guarded ε Int) R := by
  unfold i32
  rw [if_pos ⟨hlo, hhi⟩]
  exact meets_pure hR

/-- A loop whose body keeps its invariant and lowers a measure ends. -/
theorem meets_loop {body : σ → Guarded ε (Next σ ρ)} {I : σ → Prop} {R : ρ → Prop}
    (size : σ → Nat)
    (hbody : ∀ s, I s → Meets (body s) fun next =>
      match next with
      | .again s' => I s' ∧ size s' < size s
      | .done r => R r)
    {fuel : Nat} {s : σ} (hs : I s) (hfuel : size s < fuel) : Meets (loop body fuel s) R := by
  induction fuel generalizing s with
  | zero => cases hfuel
  | succ fuel ih =>
    refine (hbody s hs).bind ?_
    intro next hnext
    cases next with
    | again s' => exact ih hnext.1 (by have := hnext.2; omega)
    | done r => exact meets_pure hnext

theorem meets_while {cond : σ → Bool} {body : σ → Guarded ε σ} {I : σ → Prop} (size : σ → Nat)
    (hbody : ∀ s, I s → cond s = true → Meets (body s) fun s' => I s' ∧ size s' < size s)
    {fuel : Nat} {s : σ} (hs : I s) (hfuel : size s < fuel) :
    Meets (whileLoop cond body fuel s) fun s' => I s' ∧ cond s' = false := by
  induction fuel generalizing s with
  | zero => cases hfuel
  | succ fuel ih =>
    refine meets_ite ?_ ?_
    · intro hc
      refine (hbody s hs hc).bind ?_
      intro s' hs'
      exact ih hs'.1 (by have := hs'.2; omega)
    · intro hc
      exact meets_pure ⟨hs, by simpa using hc⟩

end Rules

section Ends

variable {E : ε → Prop} {P Q : α → Prop}

theorem ends_pure {a : α} (h : Q a) : Ends (pure a : Guarded ε α) E Q := by
  refine ⟨.ok a, rfl, ?_, ?_⟩
  · rintro e he
    cases he
  · rintro b hb
    cases hb
    exact h

theorem ends_throw {e : ε} (h : E e) : Ends (throw e : Guarded ε α) E Q := by
  refine ⟨.error e, rfl, ?_, ?_⟩
  · rintro e' he
    cases he
    exact h
  · rintro a ha
    cases ha

theorem Ends.bind {m : Guarded ε α} {f : α → Guarded ε β} {R : β → Prop} (hm : Ends m E P)
    (hf : ∀ a, P a → Ends (f a) E R) : Ends (m >>= f) E R := by
  obtain ⟨r, hr, herr, hok⟩ := hm
  cases r with
  | error e =>
    refine ⟨.error e, ?_, ?_, ?_⟩
    · rw [ExceptT.run_bind, hr]
      rfl
    · intro e' he
      cases he
      exact herr e rfl
    · intro b hb
      cases hb
  | ok a =>
    obtain ⟨r, hr', hends⟩ := hf a (hok a rfl)
    refine ⟨r, ?_, hends⟩
    rw [ExceptT.run_bind, hr]
    exact hr'

theorem ends_ite {c : Prop} [Decidable c] {m m' : Guarded ε α} (hm : c → Ends m E Q)
    (hm' : ¬c → Ends m' E Q) : Ends (if c then m else m') E Q := by
  split
  · exact hm ‹_›
  · exact hm' ‹_›

theorem Ends.mapError {m : Guarded δ α} {D : δ → Prop} (h : Ends m D Q) {f : δ → ε}
    (hf : ∀ e, D e → E (f e)) : Ends (Guarded.mapError f m) E Q := by
  obtain ⟨r, hr, herr, hok⟩ := h
  refine ⟨Except.mapError f r, ?_, ?_, ?_⟩
  · show m.run.map _ = _
    rw [hr]
    rfl
  · rintro e he
    cases r with
    | error e' =>
      cases he
      exact hf e' (herr e' rfl)
    | ok a => cases he
  · rintro a ha
    cases r with
    | error e => cases ha
    | ok b =>
      cases ha
      exact hok _ rfl

theorem Meets.ends {m : Guarded ε α} (h : Meets m Q) : Ends m (fun _ => True) Q := by
  obtain ⟨r, hr, hok⟩ := h
  exact ⟨r, hr, fun _ _ => trivial, hok⟩

theorem Meets.ends_mapError {m : Guarded δ α} (h : Meets m Q) {f : δ → ε} (hf : ∀ e, E (f e)) :
    Ends (Guarded.mapError f m) E Q :=
  h.ends.mapError fun e _ => hf e

end Ends

end Guarded

end Runs

namespace Checked

/-- Unsigned operations on 64-bit words: `none` is the panic of a build with overflow checks. -/
def addU64 (a b : Nat) : Option Nat := if a + b < 2 ^ 64 then some (a + b) else none

def subU64 (a b : Nat) : Option Nat := if b ≤ a then some (a - b) else none

def mulU64 (a b : Nat) : Option Nat := if a * b < 2 ^ 64 then some (a * b) else none

def divU64 (a b : Nat) : Option Nat := if b = 0 then none else some (a / b)

/-- Signed operations on 32-bit words. -/
def addI32 (a b : Int) : Option Int :=
  if -2 ^ 31 ≤ a + b ∧ a + b < 2 ^ 31 then some (a + b) else none

def subI32 (a b : Int) : Option Int :=
  if -2 ^ 31 ≤ a - b ∧ a - b < 2 ^ 31 then some (a - b) else none

/-- A cast to 32 bits; one that changes the value stops as well. -/
def asI32 (n : Nat) : Option Int := if n < 2 ^ 31 then some n else none

theorem addU64_eq {a b : Nat} (h : a + b < 2 ^ 64) : addU64 a b = some (a + b) := if_pos h

theorem subU64_eq {a b : Nat} (h : b ≤ a) : subU64 a b = some (a - b) := if_pos h

theorem mulU64_eq {a b : Nat} (h : a * b < 2 ^ 64) : mulU64 a b = some (a * b) := if_pos h

theorem divU64_eq {a b : Nat} (h : 0 < b) : divU64 a b = some (a / b) :=
  if_neg (Nat.ne_of_gt h)

theorem addI32_eq {a b : Int} (h : -2 ^ 31 ≤ a + b) (h' : a + b < 2 ^ 31) :
    addI32 a b = some (a + b) := if_pos ⟨h, h'⟩

theorem subI32_eq {a b : Int} (h : -2 ^ 31 ≤ a - b) (h' : a - b < 2 ^ 31) :
    subI32 a b = some (a - b) := if_pos ⟨h, h'⟩

theorem asI32_eq {n : Nat} (h : n < 2 ^ 31) : asI32 n = some (n : Int) := if_pos h

end Checked
