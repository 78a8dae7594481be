import Mathlib.Data.Nat.Log
import Mathlib.Tactic.Ring
import Mathlib.Tactic.Linarith

namespace Bits

/-- A finite stack of bits kept as a number: the field pushed last is the most significant. -/
@[ext]
structure Stack where
  value : Nat
  len : Nat
  lt : value < 2 ^ len

namespace Stack

def empty : Stack := ⟨0, 0, by simp⟩

/-- Push the low `n` bits of `b` on top. -/
def push (s : Stack) (b n : Nat) : Stack where
  value := s.value + b % 2 ^ n * 2 ^ s.len
  len := s.len + n
  lt := by
    have hb : b % 2 ^ n < 2 ^ n := Nat.mod_lt _ (by positivity)
    have hs := s.lt
    calc s.value + b % 2 ^ n * 2 ^ s.len
        < (b % 2 ^ n + 1) * 2 ^ s.len := by rw [Nat.add_one_mul]; omega
      _ ≤ 2 ^ n * 2 ^ s.len := Nat.mul_le_mul_right _ hb
      _ = 2 ^ (s.len + n) := by rw [Nat.pow_add, Nat.mul_comm]

/-- The `n` bits on top; a read past the bottom is filled up with zeros. -/
def top (s : Stack) (n : Nat) : Nat :=
  s.value * 2 ^ n / 2 ^ s.len

/-- What is left once the top `n` bits are gone. -/
def rest (s : Stack) (n : Nat) : Stack where
  value := s.value % 2 ^ (s.len - n)
  len := s.len - n
  lt := Nat.mod_lt _ (by positivity)

@[simp] theorem empty_len : empty.len = 0 := rfl
@[simp] theorem empty_value : empty.value = 0 := rfl
@[simp] theorem push_len (s : Stack) (b n : Nat) : (s.push b n).len = s.len + n := rfl
@[simp] theorem rest_len (s : Stack) (n : Nat) : (s.rest n).len = s.len - n := rfl

theorem push_value (s : Stack) (b n : Nat) :
    (s.push b n).value = s.value + b % 2 ^ n * 2 ^ s.len := rfl

theorem push_value_of_lt (s : Stack) {b n : Nat} (h : b < 2 ^ n) :
    (s.push b n).value = s.value + b * 2 ^ s.len := by
  rw [push_value, Nat.mod_eq_of_lt h]

@[simp] theorem push_zero (s : Stack) (b : Nat) : s.push b 0 = s := by
  ext <;> simp [push, Nat.mod_one]

theorem eq_empty_of_len (s : Stack) (h : s.len = 0) : s = empty := by
  have := s.lt
  rw [h] at this
  ext
  · simpa using this
  · exact h

theorem top_lt (s : Stack) (n : Nat) : s.top n < 2 ^ n := by
  unfold top
  rw [Nat.div_lt_iff_lt_mul (by positivity), Nat.mul_comm]
  exact Nat.mul_lt_mul_of_pos_left s.lt (by positivity)

@[simp] theorem top_zero (s : Stack) : s.top 0 = 0 := by
  have := s.top_lt 0
  omega

@[simp] theorem rest_zero (s : Stack) : s.rest 0 = s := by
  ext
  · simp [rest, Nat.mod_eq_of_lt s.lt]
  · simp

/-- Within the stack the top bits are a plain quotient. -/
theorem top_of_le (s : Stack) {n : Nat} (h : n ≤ s.len) :
    s.top n = s.value / 2 ^ (s.len - n) := by
  have he : 2 ^ s.len = 2 ^ (s.len - n) * 2 ^ n := by rw [← Nat.pow_add]; congr 1; omega
  rw [top, he, Nat.mul_div_mul_right _ _ (by positivity)]

/-- Past the bottom the whole stack is shifted up. -/
theorem top_of_ge (s : Stack) {n : Nat} (h : s.len ≤ n) :
    s.top n = s.value * 2 ^ (n - s.len) := by
  have he : 2 ^ n = 2 ^ (n - s.len) * 2 ^ s.len := by rw [← Nat.pow_add]; congr 1; omega
  rw [top, he, ← Nat.mul_assoc, Nat.mul_div_cancel _ (by positivity)]

@[simp] theorem empty_top (n : Nat) : empty.top n = 0 := by simp [top]

theorem rest_eq_empty (s : Stack) {n : Nat} (h : s.len ≤ n) : s.rest n = empty :=
  eq_empty_of_len _ (by simp; omega)

/-- The pushed field is read back. -/
@[simp] theorem top_push (s : Stack) (b n : Nat) : (s.push b n).top n = b % 2 ^ n := by
  rw [top_of_le _ (by simp), push_value, push_len, Nat.add_sub_cancel,
    Nat.add_mul_div_right _ _ (by positivity), Nat.div_eq_of_lt s.lt, Nat.zero_add]

/-- Reading a pushed field uncovers the stack it was pushed on. -/
@[simp] theorem rest_push (s : Stack) (b n : Nat) : (s.push b n).rest n = s := by
  ext
  · simp only [rest, push_value, push_len, Nat.add_sub_cancel]
    rw [Nat.add_mul_mod_self_right, Nat.mod_eq_of_lt s.lt]
  · simp

/-- A one under a wider zero prefix of the field is the same one with a zero bit on top. -/
theorem push_one_succ (s : Stack) (k : Nat) :
    s.push 1 (k + 1 + 1) = (s.push 1 (k + 1)).push 0 1 := by
  have h (n : Nat) : 1 % 2 ^ (n + 1) = 1 :=
    Nat.mod_eq_of_lt (Nat.one_lt_two_pow (Nat.succ_ne_zero n))
  ext
  · simp [push_value, h]
  · simp [Nat.add_assoc]

/-- Two reads in a row reach as deep as one read of both widths. -/
@[simp] theorem rest_rest (s : Stack) (m n : Nat) : (s.rest m).rest n = s.rest (m + n) := by
  ext
  · simp only [rest, Nat.sub_sub]
    exact Nat.mod_mod_of_dvd _ (Nat.pow_dvd_pow 2 (by omega))
  · simp [Nat.sub_sub]

/-- A wide read is the narrow read followed by the read of what is left. -/
theorem top_add (s : Stack) (m n : Nat) :
    s.top (m + n) = s.top m * 2 ^ n + (s.rest m).top n := by
  rcases Nat.le_total s.len m with h | h
  · rw [top_of_ge _ (by omega), top_of_ge _ h, rest_eq_empty _ h, empty_top, Nat.add_zero,
      Nat.mul_assoc, ← Nat.pow_add]
    congr 2
    omega
  · have hs : s.value = s.top m * 2 ^ (s.len - m) + (s.rest m).value := by
      rw [top_of_le _ h]
      exact (Nat.div_add_mod' _ _).symm
    have hm : 2 ^ (m + n) = 2 ^ n * 2 ^ m := by rw [Nat.add_comm, Nat.pow_add]
    have hl : 2 ^ s.len = 2 ^ (s.len - m) * 2 ^ m := by rw [← Nat.pow_add]; congr 1; omega
    rw [top, hm, hl, ← Nat.mul_assoc, Nat.mul_div_mul_right _ _ (by positivity)]
    have hr : (s.rest m).top n = (s.rest m).value * 2 ^ n / 2 ^ (s.len - m) := rfl
    rw [hr]
    conv_lhs => rw [hs]
    rw [Nat.add_mul, Nat.add_comm, Nat.mul_right_comm, Nat.add_mul_div_right _ _ (by positivity),
      Nat.add_comm]

/-- The low part of a wide read is the second of the two narrow ones. -/
theorem top_rest (s : Stack) (m n : Nat) : (s.rest m).top n = s.top (m + n) % 2 ^ n := by
  rw [top_add, Nat.mul_add_mod_self_right, Nat.mod_eq_of_lt (top_lt _ _)]

/-- The high part of a wide read is the first of the two narrow ones. -/
theorem top_eq_div (s : Stack) (m n : Nat) : s.top m = s.top (m + n) / 2 ^ n := by
  rw [top_add, Nat.add_comm, Nat.add_mul_div_right _ _ (by positivity),
    Nat.div_eq_of_lt (top_lt _ _), Nat.zero_add]

/-- Push a run of fields, the first of the list first. -/
def pushAll (s : Stack) : List (Nat × Nat) → Stack
  | [] => s
  | f :: fs => (s.push f.1 f.2).pushAll fs

@[simp] theorem pushAll_nil (s : Stack) : s.pushAll [] = s := rfl

@[simp] theorem pushAll_cons (s : Stack) (f : Nat × Nat) (fs : List (Nat × Nat)) :
    s.pushAll (f :: fs) = (s.push f.1 f.2).pushAll fs := rfl

theorem pushAll_append (s : Stack) (fs gs : List (Nat × Nat)) :
    s.pushAll (fs ++ gs) = (s.pushAll fs).pushAll gs := by
  induction fs generalizing s with
  | nil => rfl
  | cons f fs ih => exact ih _

@[simp] theorem pushAll_len (s : Stack) (fs : List (Nat × Nat)) :
    (s.pushAll fs).len = s.len + (fs.map Prod.snd).sum := by
  induction fs generalizing s with
  | nil => simp
  | cons f fs ih => simp [ih, Nat.add_assoc]

/-- `under` lies below `s` when `s` grew on top of it. -/
def on (under s : Stack) : Stack where
  value := under.value + s.value * 2 ^ under.len
  len := under.len + s.len
  lt := by
    calc under.value + s.value * 2 ^ under.len
        < (s.value + 1) * 2 ^ under.len := by rw [Nat.add_one_mul]; have := under.lt; omega
      _ ≤ 2 ^ s.len * 2 ^ under.len := Nat.mul_le_mul_right _ s.lt
      _ = 2 ^ (under.len + s.len) := by rw [Nat.pow_add, Nat.mul_comm]

@[simp] theorem on_empty (u : Stack) : u.on empty = u := by
  ext <;> simp [on]

@[simp] theorem on_push (u s : Stack) (b n : Nat) : u.on (s.push b n) = (u.on s).push b n := by
  ext
  · simp only [on, push]
    rw [Nat.add_mul, Nat.mul_assoc, ← Nat.pow_add, Nat.add_assoc, Nat.add_comm s.len]
  · simp [on, push, Nat.add_assoc]

theorem on_pushAll (u s : Stack) (fs : List (Nat × Nat)) :
    u.on (s.pushAll fs) = (u.on s).pushAll fs := by
  induction fs generalizing s with
  | nil => rfl
  | cons f fs ih => simp [ih]

/-- What grew above a known base is determined. -/
theorem on_injective (u : Stack) {s t : Stack} (h : u.on s = u.on t) : s = t := by
  have hv := congrArg value h
  have hl := congrArg len h
  simp only [on] at hv hl
  ext
  · exact Nat.eq_of_mul_eq_mul_right (by positivity : 0 < 2 ^ u.len) (by omega)
  · omega

/-- What lies above the lowest `k` bits. -/
def above (s : Stack) (k : Nat) : Stack where
  value := s.value / 2 ^ k
  len := s.len - k
  lt := by
    rw [Nat.div_lt_iff_lt_mul (by positivity), ← Nat.pow_add]
    exact s.lt.trans_le (Nat.pow_le_pow_right (by decide) (by omega))

@[simp] theorem above_len (s : Stack) (k : Nat) : (s.above k).len = s.len - k := rfl

/-- The lowest bits may settle first. -/
theorem on_above (u s t : Stack) {k : Nat} (hk : k ≤ s.len) (hlen : t.len = u.len + k)
    (hvalue : t.value = u.value + s.value % 2 ^ k * 2 ^ u.len) : t.on (s.above k) = u.on s := by
  ext
  · have hsplit := Nat.div_add_mod' s.value (2 ^ k)
    simp only [on, above, hlen, hvalue, Nat.pow_add]
    generalize s.value / 2 ^ k = hi at hsplit ⊢
    generalize s.value % 2 ^ k = lo at hsplit ⊢
    rw [← hsplit]
    ring
  · simp only [on, above_len, hlen]
    omega

end Stack

end Bits
