import Mathlib.Algebra.Ring.Parity
import Mathlib.Data.Nat.Bitwise
import StructuredZstd.Bits.Stack

namespace Bits

/-- The number a little-endian byte string stands for. -/
def le : List UInt8 → Nat
  | [] => 0
  | b :: bs => b.toNat + 256 * le bs

/-- The low `n` bytes of `x`, least significant first. -/
def toLeBytes : Nat → Nat → List UInt8
  | 0, _ => []
  | n + 1, x => UInt8.ofNat x :: toLeBytes n (x / 256)

@[simp] theorem le_nil : le [] = 0 := rfl

@[simp] theorem toLeBytes_length (n x : Nat) : (toLeBytes n x).length = n := by
  induction n generalizing x with
  | zero => rfl
  | succ n ih => simp [toLeBytes, ih]

theorem two_pow_eight_mul_succ (n : Nat) : 2 ^ (8 * (n + 1)) = 256 * 2 ^ (8 * n) := by
  rw [Nat.mul_add, Nat.pow_add, Nat.mul_comm]

theorem le_lt (bs : List UInt8) : le bs < 2 ^ (8 * bs.length) := by
  induction bs with
  | nil => simp
  | cons b bs ih =>
    have hb : b.toNat < 256 := b.toNat_lt
    rw [List.length_cons, two_pow_eight_mul_succ, le]
    omega

theorem le_append (as bs : List UInt8) :
    le (as ++ bs) = le as + le bs * 2 ^ (8 * as.length) := by
  induction as with
  | nil => simp
  | cons a as ih =>
    rw [List.cons_append, le, le, ih, List.length_cons, two_pow_eight_mul_succ]
    ring

theorem le_singleton (b : UInt8) : le [b] = b.toNat := by
  rw [le, le_nil, Nat.mul_zero, Nat.add_zero]

@[simp] theorem le_replicate_zero (n : Nat) : le (List.replicate n 0) = 0 := by
  induction n with
  | zero => rfl
  | succ n ih => rw [List.replicate_succ, le, ih]; rfl

theorem le_toLeBytes (n x : Nat) : le (toLeBytes n x) = x % 2 ^ (8 * n) := by
  induction n generalizing x with
  | zero => simp [toLeBytes, Nat.mod_one]
  | succ n ih =>
    rw [toLeBytes, le, ih, two_pow_eight_mul_succ, Nat.mod_mul]
    simp

theorem le_drop (bs : List UInt8) (k : Nat) : le (bs.drop k) = le bs / 2 ^ (8 * k) := by
  rcases Nat.le_total k bs.length with h | h
  · have ht : (bs.take k).length = k := by simp [h]
    have hs := le_append (bs.take k) (bs.drop k)
    rw [List.take_append_drop, ht] at hs
    have hl := le_lt (bs.take k)
    rw [ht] at hl
    rw [hs, Nat.add_mul_div_right _ _ (by positivity), Nat.div_eq_of_lt hl, Nat.zero_add]
  · rw [List.drop_of_length_le h, le_nil, Nat.div_eq_of_lt]
    exact Nat.lt_of_lt_of_le (le_lt bs) (Nat.pow_le_pow_right (by decide) (by omega))

theorem le_take (bs : List UInt8) (k : Nat) : le (bs.take k) = le bs % 2 ^ (8 * k) := by
  rcases Nat.le_total k bs.length with h | h
  · have ht : (bs.take k).length = k := by simp [h]
    have hs := le_append (bs.take k) (bs.drop k)
    rw [List.take_append_drop, ht] at hs
    have hl := le_lt (bs.take k)
    rw [ht] at hl
    rw [hs, Nat.add_mul_mod_self_right, Nat.mod_eq_of_lt hl]
  · rw [List.take_of_length_le h, Nat.mod_eq_of_lt]
    exact Nat.lt_of_lt_of_le (le_lt bs) (Nat.pow_le_pow_right (by decide) (by omega))

/-- A byte string as a stack of bits, its last byte on top. -/
def Stack.ofBytes (bs : List UInt8) : Stack := ⟨le bs, 8 * bs.length, le_lt bs⟩

@[simp] theorem Stack.ofBytes_len (bs : List UInt8) :
    (Stack.ofBytes bs).len = 8 * bs.length := rfl

@[simp] theorem Stack.ofBytes_value (bs : List UInt8) : (Stack.ofBytes bs).value = le bs := rfl

@[simp] theorem Stack.ofBytes_nil : Stack.ofBytes [] = Stack.empty := rfl

theorem Stack.ofBytes_append (as bs : List UInt8) :
    Stack.ofBytes (as ++ bs) = (Stack.ofBytes as).on (Stack.ofBytes bs) := by
  ext
  · simp [Stack.on, le_append]
  · simp [Stack.on, Nat.mul_add]

theorem le_injective {as bs : List UInt8} (hl : as.length = bs.length) (h : le as = le bs) :
    as = bs := by
  induction as generalizing bs with
  | nil => exact (List.length_eq_zero_iff.mp hl.symm).symm
  | cons a as ih =>
    cases bs with
    | nil => simp at hl
    | cons b bs =>
      simp only [le] at h
      have ha : a.toNat < 256 := a.toNat_lt
      have hb : b.toNat < 256 := b.toNat_lt
      have hab : a = b := UInt8.toNat_inj.mp (by omega)
      rw [hab, ih (by simpa using hl) (by omega)]

theorem Stack.ofBytes_injective {as bs : List UInt8} (h : Stack.ofBytes as = Stack.ofBytes bs) :
    as = bs := by
  refine le_injective ?_ (congrArg Stack.value h)
  have hlen := congrArg Stack.len h
  rw [Stack.ofBytes_len, Stack.ofBytes_len] at hlen
  exact Nat.eq_of_mul_eq_mul_left (by decide) hlen

/-- Bytes whose bits grew on top of those of `as` extend `as`. -/
theorem Stack.ofBytes_eq_on {as bs : List UInt8} {t : Stack}
    (h : Stack.ofBytes bs = (Stack.ofBytes as).on t) :
    ∃ cs, bs = as ++ cs ∧ Stack.ofBytes cs = t := by
  have hl : 8 * bs.length = 8 * as.length + t.len := congrArg Stack.len h
  have hv : le bs = le as + t.value * 2 ^ (8 * as.length) := congrArg Stack.value h
  have htake : bs.take as.length = as := by
    apply le_injective
    · simp; omega
    · rw [le_take, hv, Nat.add_mul_mod_self_right, Nat.mod_eq_of_lt (le_lt as)]
  refine ⟨bs.drop as.length, ?_, ?_⟩
  · conv_lhs => rw [← List.take_append_drop as.length bs, htake]
  · apply Stack.on_injective (Stack.ofBytes as)
    rw [← Stack.ofBytes_append, ← h]
    conv_rhs => rw [← List.take_append_drop as.length bs, htake]

/-- Or-ing a field above `n` held bits adds it there. -/
theorem lor_shiftLeft {a n : Nat} (b : Nat) (h : a < 2 ^ n) :
    a ||| (b <<< n) = a + b * 2 ^ n := by
  rw [Nat.or_comm, ← Nat.shiftLeft_add_eq_or_of_lt h, Nat.shiftLeft_eq, Nat.add_comm]

theorem lt_of_shiftRight_eq_zero {b n : Nat} (h : b >>> n = 0) : b < 2 ^ n := by
  rw [Nat.shiftRight_eq_div_pow] at h
  exact Nat.lt_of_div_eq_zero (by positivity) h

/-- The fields stand in `x` from bit `pos` on, least significant bit first. -/
def Ahead (x : Nat) : Nat → List (Nat × Nat) → Prop
  | _, [] => True
  | pos, f :: fs => x / 2 ^ pos % 2 ^ f.2 = f.1 ∧ Ahead x (pos + f.2) fs

/-- The bits a run of fields takes. -/
def widths (fs : List (Nat × Nat)) : Nat := (fs.map Prod.snd).sum

@[simp] theorem widths_nil : widths [] = 0 := rfl

@[simp] theorem widths_cons (f : Nat × Nat) (fs : List (Nat × Nat)) :
    widths (f :: fs) = f.2 + widths fs := rfl

@[simp] theorem widths_append (fs gs : List (Nat × Nat)) :
    widths (fs ++ gs) = widths fs + widths gs := by
  rw [widths, List.map_append, List.sum_append]
  rfl

theorem Ahead.append {x pos : Nat} {fs gs : List (Nat × Nat)} (h : Ahead x pos (fs ++ gs)) :
    Ahead x pos fs ∧ Ahead x (pos + widths fs) gs := by
  induction fs generalizing pos with
  | nil => exact ⟨trivial, h⟩
  | cons f fs ih =>
    obtain ⟨h₁, h₂⟩ := ih h.2
    rw [Nat.add_assoc] at h₂
    exact ⟨⟨h.1, h₁⟩, h₂⟩

/-- What lies under the fields shows in the low bits. -/
theorem Stack.pushAll_value_mod (s : Stack) (fs : List (Nat × Nat)) :
    (s.pushAll fs).value % 2 ^ s.len = s.value := by
  induction fs generalizing s with
  | nil => exact Nat.mod_eq_of_lt s.lt
  | cons f fs ih =>
    have h := ih (s.push f.1 f.2)
    rw [push_len] at h
    rw [pushAll_cons, ← Nat.mod_mod_of_dvd _ (Nat.pow_dvd_pow 2 (Nat.le_add_right s.len f.2)), h,
      push_value, Nat.add_mul_mod_self_right, Nat.mod_eq_of_lt s.lt]

/-- Clean fields pushed one after the other stand ahead of where they were pushed, under
whatever comes on top of them. -/
theorem Stack.ahead_pushAll {s : Stack} {fs : List (Nat × Nat)} {x : Nat}
    (hclean : ∀ f ∈ fs, f.1 < 2 ^ f.2)
    (hx : x % 2 ^ (s.pushAll fs).len = (s.pushAll fs).value) : Ahead x s.len fs := by
  induction fs generalizing s with
  | nil => trivial
  | cons f fs ih =>
    have hrest : ∀ g ∈ fs, g.1 < 2 ^ g.2 := fun g hg => hclean g (List.mem_cons_of_mem f hg)
    refine ⟨?_, ih (s := s.push f.1 f.2) hrest hx⟩
    have hlow : x % 2 ^ (s.len + f.2) = (s.push f.1 f.2).value := by
      rw [pushAll_cons] at hx
      rw [← pushAll_value_mod (s.push f.1 f.2) fs, push_len, ← hx, Nat.mod_mod_of_dvd]
      apply Nat.pow_dvd_pow
      rw [pushAll_len, push_len]
      exact Nat.le_add_right _ _
    rw [← Nat.mod_mul_right_div_self, ← Nat.pow_add, hlow,
      push_value_of_lt s (hclean f List.mem_cons_self),
      Nat.add_mul_div_right _ _ (Nat.two_pow_pos s.len), Nat.div_eq_of_lt s.lt, Nat.zero_add]

/-- Bytes that hold the fields keep them ahead of any bytes that follow. -/
theorem ahead_of_bytes {bytes tail : List UInt8} {fs : List (Nat × Nat)}
    (hclean : ∀ f ∈ fs, f.1 < 2 ^ f.2) (h : Stack.ofBytes bytes = Stack.empty.pushAll fs) :
    Ahead (le (bytes ++ tail)) 0 fs := by
  apply Stack.ahead_pushAll (s := Stack.empty) hclean
  rw [← h, Stack.ofBytes_len, Stack.ofBytes_value, le_append, Nat.add_mul_mod_self_right,
    Nat.mod_eq_of_lt (le_lt bytes)]

section Marked

variable {width : Nat}

/-- A word of `width` bits moved up by `c`, its lowest bit set to mark how far. -/
def marked (width word c : Nat) : Nat := ((word ||| 1) <<< c) % 2 ^ width

theorem or_one_div (word : Nat) {n : Nat} (hn : 0 < n) : (word ||| 1) / 2 ^ n = word / 2 ^ n := by
  have hone : 1 / 2 ^ n = 0 := Nat.div_eq_of_lt (Nat.one_lt_two_pow hn.ne')
  rw [Nat.or_div_two_pow, hone, Nat.or_zero]

/-- Above the mark the word is as it was. -/
theorem marked_top (word : Nat) {c n : Nat} (h : c + n < width) :
    marked width word c >>> (width - n) = word / 2 ^ (width - (c + n)) % 2 ^ n := by
  have hwidth : 2 ^ width = 2 ^ (width - n) * 2 ^ n := by
    rw [← Nat.pow_add, Nat.sub_add_cancel (by omega)]
  have hshift : 2 ^ (width - n) = 2 ^ (width - (c + n)) * 2 ^ c := by
    rw [← Nat.pow_add]
    congr 1
    omega
  rw [marked, Nat.shiftRight_eq_div_pow, Nat.shiftLeft_eq, hwidth, Nat.mod_mul_right_div_self,
    hshift, Nat.mul_div_mul_right _ _ (Nat.two_pow_pos c), or_one_div word (by omega)]

/-- Moving up takes the mark along. -/
theorem marked_shift (word c n : Nat) :
    (marked width word c <<< n) % 2 ^ width = marked width word (c + n) := by
  rw [marked, marked, Nat.shiftLeft_eq, Nat.mod_mul_mod, Nat.shiftLeft_add, ← Nat.shiftLeft_eq]

/-- The mark is the lowest bit that is set. -/
theorem marked_eq_odd (word : Nat) {c : Nat} (hc : c < width) :
    ∃ y, y % 2 = 1 ∧ marked width word c = y * 2 ^ c := by
  have hwidth : 2 ^ width = 2 ^ (width - c) * 2 ^ c := by
    rw [← Nat.pow_add, Nat.sub_add_cancel hc.le]
  have heven : 2 ∣ 2 ^ (width - c) := dvd_pow_self 2 (by omega)
  refine ⟨(word ||| 1) % 2 ^ (width - c), ?_, ?_⟩
  · rw [Nat.mod_mod_of_dvd _ heven, Nat.or_mod_two_eq_one]
    exact .inr rfl
  · rw [marked, Nat.shiftLeft_eq, hwidth, Nat.mul_mod_mul_right]

end Marked

end Bits
