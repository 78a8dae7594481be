import StructuredZstd.Bits.Bytes
import StructuredZstd.Bits.Circular

namespace Bits

/-- The low `n` bits of a number, the lowest first. -/
def bitList (n value : Nat) : List Bool := (List.range n).map value.testBit

/-- The bits of a byte string, byte after byte, the lowest first. -/
def bytesBits (data : List UInt8) : List Bool := data.flatMap fun b => bitList 8 b.toNat

theorem bytesBits_cons (b : UInt8) (data : List UInt8) :
    bytesBits (b :: data) = bitList 8 b.toNat ++ bytesBits data := rfl

@[simp] theorem length_bitList (n value : Nat) : (bitList n value).length = n := by
  simp [bitList]

theorem getElem?_bitList {n i : Nat} (h : i < n) (value : Nat) :
    (bitList n value)[i]? = some (value.testBit i) := by
  simp [bitList, h]

theorem bitList_add (m n value : Nat) :
    bitList (m + n) value = bitList m value ++ bitList n (value / 2 ^ m) := by
  simp only [bitList, List.range_add, List.map_append, List.map_map]
  congr 1
  apply List.map_congr_left
  intro i _
  rw [Function.comp_apply, Nat.testBit_div_two_pow, Nat.add_comm]

theorem bitList_mod (n value : Nat) : bitList n (value % 2 ^ n) = bitList n value := by
  apply List.map_congr_left
  intro i hi
  rw [Nat.testBit_mod_two_pow, decide_eq_true (List.mem_range.mp hi), Bool.true_and]

theorem bitList_congr {n x y : Nat} (h : x % 2 ^ n = y % 2 ^ n) : bitList n x = bitList n y := by
  rw [← bitList_mod n x, h, bitList_mod]

theorem bitList_injective {n x y : Nat} (hx : x < 2 ^ n) (hy : y < 2 ^ n)
    (h : bitList n x = bitList n y) : x = y := by
  apply Nat.eq_of_testBit_eq
  intro i
  rcases Nat.lt_or_ge i n with hi | hi
  · have hbit := congrArg (·[i]?) h
    simp only [getElem?_bitList hi, Option.some.injEq] at hbit
    exact hbit
  · have hpow : 2 ^ n ≤ 2 ^ i := Nat.pow_le_pow_right (by decide) hi
    rw [Nat.testBit_lt_two_pow (hx.trans_le hpow), Nat.testBit_lt_two_pow (hy.trans_le hpow)]

/-- The bits of bytes are those of the number they stand for. -/
theorem bytesBits_eq (data : List UInt8) : bytesBits data = bitList (8 * data.length) (le data) := by
  induction data with
  | nil => rfl
  | cons b data ih =>
    have hb : b.toNat < 2 ^ 8 := b.toNat_lt
    have hlow : (b.toNat + 256 * le data) % 2 ^ 8 = b.toNat % 2 ^ 8 := by omega
    have hhigh : (b.toNat + 256 * le data) / 2 ^ 8 = le data := by omega
    rw [List.length_cons, Nat.mul_add, Nat.mul_one, Nat.add_comm _ 8, bitList_add, le, hhigh, ← ih,
      bitList_congr hlow]
    rfl

@[simp] theorem length_bytesBits (data : List UInt8) :
    (bytesBits data).length = 8 * data.length := by
  rw [bytesBits_eq, length_bitList]

theorem bytesBits_append (data more : List UInt8) :
    bytesBits (data ++ more) = bytesBits data ++ bytesBits more := List.flatMap_append

theorem bytesBits_injective {data more : List UInt8} (h : bytesBits data = bytesBits more) :
    data = more := by
  have hlen := congrArg List.length h
  rw [length_bytesBits, length_bytesBits] at hlen
  have hlen' : data.length = more.length := Nat.eq_of_mul_eq_mul_left (by decide) hlen
  rw [bytesBits_eq, bytesBits_eq, ← hlen'] at h
  apply le_injective hlen'
  refine bitList_injective (le_lt data) ?_ h
  rw [hlen']
  exact le_lt more

/-- The bits of a stack, the oldest first. -/
def Stack.bits (s : Stack) : List Bool := bitList s.len s.value

@[simp] theorem Stack.length_bits (s : Stack) : s.bits.length = s.len := length_bitList ..

theorem Stack.bits_push (s : Stack) (b n : Nat) : (s.push b n).bits = s.bits ++ bitList n b := by
  have hlow : (s.value + b % 2 ^ n * 2 ^ s.len) % 2 ^ s.len = s.value % 2 ^ s.len :=
    Nat.add_mul_mod_self_right ..
  have hhigh : (s.value + b % 2 ^ n * 2 ^ s.len) / 2 ^ s.len = b % 2 ^ n := by
    rw [Nat.add_mul_div_right _ _ (Nat.two_pow_pos s.len), Nat.div_eq_of_lt s.lt, Nat.zero_add]
  rw [Stack.bits, push_len, push_value, bitList_add, hhigh, bitList_mod, bitList_congr hlow]
  rfl

@[simp] theorem Stack.bits_ofBytes (data : List UInt8) : (Stack.ofBytes data).bits = bytesBits data :=
  (bytesBits_eq data).symm

/-- One bit of a byte string; past its end they are zeros. -/
def bitAt (data : List UInt8) (i : Nat) : Bool := (data.getD (i / 8) 0).toNat.testBit (i % 8)

theorem bytesBits_eq_map (data : List UInt8) :
    bytesBits data = (List.range (8 * data.length)).map (bitAt data) := by
  induction data with
  | nil => rfl
  | cons b data ih =>
    have hsplit : 8 * (b :: data).length = 8 + 8 * data.length := by
      rw [List.length_cons]
      omega
    have hfirst : bitList 8 b.toNat = (List.range 8).map (bitAt (b :: data)) := by
      apply List.map_congr_left
      intro i hi
      have hi' := List.mem_range.mp hi
      rw [bitAt, Nat.div_eq_of_lt hi', Nat.mod_eq_of_lt hi', List.getD_cons_zero]
    have hrest : (List.range (8 * data.length)).map (bitAt data) =
        (List.range (8 * data.length)).map (bitAt (b :: data) ∘ fun i => 8 + i) := by
      apply List.map_congr_left
      intro i _
      have hdiv : (8 + i) / 8 = i / 8 + 1 := by omega
      rw [Function.comp_apply, bitAt, bitAt, hdiv, Nat.add_mod_left, List.getD_cons_succ]
    rw [hsplit, List.range_add, List.map_append, List.map_map, bytesBits_cons, ih, hfirst, hrest]

theorem getElem?_bytesBits {data : List UInt8} {i : Nat} (h : i < 8 * data.length) :
    (bytesBits data)[i]? = some (bitAt data i) := by
  simp [bytesBits_eq_map, h]

theorem bitAt_set {data : List UInt8} {j : Nat} (hj : j < data.length) (c : UInt8) (i : Nat) :
    bitAt (data.set j c) i = if i / 8 = j then c.toNat.testBit (i % 8) else bitAt data i := by
  simp only [bitAt, List.getD_eq_getElem?_getD, List.getElem?_set]
  split_ifs with h₁ h₂ h₃
  · rfl
  · exact absurd h₁.symm h₂
  · exact absurd h₃.symm h₁
  · rfl

/-- Bits that agree with a field in its place, and with the old ones elsewhere. -/
theorem bytesBits_overwrite {data patched : List UInt8} {idx n value : Nat}
    (hlen : patched.length = data.length) (hend : idx + n ≤ 8 * data.length)
    (h : ∀ i < 8 * data.length, bitAt patched i =
      if idx ≤ i ∧ i < idx + n then value.testBit (i - idx) else bitAt data i) :
    bytesBits patched = Circular.overwrite (bytesBits data) idx (bitList n value) := by
  have htake : ((bytesBits data).take idx).length = idx := by
    rw [List.length_take, length_bytesBits, Nat.min_eq_left (by omega)]
  apply List.ext_getElem?
  intro i
  rcases Nat.lt_or_ge i (8 * data.length) with hi | hi
  · rw [getElem?_bytesBits (by rw [hlen]; exact hi), h i hi]
    simp only [Circular.overwrite, length_bitList, List.append_assoc]
    rcases Nat.lt_or_ge i idx with hlow | hin
    · rw [if_neg (by omega), List.getElem?_append_left (by omega), List.getElem?_take_of_lt hlow,
        getElem?_bytesBits hi]
    · rw [List.getElem?_append_right (by omega), htake]
      rcases Nat.lt_or_ge i (idx + n) with hfield | habove
      · rw [if_pos ⟨hin, hfield⟩, List.getElem?_append_left (by rw [length_bitList]; omega),
          getElem?_bitList (by omega)]
      · rw [if_neg (by omega), List.getElem?_append_right (by rw [length_bitList]; omega),
          length_bitList, List.getElem?_drop, show idx + n + (i - idx - n) = i by omega,
          getElem?_bytesBits hi]
  · have hfull : (Circular.overwrite (bytesBits data) idx (bitList n value)).length =
        8 * data.length := by
      rw [Circular.length_overwrite (by rw [length_bitList, length_bytesBits]; exact hend),
        length_bytesBits]
    rw [List.getElem?_eq_none (by rw [length_bytesBits, hlen]; exact hi),
      List.getElem?_eq_none (by rw [hfull]; exact hi)]

end Bits
