import StructuredZstd.Huff0.StreamSizes

namespace Huff0.Encoder

open Bits

/-- A code as the packed table has it. -/
def packField (field : Nat × Nat) : Nat := packHufCelt field.1 field.2

/-- A code that fits its width, of a width a table may have. -/
def FitsIn (log : Nat) (field : Nat × Nat) : Prop := field.1 < 2 ^ field.2 ∧ field.2 ≤ log

/-- The bits of a packed code: its value on top, its width at the bottom. -/
theorem packHufCelt_eq {v n : Nat} (hv : v < 2 ^ n) (hn : n ≤ 12) :
    packHufCelt v n = n + v * 2 ^ (64 - n) := by
  unfold packHufCelt
  split
  · rename_i h0
    subst h0
    rw [Nat.pow_zero, Nat.lt_one_iff] at hv
    rw [hv, Nat.zero_mul]
  · have hlt : n < 2 ^ (64 - n) :=
      (show n < 2 ^ 4 by omega).trans_le (Nat.pow_le_pow_right (by decide) (by omega))
    exact lor_shiftLeft v hlt

/-- The slow add masks the width out. -/
theorem packed_masked {v n : Nat} (hv : v < 2 ^ n) (hn : n ≤ 12) :
    (packHufCelt v n >>> 8) <<< 8 = v <<< (64 - n) := by
  have hpow : 2 ^ (64 - n) = 2 ^ (56 - n) * 256 := by
    rw [show 64 - n = 56 - n + 8 by omega, Nat.pow_add]
  rw [packHufCelt_eq hv hn, Nat.shiftRight_eq_div_pow, Nat.shiftLeft_eq, Nat.shiftLeft_eq, hpow,
    ← Nat.mul_assoc, show 2 ^ 8 = 256 from rfl, Nat.add_mul_div_right _ _ (by decide),
    Nat.div_eq_of_lt (show n < 256 by omega), Nat.zero_add]

namespace Container

/-- The top bits of the word are these, in the order they were added, and the `spare` bits below
them are clear; what is lower is left over from widths that were not masked out. -/
structure Holds (c : Container) (spare : Nat) (bits : Stack) : Prop where
  held_eq : c.held = bits.len
  fits : bits.len + spare ≤ 64
  top : c.word >>> (64 - (bits.len + spare)) = bits.value * 2 ^ spare

variable {c : Container} {bits : Stack} {spare v n : Nat}

theorem holds_blank (hspare : spare ≤ 64) : ({} : Container).Holds spare Stack.empty := by
  refine ⟨rfl, ?_, ?_⟩
  · rwa [Stack.empty_len, Nat.zero_add]
  · simp

theorem Holds.weaken (h : c.Holds spare bits) : c.Holds 0 bits := by
  refine ⟨h.held_eq, Nat.le_of_add_right_le h.fits, ?_⟩
  have hshift : 64 - (bits.len + 0) = 64 - (bits.len + spare) + spare := by
    have := h.fits
    omega
  rw [hshift, Nat.shiftRight_add, h.top, Nat.shiftRight_eq_div_pow,
    Nat.mul_div_cancel _ (by positivity), Nat.pow_zero, Nat.mul_one]

theorem Holds.word_lt (h : c.Holds spare bits) : c.word < 2 ^ 64 := by
  have hlt := bits.lt
  have htop := h.weaken.top
  have hsplit : 2 ^ 64 = 2 ^ bits.len * 2 ^ (64 - bits.len) := by
    rw [← Nat.pow_add]
    congr 1
    have := h.fits
    omega
  rw [Nat.add_zero, Nat.shiftRight_eq_div_pow, Nat.pow_zero, Nat.mul_one] at htop
  rw [hsplit, ← Nat.div_lt_iff_lt_mul (by positivity), htop]
  exact hlt

/-- A code on top of what the word holds, whatever is or-ed in below the bits it keeps. -/
theorem Holds.shift_in (h : c.Holds spare bits) (hv : v < 2 ^ n) {low : Nat}
    (hfits : bits.len + n + spare ≤ 64) (hlow : low < 2 ^ (64 - (bits.len + n + spare))) :
    ((c.word >>> n ||| v <<< (64 - n)) ||| low) >>> (64 - (bits.len + n + spare)) =
      (bits.push v n).value * 2 ^ spare := by
  have hword : c.word >>> n < 2 ^ (64 - n) := by
    rw [Nat.shiftRight_eq_div_pow, Nat.div_lt_iff_lt_mul (by positivity), ← Nat.pow_add,
      Nat.sub_add_cancel (by omega)]
    exact h.word_lt
  have hold : c.word >>> n >>> (64 - (bits.len + n + spare)) = bits.value * 2 ^ spare := by
    rw [← Nat.shiftRight_add, ← h.top]
    congr 1
    omega
  have hnew : v <<< (64 - n) >>> (64 - (bits.len + n + spare)) =
      v <<< (bits.len + spare) := by
    rw [show 64 - n = bits.len + spare + (64 - (bits.len + n + spare)) by omega, Nat.shiftLeft_add,
      Nat.shiftLeft_shiftRight]
  have hbelow : bits.value * 2 ^ spare < 2 ^ (bits.len + spare) := by
    rw [Nat.pow_add]
    exact Nat.mul_lt_mul_of_pos_right bits.lt (by positivity)
  have hclear : low >>> (64 - (bits.len + n + spare)) = 0 := by
    rw [Nat.shiftRight_eq_div_pow]
    exact Nat.div_eq_of_lt hlow
  rw [Nat.shiftRight_or_distrib, Nat.shiftRight_or_distrib, hold, hnew, hclear, Nat.or_zero,
    lor_shiftLeft _ hbelow, Stack.push_value_of_lt _ hv, Nat.pow_add]
  ring

/-- A code goes on top of the others. A fast one leaves its width below the bits held. -/
theorem Holds.add (h : c.Holds spare bits) (fast : Bool) (hv : v < 2 ^ n) (hn : n ≤ 12)
    (hfits : bits.len + n + spare ≤ if fast then 60 else 64) :
    (c.add fast (packHufCelt v n)).Holds spare (bits.push v n) := by
  have hle : bits.len + n + spare ≤ 64 := by
    split at hfits <;> omega
  have hheld : (c.add fast (packHufCelt v n)).held = bits.len + n := by
    rw [held_add_of_lt _ (by rw [width_packHufCelt hn, h.held_eq]; omega), width_packHufCelt hn,
      h.held_eq]
  have hwidth : packHufCelt v n &&& 0xFF = n := width_packHufCelt hn
  refine ⟨hheld, hle, ?_⟩
  simp only [Container.add, hwidth, Stack.push_len]
  cases fast with
  | true =>
    rw [if_pos rfl] at hfits
    have hlow : n < 2 ^ (64 - (bits.len + n + spare)) :=
      (show n < 2 ^ 4 by omega).trans_le (Nat.pow_le_pow_right (by decide) (by omega))
    have helt : packHufCelt v n = v <<< (64 - n) ||| n := by
      rw [packHufCelt_eq hv hn, Nat.or_comm, lor_shiftLeft]
      exact (show n < 2 ^ 4 by omega).trans_le (Nat.pow_le_pow_right (by decide) (by omega))
    rw [if_pos rfl, helt, ← Nat.or_assoc]
    exact h.shift_in hv hle hlow
  | false =>
    rw [if_neg Bool.false_ne_true, packed_masked hv hn]
    have := h.shift_in hv hle (show 0 < 2 ^ (64 - (bits.len + n + spare)) by positivity)
    rwa [Nat.or_zero] at this

/-- The bits a run of codes comes to. -/
def fieldBits (fields : List (Nat × Nat)) : Nat := (fields.map Prod.snd).sum

theorem fieldBits_cons (field : Nat × Nat) (fields : List (Nat × Nat)) :
    fieldBits (field :: fields) = field.2 + fieldBits fields := by
  simp [fieldBits]

theorem fieldBits_le {log : Nat} {fields : List (Nat × Nat)} (h : ∀ f ∈ fields, FitsIn log f) :
    fieldBits fields ≤ fields.length * log := by
  induction fields with
  | nil => exact Nat.zero_le _
  | cons field fields ih =>
    have hfield := (h field List.mem_cons_self).2
    have hrest := ih fun f hf => h f (List.mem_cons_of_mem _ hf)
    rw [fieldBits_cons, List.length_cons, Nat.add_one_mul]
    omega

variable {log : Nat} {fields : List (Nat × Nat)}

theorem Holds.addSlow (h : c.Holds spare bits) (hlog : log ≤ 12) (hfields : ∀ f ∈ fields, FitsIn log f)
    (hfits : bits.len + fieldBits fields + spare ≤ 64) :
    (c.addSlow (fields.map packField)).Holds spare (bits.pushAll fields) := by
  induction fields generalizing c bits with
  | nil => exact h
  | cons field fields ih =>
    have hfield := hfields field List.mem_cons_self
    rw [fieldBits_cons] at hfits
    have hstep := h.add false hfield.1 (hfield.2.trans hlog) (by
      rw [if_neg Bool.false_ne_true]
      omega)
    apply ih hstep fun f hf => hfields f (List.mem_cons_of_mem _ hf)
    rw [Stack.push_len]
    omega

/-- A group whose codes before the last leave four bits free. -/
theorem Holds.addGroup (h : c.Holds spare bits) (hlog : log ≤ 12)
    (hfields : ∀ f ∈ fields, FitsIn log f) (lastFast : Bool)
    (hfast : bits.len + (fields.length - 1) * log + spare ≤ 60)
    (hfits : bits.len + fieldBits fields + spare ≤ if lastFast then 60 else 64) :
    (c.addGroup lastFast (fields.map packField)).Holds spare (bits.pushAll fields) := by
  induction fields generalizing c bits with
  | nil => exact h
  | cons field fields ih =>
    have hfield := hfields field List.mem_cons_self
    have hrest : ∀ f ∈ fields, FitsIn log f := fun f hf => hfields f (List.mem_cons_of_mem _ hf)
    rw [fieldBits_cons] at hfits
    cases fields with
    | nil => exact h.add lastFast hfield.1 (hfield.2.trans hlog) hfits
    | cons next fields =>
      have hroom : field.2 + fields.length * log ≤ (fields.length + 1) * log := by
        have := hfield.2
        rw [Nat.add_one_mul]
        omega
      simp only [List.length_cons, Nat.add_sub_cancel] at hfast
      have hstep := h.add true hfield.1 (hfield.2.trans hlog) (by
        rw [if_pos rfl]
        omega)
      apply ih hstep hrest
      · simp only [Stack.push_len, List.length_cons, Nat.add_sub_cancel]
        omega
      · rw [Stack.push_len, Nat.add_assoc bits.len]
        exact hfits

/-- The second container goes on top: the spare bits below its own take the first one's. -/
theorem Holds.merge {c1 : Container} {bits1 : Stack} (h : c.Holds 0 bits)
    (h1 : c1.Holds spare bits1) (hspare : bits.len ≤ spare) :
    (c.merge c1).Holds 0 (bits.on bits1) := by
  have hfits := h1.fits
  have hheld : (c.merge c1).held = bits.len + bits1.len := by
    rw [held_merge (by rw [h.held_eq, h1.held_eq]; omega), h.held_eq, h1.held_eq]
  refine ⟨hheld, ?_, ?_⟩
  · simp only [Stack.on]
    omega
  · have hwidth : c1.pos &&& 0xFF = bits1.len := h1.held_eq
    have hlow : c.word >>> bits1.len >>> (64 - (bits.len + bits1.len)) = bits.value := by
      rw [← Nat.shiftRight_add, show bits1.len + (64 - (bits.len + bits1.len)) =
        64 - (bits.len + 0) by omega, h.top, Nat.pow_zero, Nat.mul_one]
    have hhigh : c1.word >>> (64 - (bits.len + bits1.len)) = bits1.value <<< bits.len := by
      rw [show 64 - (bits.len + bits1.len) = 64 - (bits1.len + spare) + (spare - bits.len) by omega,
        Nat.shiftRight_add, h1.top, Nat.shiftRight_eq_div_pow, Nat.shiftLeft_eq,
        show spare = bits.len + (spare - bits.len) by omega, Nat.pow_add, ← Nat.mul_assoc,
        Nat.add_sub_cancel_left, Nat.mul_div_cancel _ (by positivity)]
    simp only [Container.merge, hwidth, Stack.on, Nat.add_zero, Nat.pow_zero, Nat.mul_one]
    rw [Nat.shiftRight_or_distrib, hlow, hhigh, lor_shiftLeft _ bits.lt]

end Container

end Huff0.Encoder
