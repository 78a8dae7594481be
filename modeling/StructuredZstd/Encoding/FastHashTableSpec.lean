import Mathlib.Tactic.Ring
import StructuredZstd.Encoding.FastHashTable

namespace Encoding.FastHashTable

open Lz

variable {t : FastHashTable} {log : List SlotOp}

/-- The shape `bind` leaves, and a tagged table is never biased. -/
structure Shaped (t : FastHashTable) : Prop where
  size : t.table.length = 1 <<< t.hashLog
  format : t.tagBits = 0 ∨ t.tagBits = slotTagBits ∧ t.bias = 0
  width : t.hashLog + t.tagBits ≤ 32

/-- A slot's word stands for what the slot holds. -/
def Stands (bias tagBits raw : Nat) : Option (Nat × Nat) → Prop
  | none => raw / 2 ^ tagBits ≤ bias
  | some (tag, pos) => raw / 2 ^ tagBits = pos + bias ∧ raw % 2 ^ tagBits = tag

/-- Every slot stands for what a log leaves in it, and its word is a `u32`. -/
structure Holds (t : FastHashTable) (log : List SlotOp) : Prop where
  stands : ∀ i < 1 <<< t.hashLog, Stands t.bias t.tagBits (t.table.getD i 0) (held log i)
  fits : ∀ i < 1 <<< t.hashLog, t.table.getD i 0 < 2 ^ 32

/-- Every word lies below a position, or on it. -/
def Below (t : FastHashTable) (top : Nat) : Prop :=
  ∀ i < 1 <<< t.hashLog, t.table.getD i 0 ≤ t.bias + top

theorem Below.mono {a b : Nat} (h : Below t a) (hab : a ≤ b) : Below t b :=
  fun i hi => Nat.le_trans (h i hi) (Nat.add_le_add_left hab _)

@[simp] theorem put_hashLog (hash pos : Nat) : (t.put hash pos).hashLog = t.hashLog := rfl
@[simp] theorem put_mls (hash pos : Nat) : (t.put hash pos).mls = t.mls := rfl
@[simp] theorem put_bias (hash pos : Nat) : (t.put hash pos).bias = t.bias := rfl
@[simp] theorem put_tagBits (hash pos : Nat) : (t.put hash pos).tagBits = t.tagBits := rfl

@[simp] theorem reduceIndices_hashLog (n : Nat) : (t.reduceIndices n).hashLog = t.hashLog := rfl
@[simp] theorem reduceIndices_bias (n : Nat) : (t.reduceIndices n).bias = 0 := rfl
@[simp] theorem reduceIndices_tagBits (n : Nat) : (t.reduceIndices n).tagBits = t.tagBits := rfl

@[simp] theorem clear_hashLog : t.clear.hashLog = t.hashLog := rfl
@[simp] theorem clear_bias : t.clear.bias = 0 := rfl
@[simp] theorem clear_tagBits : t.clear.tagBits = t.tagBits := rfl

theorem getD_map_zero {f : Nat → Nat} (hf : f 0 = 0) (l : List Nat) (i : Nat) :
    (l.map f).getD i 0 = f (l.getD i 0) := by
  simp only [List.getD_eq_getElem?_getD, List.getElem?_map]
  cases l[i]? <;> simp [hf]

theorem clear_slot (i : Nat) : t.clear.table.getD i 0 = 0 := by
  rw [clear, getD_map_zero rfl]

theorem slot_eq (hash : Nat) : t.slot hash = t.table.getD (hash / 2 ^ t.tagBits) 0 := by
  rw [slot, Nat.shiftRight_eq_div_pow]

theorem slot_lt {hash : Nat} (h : hash < 2 ^ (t.hashLog + t.tagBits)) :
    hash / 2 ^ t.tagBits < 1 <<< t.hashLog := by
  rw [Nat.shiftLeft_eq, Nat.one_mul]
  apply Nat.div_lt_of_lt_mul
  rwa [Nat.mul_comm, ← Nat.pow_add]

/-- The tag test of a lookup compares the low bits. -/
theorem tag_matches (raw hash bits : Nat) :
    (raw ^^^ hash) &&& (1 <<< bits - 1) = 0 ↔ raw % 2 ^ bits = hash % 2 ^ bits := by
  rw [Nat.shiftLeft_eq, Nat.one_mul, Nat.and_two_pow_sub_one_eq_mod, Nat.xor_mod_two_pow]
  constructor
  · intro h
    have := congrArg (· ^^^ hash % 2 ^ bits) h
    simpa [Nat.xor_assoc] using this
  · intro h
    rw [h, Nat.xor_self]

/-- A lookup reads the position its slot holds under its tag. -/
theorem Holds.get_eq (h : Holds t log) (hs : Shaped t) {hash : Nat}
    (hhash : hash < 2 ^ (t.hashLog + t.tagBits)) :
    t.get hash = named (held log (hash / 2 ^ t.tagBits)) (hash % 2 ^ t.tagBits) := by
  have hst := h.stands _ (slot_lt hhash)
  rw [get, slot_eq]
  generalize t.table.getD (hash / 2 ^ t.tagBits) 0 = raw at hst ⊢
  rcases hs.format with hu | ⟨htag, hbias⟩
  · rw [hu] at hst ⊢
    cases hheld : held log (hash / 2 ^ 0) with
    | none =>
      rw [hheld] at hst
      simp only [Stands, Nat.pow_zero, Nat.div_one] at hst
      simp [named]
      omega
    | some e =>
      rw [hheld] at hst
      simp only [Stands, Nat.pow_zero, Nat.div_one, Nat.mod_one] at hst
      obtain ⟨hraw, htag⟩ := hst
      simp [named, hraw, ← htag, Nat.mod_one]
  · have hne : t.tagBits ≠ 0 := by
      rw [htag]
      decide
    rw [if_pos hne]
    simp only [tag_matches, Nat.shiftRight_eq_div_pow]
    cases hheld : held log (hash / 2 ^ t.tagBits) with
    | none =>
      rw [hheld, Stands, hbias] at hst
      simp [named, Nat.le_zero.mp hst]
    | some e =>
      rw [hheld] at hst
      obtain ⟨hraw, htag⟩ := hst
      rw [named, hraw, hbias, htag, Nat.add_zero]

theorem stored_eq {hash pos : Nat} (hs : Shaped t) (hfit : pos + t.bias < 2 ^ (32 - t.tagBits)) :
    t.stored hash pos = (pos + t.bias) * 2 ^ t.tagBits + hash % 2 ^ t.tagBits := by
  have htb : t.tagBits ≤ 32 := by have := hs.width; omega
  have hlt : (pos + t.bias) * 2 ^ t.tagBits < 2 ^ 32 := by
    calc (pos + t.bias) * 2 ^ t.tagBits < 2 ^ (32 - t.tagBits) * 2 ^ t.tagBits :=
          Nat.mul_lt_mul_of_pos_right hfit (Nat.two_pow_pos _)
      _ = 2 ^ 32 := by rw [← Nat.pow_add, Nat.sub_add_cancel htb]
  have hle : pos + t.bias ≤ (pos + t.bias) * 2 ^ t.tagBits :=
    Nat.le_mul_of_pos_right _ (Nat.two_pow_pos _)
  rw [stored, Nat.mod_eq_of_lt (Nat.lt_of_le_of_lt hle hlt), Nat.shiftLeft_eq,
    Nat.mod_eq_of_lt hlt, Nat.shiftLeft_eq, Nat.one_mul, Nat.and_two_pow_sub_one_eq_mod,
    ← Nat.shiftLeft_eq, Nat.shiftLeft_add_eq_or_of_lt (Nat.mod_lt _ (Nat.two_pow_pos _))]

theorem Shaped.put (hs : Shaped t) (hash pos : Nat) : Shaped (t.put hash pos) :=
  ⟨by simpa [FastHashTable.put] using hs.size, hs.format, hs.width⟩

theorem put_getD (hs : Shaped t) {hash pos : Nat} (hhash : hash < 2 ^ (t.hashLog + t.tagBits))
    (i : Nat) :
    (t.put hash pos).table.getD i 0 =
      if hash / 2 ^ t.tagBits = i then t.stored hash pos else t.table.getD i 0 := by
  have hlt := slot_lt hhash
  rw [← hs.size] at hlt
  simp only [put, Nat.shiftRight_eq_div_pow, List.getD_eq_getElem?_getD, List.getElem?_set]
  split
  · simp
  · rfl

/-- A store that does not wrap is the newest entry of its slot. -/
theorem Holds.put (h : Holds t log) (hs : Shaped t) {hash pos : Nat}
    (hhash : hash < 2 ^ (t.hashLog + t.tagBits)) (hfit : pos + t.bias < 2 ^ (32 - t.tagBits)) :
    Holds (t.put hash pos)
      (.put (hash / 2 ^ t.tagBits) (hash % 2 ^ t.tagBits) pos :: log) := by
  have hpos : 0 < 2 ^ t.tagBits := Nat.two_pow_pos _
  have htag : hash % 2 ^ t.tagBits < 2 ^ t.tagBits := Nat.mod_lt _ hpos
  refine ⟨fun i hi => ?_, fun i hi => ?_⟩
  · rw [put_getD hs hhash, put_bias, put_tagBits]
    by_cases hslot : hash / 2 ^ t.tagBits = i
    · subst hslot
      rw [if_pos rfl, held_put_self, stored_eq hs hfit]
      refine ⟨?_, ?_⟩
      · rw [Nat.mul_comm, Nat.mul_add_div hpos, Nat.div_eq_of_lt htag, Nat.add_zero]
      · rw [Nat.mul_comm, Nat.mul_add_mod, Nat.mod_mod]
    · rw [if_neg hslot, held_put_of_ne hslot]
      exact h.stands i hi
  · rw [put_getD hs hhash]
    split
    · rw [stored_eq hs hfit]
      have htb : t.tagBits ≤ 32 := by have := hs.width; omega
      calc (pos + t.bias) * 2 ^ t.tagBits + hash % 2 ^ t.tagBits
          < (pos + t.bias) * 2 ^ t.tagBits + 2 ^ t.tagBits := Nat.add_lt_add_left htag _
        _ = (pos + t.bias + 1) * 2 ^ t.tagBits := by ring
        _ ≤ 2 ^ (32 - t.tagBits) * 2 ^ t.tagBits := Nat.mul_le_mul_right _ hfit
        _ = 2 ^ 32 := by rw [← Nat.pow_add, Nat.sub_add_cancel htb]
    · exact h.fits i hi

theorem Below.put (h : Below t top) (hs : Shaped t) (hu : t.tagBits = 0) {hash pos : Nat}
    (hhash : hash < 2 ^ (t.hashLog + t.tagBits)) (hfit : pos + t.bias < 2 ^ (32 - t.tagBits))
    (hpos : pos ≤ top) : Below (t.put hash pos) top := by
  intro i hi
  rw [put_getD hs hhash, put_bias]
  split
  · rw [stored_eq hs hfit, hu]
    simp only [Nat.pow_zero, Nat.mul_one, Nat.mod_one]
    omega
  · exact h i hi

theorem Shaped.clear (hs : Shaped t) : Shaped t.clear where
  size := by simpa [FastHashTable.clear] using hs.size
  format := hs.format.imp id fun h => ⟨h.1, rfl⟩
  width := hs.width

theorem Holds.clear (t : FastHashTable) (log : List SlotOp) : Holds t.clear (.clear :: log) where
  stands i _ := by
    rw [clear_slot]
    simp [Stands]
  fits i _ := by
    rw [clear_slot]
    decide

theorem Below.clear (t : FastHashTable) (top : Nat) : Below t.clear top := fun i _ => by
  rw [clear_slot]
  exact Nat.zero_le _

theorem Shaped.reduceIndices (hs : Shaped t) (n : Nat) : Shaped (t.reduceIndices n) where
  size := by simpa [FastHashTable.reduceIndices] using hs.size
  format := hs.format.imp id fun h => ⟨h.1, rfl⟩
  width := hs.width

theorem reduceIndices_getD (hs : Shaped t) {n : Nat} (hfit : t.bias + n < 2 ^ (32 - t.tagBits))
    (i : Nat) :
    (t.reduceIndices n).table.getD i 0 = t.table.getD i 0 - 2 ^ t.tagBits * (t.bias + n) := by
  have htb : t.tagBits ≤ 32 := by have := hs.width; omega
  have hlt : (t.bias + n) * 2 ^ t.tagBits < 2 ^ 32 := by
    calc (t.bias + n) * 2 ^ t.tagBits < 2 ^ (32 - t.tagBits) * 2 ^ t.tagBits :=
          Nat.mul_lt_mul_of_pos_right hfit (Nat.two_pow_pos _)
      _ = 2 ^ 32 := by rw [← Nat.pow_add, Nat.sub_add_cancel htb]
  have hle : t.bias + n ≤ (t.bias + n) * 2 ^ t.tagBits :=
    Nat.le_mul_of_pos_right _ (Nat.two_pow_pos _)
  simp only [reduceIndices]
  rw [Nat.mod_eq_of_lt (Nat.lt_of_le_of_lt hle hlt), Nat.shiftLeft_eq, Nat.mod_eq_of_lt hlt,
    Nat.mul_comm]
  exact getD_map_zero (f := (· - 2 ^ t.tagBits * (t.bias + n))) (Nat.zero_sub _) _ _

/-- A slide moves every position down with its tag, and what falls to the floor is gone. -/
theorem Stands.slide {bias tagBits raw n : Nat} {e : Option (Nat × Nat)}
    (h : Stands bias tagBits raw e) :
    Stands 0 tagBits (raw - 2 ^ tagBits * (bias + n)) (slid n e) := by
  have hdiv : (raw - 2 ^ tagBits * (bias + n)) / 2 ^ tagBits = raw / 2 ^ tagBits - (bias + n) :=
    Nat.sub_mul_div _ _ _
  cases e with
  | none =>
    simp only [Stands, slid] at h ⊢
    omega
  | some e =>
    obtain ⟨tag, pos⟩ := e
    obtain ⟨hraw, htag⟩ := h
    by_cases hn : n < pos
    · simp only [slid, if_pos hn, Stands]
      refine ⟨by omega, ?_⟩
      rw [Nat.sub_mul_mod, htag]
      exact Nat.le_trans (Nat.mul_le_mul_left _ (by omega : bias + n ≤ raw / 2 ^ tagBits))
        (Nat.mul_div_le _ _)
    · simp only [slid, if_neg hn, Stands]
      omega

theorem Holds.reduceIndices (h : Holds t log) (hs : Shaped t) {n : Nat}
    (hfit : t.bias + n < 2 ^ (32 - t.tagBits)) :
    Holds (t.reduceIndices n) (.slide n :: log) where
  stands i hi := by
    rw [reduceIndices_getD hs hfit, held_slide]
    exact (h.stands i hi).slide
  fits i hi := by
    rw [reduceIndices_getD hs hfit]
    exact Nat.lt_of_le_of_lt (Nat.sub_le _ _) (h.fits i hi)

theorem Below.reduceIndices (h : Below t top) (hs : Shaped t) (hu : t.tagBits = 0) {n : Nat}
    (hfit : t.bias + n < 2 ^ (32 - t.tagBits)) : Below (t.reduceIndices n) top := by
  intro i hi
  have := h i hi
  rw [reduceIndices_getD hs hfit, hu, reduceIndices_bias]
  omega

/-- An epoch that spans every stored position leaves no slot readable. -/
theorem Holds.advanceEpoch (h : Holds t log) (hu : t.tagBits = 0) {span : Nat}
    (hbelow : t.epochFits span → Below t span) :
    Holds (t.advanceEpoch span) (.clear :: log) := by
  rw [FastHashTable.advanceEpoch]
  split
  · rename_i hfit
    refine ⟨fun i hi => ?_, h.fits⟩
    have := hbelow hfit i hi
    simpa [Stands, hu] using this
  · exact Holds.clear t log

theorem Below.advanceEpoch {span : Nat} (h : t.epochFits span → Below t span) (top : Nat) :
    Below (t.advanceEpoch span) top := by
  rw [FastHashTable.advanceEpoch]
  split
  · rename_i hfit
    exact fun i hi => (h hfit i hi).trans (Nat.le_add_right _ _)
  · exact Below.clear t top

theorem advanceEpoch_tagBits (span : Nat) : (t.advanceEpoch span).tagBits = t.tagBits := by
  rw [FastHashTable.advanceEpoch]
  split <;> rfl

theorem Shaped.advanceEpoch (hs : Shaped t) (hu : t.tagBits = 0) (span : Nat) :
    Shaped (t.advanceEpoch span) := by
  rw [FastHashTable.advanceEpoch]
  split
  · exact ⟨hs.size, .inl hu, hs.width⟩
  · exact hs.clear

end Encoding.FastHashTable
