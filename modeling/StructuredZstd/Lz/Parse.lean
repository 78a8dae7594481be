import StructuredZstd.Lz.CopyMatch

namespace Lz

section Matches

variable {α : Type} {text : List α} {p offset len : Nat}

theorem prefix_copyMatch (offset n : Nat) (out : List α) : out <+: Lz.copyMatch offset n out := by
  induction n generalizing out with
  | zero => exact List.prefix_rfl
  | succ n ih =>
    rw [Lz.copyMatch]
    split
    · exact (List.prefix_append _ _).trans (ih _)
    · exact List.prefix_rfl

/-- A match at `p`: what lies `offset` back is what comes next. -/
structure MatchAt (text : List α) (p offset len : Nat) : Prop where
  offset_pos : 0 < offset
  reach : offset ≤ p
  fits : p + len ≤ text.length
  eq : ∀ i < len, text[p + i]? = text[p - offset + i]?

/-- The copy a decoder makes for a match is the text. -/
theorem MatchAt.copyMatch (h : MatchAt text p offset len) :
    Lz.copyMatch offset len (text.take p) = text.take (p + len) := by
  have hrun : ∀ n k, k + n = len →
      Lz.copyMatch offset n (text.take (p + k)) = text.take (p + len) := by
    intro n
    induction n with
    | zero =>
      rintro k rfl
      rfl
    | succ n ih =>
      intro k hk
      have hfits := h.fits
      have hpos := h.offset_pos
      have hreach := h.reach
      have hlen : (text.take (p + k)).length = p + k := by
        rw [List.length_take]
        omega
      have hread : (text.take (p + k))[(text.take (p + k)).length - offset]? = text[p + k]? := by
        rw [hlen, List.getElem?_take_of_lt (by omega), h.eq k (by omega)]
        congr 1
        omega
      have hlt : p + k < text.length := by omega
      rw [Lz.copyMatch, hread, List.getElem?_eq_getElem hlt]
      dsimp only
      rw [List.take_append_getElem hlt, Nat.add_assoc]
      exact ih (k + 1) (by omega)
  exact hrun len 0 (Nat.zero_add _)

/-- And where the copy is the text, there is a match. -/
theorem MatchAt.of_copyMatch (hpos : 0 < offset) (hreach : offset ≤ p)
    (hfits : p + len ≤ text.length)
    (hcopy : Lz.copyMatch offset len (text.take p) = text.take (p + len)) :
    MatchAt text p offset len := by
  have hp : (text.take p).length = p := by
    rw [List.length_take]
    omega
  have hbase : ((text.take p).drop (p - offset)).length = offset := by
    rw [List.length_drop, hp]
    omega
  have hne : (text.take p).drop (p - offset) ≠ [] := List.length_pos_iff.mp (by omega)
  rw [copyMatch_eq hpos (by omega), hp] at hcopy
  -- both sides are the cycle over the last `offset` elements
  have hnew : ∀ i < len, text[p + i]? = ((text.take p).drop (p - offset))[i % offset]? := by
    intro i hi
    have hget := congrArg (·[p + i]?) hcopy
    rw [List.getElem?_append_right (by omega), hp, Nat.add_sub_cancel_left,
      getElem?_cycleFrom hne hi, hbase, Nat.zero_add, List.getElem?_take_of_lt (by omega)] at hget
    exact hget.symm
  refine ⟨hpos, hreach, hfits, fun i hi => ?_⟩
  rw [hnew i hi]
  rcases Nat.lt_or_ge i offset with hlt | hge
  · rw [Nat.mod_eq_of_lt hlt, List.getElem?_drop, List.getElem?_take_of_lt (by omega)]
  · rw [show p - offset + i = p + (i - offset) by omega, hnew _ (by omega),
      ← Nat.mod_eq_sub_mod hge]

/-- The two spans of a match, compared as lists. -/
theorem matchAt_iff (hpos : 0 < offset) (hreach : offset ≤ p) (hfits : p + len ≤ text.length) :
    MatchAt text p offset len ↔ (text.drop (p - offset)).take len = (text.drop p).take len := by
  constructor
  · intro h
    refine List.ext_getElem? fun i => ?_
    rcases Nat.lt_or_ge i len with hi | hi
    · rw [List.getElem?_take_of_lt hi, List.getElem?_take_of_lt hi, List.getElem?_drop,
        List.getElem?_drop, h.eq i hi]
    · rw [List.getElem?_take_eq_none hi, List.getElem?_take_eq_none hi]
  · intro h
    refine ⟨hpos, hreach, hfits, fun i hi => ?_⟩
    have hget := congrArg (·[i]?) h
    simp only [List.getElem?_take_of_lt hi, List.getElem?_drop] at hget
    exact hget.symm

/-- Any piece of a match is a match. -/
theorem MatchAt.piece (h : MatchAt text p offset len) {k n : Nat} (hk : k + n ≤ len) :
    MatchAt text (p + k) offset n := by
  have hreach := h.reach
  have hfits := h.fits
  refine ⟨h.offset_pos, by omega, by omega, fun i hi => ?_⟩
  have heq := h.eq (k + i) (by omega)
  rw [Nat.add_assoc, heq]
  congr 1
  omega

end Matches

/-- An offset a decoder accepts once `produced` elements are out: into the dictionary while the
window holds all of the output, within the window after. -/
def Reaches (window dictLen produced offset : Nat) : Prop :=
  offset ≠ 0 ∧ offset ≤ if window < produced then window else produced + dictLen

instance (window dictLen produced offset : Nat) :
    Decidable (Reaches window dictLen produced offset) :=
  inferInstanceAs (Decidable (_ ∧ _))

section Reach

variable {window dictLen produced offset : Nat}

theorem Reaches.le (h : Reaches window dictLen produced offset) : offset ≤ dictLen + produced := by
  have hle := h.2
  split_ifs at hle <;> omega

/-- Further on the offset is still good, unless the window is left and was always too short. -/
theorem Reaches.later_iff (h : Reaches window dictLen produced offset) (k : Nat) :
    Reaches window dictLen (produced + k) offset ↔ (window < produced + k → offset ≤ window) := by
  have hle := h.2
  simp only [Reaches, ne_eq, h.1, not_false_eq_true, true_and]
  split_ifs at hle ⊢ <;> omega

end Reach

end Lz
