import StructuredZstd.Bits.Circular
import StructuredZstd.Lz.CopyMatch

namespace Lz

open Bits.Circular (overwrite)

variable {α : Type}

section Periods

variable {base out : List α} {offset : Nat}

/-- Going round a whole number of rounds is going round the list. -/
theorem cycleFrom_rounds (hbase : base ≠ []) {span : Nat} (hspan : 0 < span)
    (hdvd : base.length ∣ span) (phase n : Nat) :
    cycleFrom (cycleFrom base phase span) 0 n = cycleFrom base phase n := by
  have hlen : (cycleFrom base phase span).length = span := length_cycleFrom hbase phase span
  have hne : cycleFrom base phase span ≠ [] := by
    intro hnil
    rw [hnil] at hlen
    exact hspan.ne hlen
  apply List.ext_getElem?
  intro i
  rcases Nat.lt_or_ge i n with hi | hi
  · rw [getElem?_cycleFrom hne hi, hlen, Nat.zero_add,
      getElem?_cycleFrom hbase (Nat.mod_lt _ hspan), getElem?_cycleFrom hbase hi,
      Nat.add_mod, Nat.mod_mod_of_dvd _ hdvd, ← Nat.add_mod]
  · rw [List.getElem?_eq_none (by simpa [hne] using hi),
      List.getElem?_eq_none (by simpa [hbase] using hi)]

/-- Behind a match, the match goes on the same from any number of periods back that it covers. -/
theorem copyMatch_periods (hpos : 0 < offset) (hle : offset ≤ out.length) {span m : Nat}
    (hspan : 0 < span) (hdvd : offset ∣ span) (hcovered : span ≤ offset + m) (n : Nat) :
    copyMatch span n (copyMatch offset m out) = copyMatch offset n (copyMatch offset m out) := by
  have hlen : (out.drop (out.length - offset)).length = offset := by
    rw [List.length_drop]
    omega
  have hbase : out.drop (out.length - offset) ≠ [] := List.length_pos_iff.mp (by omega)
  have hout : copyMatch offset m out = out.take (out.length - offset) ++
      cycleFrom (out.drop (out.length - offset)) 0 (offset + m) := by
    have hround := @append_cycleFrom _ (out.drop (out.length - offset)) m
    rw [hlen] at hround
    rw [copyMatch_eq hpos hle, ← hround, ← List.append_assoc, List.take_append_drop]
  have hall : (copyMatch offset m out).length = out.length + m := length_copyMatch hpos hle
  have hback : (copyMatch offset m out).drop ((copyMatch offset m out).length - span) =
      cycleFrom (out.drop (out.length - offset)) (offset + m - span) span := by
    have hsplit := @cycleFrom_add _ (out.drop (out.length - offset)) 0 (offset + m - span) span
    rw [Nat.sub_add_cancel hcovered, Nat.zero_add] at hsplit
    rw [hall, hout, hsplit, ← List.append_assoc]
    apply List.drop_left'
    rw [List.length_append, List.length_take, length_cycleFrom hbase]
    omega
  rw [copyMatch_eq hspan (by omega), hback, cycleFrom_rounds hbase hspan (by rwa [hlen]),
    ← copyMatch_add, copyMatch_eq hpos hle, copyMatch_eq hpos hle, cycleFrom_add, Nat.zero_add,
    List.append_assoc]
  congr 2
  apply cycleFrom_congr
  rw [hlen]
  obtain ⟨k, rfl⟩ := hdvd
  obtain ⟨j, hj⟩ := Nat.exists_eq_add_of_le hcovered
  have hphase : m % offset = j % offset := by
    rw [← Nat.add_mod_left offset m, hj, Nat.mul_add_mod]
  rw [hj, Nat.add_sub_cancel_left, hphase]

end Periods

/-- What a copier reads: memory of its own, or the memory it writes. -/
inductive Source (α : Type) where
  | apart (data : List α)
  | within (slot : Nat)

namespace Source

def read (mem : List α) : Source α → List α
  | apart data => data
  | within slot => mem.drop slot

def add (n : Nat) : Source α → Source α
  | apart data => apart (data.drop n)
  | within slot => within (slot + n)

end Source

/-- `n` slots loaded and then stored; `none` where either is out of bounds. -/
def move (n : Nat) (mem : List α) (dst : Nat) (src : Source α) : Option (List α) :=
  if n ≤ (src.read mem).length ∧ dst + n ≤ mem.length then
    some (overwrite mem dst ((src.read mem).take n))
  else none

/-- Moves of `stride` slots, one behind the other. -/
def wildcopy (stride : Nat) : Nat → List α → Nat → Source α → Option (List α)
  | 0, mem, _, _ => some mem
  | rounds + 1, mem, dst, src =>
    (move stride mem dst src).bind fun mem =>
      wildcopy stride rounds mem (dst + stride) (src.add stride)

/-- The rounds of a loop that stops once `length` slots are written, and makes the first at once. -/
def rounds (stride length : Nat) : Nat := max 1 ((length + (stride - 1)) / stride)

theorem rounds_mul {stride : Nat} (hstride : 0 < stride) (length : Nat) :
    length ≤ rounds stride length * stride ∧
      (0 < length → rounds stride length * stride ≤ length + (stride - 1)) ∧
      stride ≤ rounds stride length * stride := by
  have hdiv := Nat.div_add_mod (length + (stride - 1)) stride
  have hmod := Nat.mod_lt (length + (stride - 1)) hstride
  rw [Nat.mul_comm] at hdiv
  simp only [rounds]
  rcases Nat.eq_zero_or_pos ((length + (stride - 1)) / stride) with hzero | hone
  · rw [hzero, Nat.zero_mul] at hdiv
    rw [hzero, Nat.max_eq_left (Nat.zero_le 1)]
    omega
  · have hleast : stride ≤ (length + (stride - 1)) / stride * stride :=
      Nat.le_mul_of_pos_left stride hone
    rw [Nat.max_eq_right hone]
    omega

/-- Memory that begins with `out` and is as it was from `slack` slots behind that on. -/
structure Written (mem out : List α) (slack : Nat) (mem' : List α) : Prop where
  length : mem'.length = mem.length
  front : mem'.take out.length = out
  rest : mem'.drop (out.length + slack) = mem.drop (out.length + slack)

namespace Written

variable {mem mem₁ mem₂ out out₁ : List α} {slack slack₁ : Nat}

theorem refl (mem : List α) (n : Nat) : Written mem (mem.take n) 0 mem where
  length := rfl
  front := by
    rw [List.length_take, ← List.take_take, List.take_length]
  rest := rfl

theorem length_le (h : Written mem out slack mem₁) : out.length ≤ mem.length := by
  have hlen := congrArg List.length h.front
  rw [List.length_take, h.length] at hlen
  omega

/-- More slots may have changed than did. -/
theorem loosen (h : Written mem out slack mem₁) (hle : slack ≤ slack₁) :
    Written mem out slack₁ mem₁ where
  length := h.length
  front := h.front
  rest := by
    obtain ⟨k, rfl⟩ := Nat.exists_eq_add_of_le hle
    rw [← Nat.add_assoc, ← List.drop_drop, h.rest, List.drop_drop]

/-- A copier that wrote more than it was asked for overshot. -/
theorem shorten (h : Written mem out slack mem₁) (hfront : out₁ <+: out)
    (hlen : out.length + slack ≤ out₁.length + slack₁) : Written mem out₁ slack₁ mem₁ where
  length := h.length
  front := by
    obtain ⟨more, rfl⟩ := hfront
    have htake := congrArg (List.take out₁.length) h.front
    rwa [List.take_take, Nat.min_eq_left (by simp), List.take_left] at htake
  rest := by
    obtain ⟨k, hk⟩ := Nat.exists_eq_add_of_le hlen
    rw [hk, ← List.drop_drop, h.rest, List.drop_drop]

/-- One copier after another. -/
theorem trans (h : Written mem out slack mem₁) (h₁ : Written mem₁ out₁ slack₁ mem₂)
    (hlen : out.length + slack ≤ out₁.length + slack₁) : Written mem out₁ slack₁ mem₂ where
  length := h₁.length.trans h.length
  front := h₁.front
  rest := by
    obtain ⟨k, hk⟩ := Nat.exists_eq_add_of_le hlen
    rw [h₁.rest, hk, ← List.drop_drop, h.rest, List.drop_drop]

end Written

section Moves

variable {data : List α} {dst n stride : Nat}

theorem written_overwrite {mem : List α} (hfit : dst + data.length ≤ mem.length) :
    Written mem (mem.take dst ++ data) 0 (overwrite mem dst data) := by
  have htake : (mem.take dst).length = dst := List.length_take_of_le (by omega)
  have hfront : (mem.take dst ++ data).length = dst + data.length := by
    rw [List.length_append, htake]
  refine ⟨Bits.Circular.length_overwrite hfit, List.take_left .., ?_⟩
  rw [hfront, overwrite, Nat.add_zero]
  exact List.drop_left' hfront

theorem move_apart (mem : List α) (dst : Nat) (hread : n ≤ data.length)
    (hfit : dst + n ≤ mem.length) :
    ∃ mem', move n mem dst (.apart data) = some mem' ∧
      Written mem (mem.take dst ++ data.take n) 0 mem' := by
  have htake : (data.take n).length = n := List.length_take_of_le hread
  refine ⟨_, if_pos ⟨hread, hfit⟩, written_overwrite ?_⟩
  exact (congrArg (dst + ·) htake).trans_le hfit

/-- A move from `back` slots before is a match of that offset, if it does not read what it
writes. -/
theorem move_within (mem : List α) {slot back : Nat} (hback : slot + back = dst) (hn : n ≤ back)
    (hpos : 0 < back) (hfit : dst + n ≤ mem.length) :
    ∃ mem', move n mem dst (.within slot) = some mem' ∧
      Written mem (copyMatch back n (mem.take dst)) 0 mem' := by
  have hlen : (mem.take dst).length = dst := List.length_take_of_le (by omega)
  have hread : n ≤ ((Source.within slot).read mem).length := by
    change n ≤ (mem.drop slot).length
    rw [List.length_drop]
    omega
  have hsource : ((mem.take dst).drop ((mem.take dst).length - back)).take n =
      ((Source.within slot).read mem).take n := by
    change _ = (mem.drop slot).take n
    rw [hlen, List.drop_take, List.take_take, Nat.min_eq_left (by omega)]
    congr 2
    omega
  refine ⟨_, if_pos ⟨hread, hfit⟩, ?_⟩
  rw [copyMatch_of_le hpos (by omega) hn, hsource]
  apply written_overwrite
  rwa [List.length_take_of_le hread]

theorem wildcopy_apart (mem : List α) (dst rounds : Nat) (hread : rounds * stride ≤ data.length)
    (hfit : dst + rounds * stride ≤ mem.length) :
    ∃ mem', wildcopy stride rounds mem dst (.apart data) = some mem' ∧
      Written mem (mem.take dst ++ data.take (rounds * stride)) 0 mem' := by
  induction rounds generalizing mem dst data with
  | zero =>
    refine ⟨mem, rfl, ?_⟩
    rw [Nat.zero_mul, List.take_zero, List.append_nil]
    exact .refl mem dst
  | succ rounds ih =>
    rw [Nat.succ_mul] at hread hfit
    obtain ⟨mem₁, hmove, hw⟩ := @move_apart _ data stride mem dst (by omega) (by omega)
    have hlen : (mem.take dst ++ data.take stride).length = dst + stride := by
      rw [List.length_append, List.length_take_of_le (by omega), List.length_take_of_le (by omega)]
    have hfront : mem₁.take (dst + stride) = mem.take dst ++ data.take stride := by
      rw [← hlen]
      exact hw.front
    obtain ⟨mem₂, hcopy, hw₂⟩ := @ih (data.drop stride) mem₁ (dst + stride)
      (by rw [List.length_drop]; omega) (by rw [hw.length]; omega)
    rw [hfront, List.append_assoc, ← List.take_add, Nat.add_comm, ← Nat.succ_mul] at hw₂
    refine ⟨mem₂, ?_, hw.trans hw₂ ?_⟩
    · rw [wildcopy, hmove]
      exact hcopy
    · simp only [List.length_append, List.length_take]
      rw [Nat.succ_mul]
      omega

/-- Strides no longer than the offset repeat the match. -/
theorem wildcopy_within (mem : List α) {slot back : Nat} (rounds : Nat) (hback : slot + back = dst)
    (hstride : stride ≤ back) (hpos : 0 < back) (hfit : dst + rounds * stride ≤ mem.length) :
    ∃ mem', wildcopy stride rounds mem dst (.within slot) = some mem' ∧
      Written mem (copyMatch back (rounds * stride) (mem.take dst)) 0 mem' := by
  induction rounds generalizing mem dst slot with
  | zero =>
    refine ⟨mem, rfl, ?_⟩
    rw [Nat.zero_mul]
    exact .refl mem dst
  | succ rounds ih =>
    rw [Nat.succ_mul] at hfit
    have hdst : (mem.take dst).length = dst := List.length_take_of_le (by omega)
    obtain ⟨mem₁, hmove, hw⟩ := @move_within _ dst stride mem slot back hback hstride hpos
      (by omega)
    have hlen : (copyMatch back stride (mem.take dst)).length = dst + stride := by
      rw [length_copyMatch hpos (by omega), hdst]
    have hfront : mem₁.take (dst + stride) = copyMatch back stride (mem.take dst) := by
      rw [← hlen]
      exact hw.front
    obtain ⟨mem₂, hcopy, hw₂⟩ := @ih (dst + stride) mem₁ (slot + stride) (by omega)
      (by rw [hw.length]; omega)
    rw [hfront, ← copyMatch_add, Nat.add_comm, ← Nat.succ_mul] at hw₂
    refine ⟨mem₂, ?_, hw.trans hw₂ ?_⟩
    · rw [wildcopy, hmove]
      exact hcopy
    · rw [length_copyMatch hpos (by omega), length_copyMatch hpos (by omega), Nat.succ_mul]
      omega

end Moves

end Lz
