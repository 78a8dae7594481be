import StructuredZstd.Decoding.Backends
import StructuredZstd.Lz.Parse
import StructuredZstd.Lz.Wildcopy

namespace Decoding

open Lz

/-- The exact copy, undefined where the two ranges overlap. -/
def copyNonoverlapping (n : Nat) (mem : List UInt8) (dst : Nat) (src : Source UInt8) :
    Option (List UInt8) :=
  match src with
  | .apart _ => move n mem dst src
  | .within slot => if slot + n ≤ dst ∨ dst + n ≤ slot then move n mem dst src else none

def copy16 (mem : List UInt8) (dst : Nat) (src : Source UInt8) : Option (List UInt8) :=
  move 16 mem dst src

def wildcopyNoOverlap (mem : List UInt8) (dst : Nat) (src : Source UInt8) (length : Nat) :
    Option (List UInt8) := wildcopy 16 (rounds 16 length) mem dst src

def wildcopyNoOverlapAvx2 (mem : List UInt8) (dst : Nat) (src : Source UInt8) (length : Nat) :
    Option (List UInt8) := wildcopy 32 (rounds 32 length) mem dst src

def wildcopyOverlap8ByteStride (mem : List UInt8) (dst : Nat) (src : Source UInt8)
    (length : Nat) : Option (List UInt8) := wildcopy 8 (rounds 8 length) mem dst src

def dec32Table : List Nat := [0, 1, 2, 1, 4, 4, 4, 4]

def dec64Table : List Nat := [8, 8, 8, 7, 8, 9, 10, 11]

/-- Eight bytes of a match, and where the rest of it is copied to and from: at least eight apart. -/
def overlapCopy8 (mem : List UInt8) (dst : Nat) (src : Source UInt8) (offset : Nat) :
    Option (List UInt8 × Nat × Source UInt8) :=
  if offset < 8 then do
    let sub2 := dec64Table.getD offset 0
    let mem ← move 1 mem dst src
    let mem ← move 1 mem (dst + 1) (src.add 1)
    let mem ← move 1 mem (dst + 2) (src.add 2)
    let mem ← move 1 mem (dst + 3) (src.add 3)
    let dec32 := dec32Table.getD offset 0
    let mem ← move 4 mem (dst + 4) (src.add dec32)
    some (mem, dst + 8, src.add (dec32 + 8 - sub2))
  else do
    let mem ← move 8 mem dst src
    some (mem, dst + 8, src.add 8)

def copyLiterals (mem : List UInt8) (tail : Nat) (litSrc : List UInt8) (litLength : Nat) :
    Option (List UInt8) := do
  let mem ← copy16 mem tail (.apart litSrc)
  if 16 < litLength then
    wildcopyNoOverlap mem (tail + 16) ((Source.apart litSrc).add 16) (litLength - 16)
  else some mem

/-- The match copy; `wide` is the body of the AVX2 tier. -/
def copyMatchInline (wide : Bool) (mem : List UInt8) (opMatch : Nat) (matchSrc : Source UInt8)
    (offset matchLength : Nat) : Option (List UInt8) :=
  if wide ∧ 32 ≤ offset then wildcopyNoOverlapAvx2 mem opMatch matchSrc matchLength
  else if 16 ≤ offset then wildcopyNoOverlap mem opMatch matchSrc matchLength
  else do
    let (mem, op2, ip2) ← overlapCopy8 mem opMatch matchSrc offset
    if 8 < matchLength then wildcopyOverlap8ByteStride mem op2 ip2 (matchLength - 8)
    else some mem

/-- The straight-line body of a sequence: `none` is an access out of bounds, or a source before the
memory. -/
def execSequenceBody (wide : Bool) (mem : List UInt8) (tail : Nat) (litSrc : List UInt8)
    (litLength offset matchLength : Nat) : Option (List UInt8) := do
  if tail + litLength < offset then none
  let mem ← copyLiterals mem tail litSrc litLength
  copyMatchInline wide mem (tail + litLength) (.within (tail + litLength - offset)) offset
    matchLength

/-- What is already there of a match, copied behind it, doubles every time. -/
def fillDoubling (opMatch matchLength : Nat) : Nat → List UInt8 → Nat → Option (List UInt8)
  | 0, mem, _ => some mem
  | fuel + 1, mem, filled =>
    if filled < matchLength then do
      let chunk := min filled (matchLength - filled)
      let mem ← copyNonoverlapping chunk mem (opMatch + filled) (.within opMatch)
      fillDoubling opMatch matchLength fuel mem (filled + chunk)
    else some mem

/-- The exact twin of the body, for a tail too tight to overshoot. -/
def execSequenceBoundedCopy (mem : List UInt8) (tail : Nat) (litSrc : List UInt8)
    (litLength offset matchLength : Nat) : Option (List UInt8) := do
  if tail + litLength < offset then none
  let mem ← copyNonoverlapping litLength mem tail (.apart litSrc)
  let opMatch := tail + litLength
  let matchSrc := Source.within (tail + litLength - offset)
  if matchLength ≤ offset then copyNonoverlapping matchLength mem opMatch matchSrc
  else do
    let period := min offset matchLength
    let mem ← copyNonoverlapping period mem opMatch matchSrc
    fillDoubling opMatch matchLength matchLength mem period

def maxWildcopyOvershoot (wide : Bool) : Nat := if wide then 31 else 15

/-- The body for a match inside the dictionary: `dictSrc` is the dictionary from its first byte on,
and a copy that would read past its end is the exact one. -/
def execSequenceDictBody (wide : Bool) (mem : List UInt8) (tail cap : Nat) (litSrc : List UInt8)
    (litLength : Nat) (dictSrc : List UInt8) (matchLength : Nat) : Option (List UInt8) :=
  let opMatch := tail + litLength
  if cap - tail < litLength + matchLength + maxWildcopyOvershoot wide then do
    let mem ← copyNonoverlapping litLength mem tail (.apart litSrc)
    copyNonoverlapping matchLength mem opMatch (.apart dictSrc)
  else do
    let mem ← copyLiterals mem tail litSrc litLength
    if wide ∧ (matchLength + 31) / 32 * 32 ≤ dictSrc.length then
      wildcopyNoOverlapAvx2 mem opMatch (.apart dictSrc) matchLength
    else if (matchLength + 15) / 16 * 16 ≤ dictSrc.length then
      wildcopyNoOverlap mem opMatch (.apart dictSrc) matchLength
    else copyNonoverlapping matchLength mem opMatch (.apart dictSrc)

/-- What the copiers read from the literals on: their length rounded up to a stride, and a stride
at least. -/
def LiteralsReadable (litSrc : List UInt8) (litLength : Nat) : Prop :=
  rounds 16 litLength * 16 ≤ litSrc.length

section Specs

variable {mem litSrc dictSrc : List UInt8} {dst slot tail offset litLength matchLength n : Nat}

theorem rounds_step (h : 16 < litLength) :
    rounds 16 litLength = rounds 16 (litLength - 16) + 1 := by
  simp only [rounds]
  omega

theorem rounds_one (h : litLength ≤ 16) : rounds 16 litLength = 1 := by
  simp only [rounds]
  omega

theorem copyLiterals_eq : copyLiterals mem tail litSrc litLength =
    wildcopy 16 (rounds 16 litLength) mem tail (.apart litSrc) := by
  rcases Nat.lt_or_ge 16 litLength with hlong | hshort
  · rw [rounds_step hlong, wildcopy]
    simp only [copyLiterals, copy16, if_pos hlong]
    rfl
  · rw [rounds_one hshort, wildcopy]
    simp only [copyLiterals, copy16, if_neg (Nat.not_lt.mpr hshort)]
    rfl

theorem copyLiterals_written (mem : List UInt8) (tail : Nat)
    (hread : LiteralsReadable litSrc litLength)
    (hfit : tail + rounds 16 litLength * 16 ≤ mem.length) :
    ∃ mem', copyLiterals mem tail litSrc litLength = some mem' ∧
      Written mem (mem.take tail ++ litSrc.take litLength) (rounds 16 litLength * 16 - litLength)
        mem' := by
  obtain ⟨hle, -, -⟩ := rounds_mul (show 0 < 16 by decide) litLength
  obtain ⟨mem', hcopy, hw⟩ := wildcopy_apart mem tail (rounds 16 litLength) hread hfit
  have hread' : rounds 16 litLength * 16 ≤ litSrc.length := hread
  refine ⟨mem', copyLiterals_eq.trans hcopy, hw.shorten ?_ ?_⟩
  · rw [List.prefix_append_right_inj]
    exact List.take_prefix_take_left hle
  · simp only [List.length_append, List.length_take]
    omega

/-- Strides up to the offset copy a match, and at most a stride less one past it. -/
theorem wildcopy_match (mem : List UInt8) {stride : Nat} (hback : slot + offset = dst)
    (hstride : stride ≤ offset) (hpos : 0 < stride) (hmatch : 0 < matchLength)
    (hfit : dst + matchLength + (stride - 1) ≤ mem.length) :
    ∃ mem', wildcopy stride (rounds stride matchLength) mem dst (.within slot) = some mem' ∧
      Written mem (copyMatch offset matchLength (mem.take dst)) (stride - 1) mem' := by
  obtain ⟨hle, hover, -⟩ := rounds_mul hpos matchLength
  have hshort := hover hmatch
  have hlen : (mem.take dst).length = dst := List.length_take_of_le (by omega)
  obtain ⟨mem', hcopy, hw⟩ := wildcopy_within mem (rounds stride matchLength) hback
    hstride (by omega) (by omega)
  refine ⟨mem', hcopy, hw.shorten ?_ ?_⟩
  · obtain ⟨more, hmore⟩ := Nat.exists_eq_add_of_le hle
    rw [hmore, copyMatch_add]
    exact Lz.prefix_copyMatch offset more _
  · rw [length_copyMatch (by omega) (by omega), length_copyMatch (by omega) (by omega)]
    omega

theorem overlapCopy8_short (hshort : offset < 8) : overlapCopy8 mem dst (.within slot) offset =
    (wildcopy 1 4 mem dst (.within slot)).bind fun mem =>
      (move 4 mem (dst + 4) (.within (slot + dec32Table.getD offset 0))).bind fun mem =>
        some (mem, dst + 8,
          .within (slot + (dec32Table.getD offset 0 + 8 - dec64Table.getD offset 0))) := by
  simp only [overlapCopy8, if_pos hshort, wildcopy, Option.bind_eq_bind, Option.bind_assoc,
    Option.bind_some, Source.add, Nat.add_assoc, Nat.reduceAdd]

/-- Both spreads go back a whole number of periods, at least as far as the next copy is wide. -/
theorem spread_spans : ∀ offset < 8, 0 < offset →
    dec32Table.getD offset 0 ≤ offset ∧ offset ∣ offset + 4 - dec32Table.getD offset 0 ∧
      dec32Table.getD offset 0 + 8 - dec64Table.getD offset 0 ≤ offset ∧
      offset ∣ offset + 8 - (dec32Table.getD offset 0 + 8 - dec64Table.getD offset 0) := by
  decide

theorem overlapCopy8_written (mem : List UInt8) (hback : slot + offset = dst) (hpos : 0 < offset)
    (hfit : dst + 8 ≤ mem.length) :
    ∃ mem' slot' span, overlapCopy8 mem dst (.within slot) offset =
        some (mem', dst + 8, .within slot') ∧
      Written mem (copyMatch offset 8 (mem.take dst)) 0 mem' ∧
      slot' + span = dst + 8 ∧ 8 ≤ span ∧ offset ∣ span ∧ span ≤ offset + 8 := by
  have hlen : (mem.take dst).length = dst := List.length_take_of_le (by omega)
  rcases Nat.lt_or_ge offset 8 with hshort | hlong
  · obtain ⟨hdec, hdvd, hnet, hdvd₈⟩ := spread_spans offset hshort hpos
    obtain ⟨mem₁, hone, hw₁⟩ := wildcopy_within mem 4 hback (show 1 ≤ offset from hpos) hpos
      (by omega)
    have hfront : mem₁.take (dst + 4) = copyMatch offset 4 (mem.take dst) := by
      have htake := hw₁.front
      rwa [length_copyMatch hpos (by omega), hlen] at htake
    obtain ⟨mem₂, hfour, hw₂⟩ := move_within mem₁ (n := 4)
      (show slot + dec32Table.getD offset 0 + (offset + 4 - dec32Table.getD offset 0) = dst + 4 by
        omega) (by omega) (by omega)
      (by rw [hw₁.length]; omega)
    rw [hfront, copyMatch_periods hpos (by omega) (by omega) hdvd (by omega), ← copyMatch_add]
      at hw₂
    refine ⟨mem₂, slot + (dec32Table.getD offset 0 + 8 - dec64Table.getD offset 0),
      offset + 8 - (dec32Table.getD offset 0 + 8 - dec64Table.getD offset 0), ?_,
      hw₁.trans hw₂ ?_, by omega, by omega, hdvd₈, by omega⟩
    · rw [overlapCopy8_short hshort, hone, Option.bind_some, hfour, Option.bind_some]
    · rw [length_copyMatch hpos (by omega), length_copyMatch hpos (by omega)]
      omega
  · obtain ⟨mem', hmove, hw⟩ := move_within mem hback hlong hpos hfit
    refine ⟨mem', slot + 8, offset, ?_, hw, by omega, hlong, Nat.dvd_refl offset, by omega⟩
    simp only [overlapCopy8, if_neg (Nat.not_lt.mpr hlong), hmove]
    rfl

theorem copyMatchInline_written (mem : List UInt8) (wide : Bool) (hback : slot + offset = dst)
    (hpos : 0 < offset) (hmatch : 0 < matchLength)
    (hfit : dst + matchLength + maxWildcopyOvershoot wide ≤ mem.length) :
    ∃ mem', copyMatchInline wide mem dst (.within slot) offset matchLength = some mem' ∧
      Written mem (copyMatch offset matchLength (mem.take dst)) (maxWildcopyOvershoot wide)
        mem' := by
  have hover : 15 ≤ maxWildcopyOvershoot wide := by
    cases wide <;> decide
  have hlen : (mem.take dst).length = dst := List.length_take_of_le (by omega)
  simp only [copyMatchInline]
  split
  · rename_i hwide
    obtain ⟨rfl, hfar⟩ := hwide
    exact wildcopy_match mem hback hfar (by decide) hmatch hfit
  split
  · rename_i hfar
    obtain ⟨mem', hcopy, hw⟩ := wildcopy_match mem hback hfar (by decide) hmatch (by omega)
    exact ⟨mem', hcopy, hw.loosen hover⟩
  · obtain ⟨mem₁, slot', span, hspread, hw₁, hspan, hwide, hdvd, hcovered⟩ :=
      overlapCopy8_written mem hback hpos (by omega)
    have hout : (copyMatch offset 8 (mem.take dst)).length = dst + 8 := by
      rw [length_copyMatch hpos (by omega), hlen]
    simp only [hspread, Option.bind_eq_bind, Option.bind_some]
    split
    · rename_i hlong
      have hfront : mem₁.take (dst + 8) = copyMatch offset 8 (mem.take dst) := by
        rw [← hout]
        exact hw₁.front
      obtain ⟨mem₂, hcopy, hw₂⟩ := wildcopy_match mem₁ hspan hwide (by decide)
        (show 0 < matchLength - 8 by omega) (by rw [hw₁.length]; omega)
      rw [hfront, copyMatch_periods hpos (by omega) (by omega) hdvd hcovered, ← copyMatch_add,
        Nat.add_sub_cancel' hlong.le] at hw₂
      refine ⟨mem₂, hcopy, (hw₁.trans hw₂ ?_).loosen (by omega)⟩
      rw [hout, length_copyMatch hpos (by omega), hlen]
      omega
    · refine ⟨mem₁, rfl, hw₁.shorten ?_ ?_⟩
      · obtain ⟨more, hmore⟩ := Nat.exists_eq_add_of_le (show matchLength ≤ 8 by omega)
        rw [hmore, copyMatch_add]
        exact Lz.prefix_copyMatch offset more _
      · rw [hout, length_copyMatch hpos (by omega), hlen]
        omega

/-- The literals rounded up end within the overshoot of the match behind them. -/
theorem literals_within (wide : Bool) (litLength : Nat) (hmatch : 0 < matchLength) :
    rounds 16 litLength * 16 ≤ litLength + matchLength + maxWildcopyOvershoot wide := by
  have hover : 15 ≤ maxWildcopyOvershoot wide := by
    cases wide <;> decide
  obtain ⟨-, hshort, -⟩ := rounds_mul (show 0 < 16 by decide) litLength
  rcases Nat.eq_zero_or_pos litLength with rfl | hlit
  · rw [rounds_one (by decide)]
    omega
  · have := hshort hlit
    omega

/-- The literals and the match are behind what was there, and the overshoot is all else that may
have changed. -/
theorem execSequenceBody_written (mem : List UInt8) (tail : Nat) (wide : Bool)
    (hread : LiteralsReadable litSrc litLength)
    (hpos : 0 < offset) (hle : offset ≤ tail + litLength) (hmatch : 0 < matchLength)
    (hfit : tail + (litLength + matchLength) + maxWildcopyOvershoot wide ≤ mem.length) :
    ∃ mem', execSequenceBody wide mem tail litSrc litLength offset matchLength = some mem' ∧
      Written mem (copyMatch offset matchLength (mem.take tail ++ litSrc.take litLength))
        (maxWildcopyOvershoot wide) mem' := by
  have hrounded := literals_within wide litLength hmatch
  obtain ⟨hlits, -, -⟩ := rounds_mul (show 0 < 16 by decide) litLength
  have hread' : rounds 16 litLength * 16 ≤ litSrc.length := hread
  obtain ⟨mem₁, hlit, hw₁⟩ := copyLiterals_written mem tail hread (by omega)
  have hout : (mem.take tail ++ litSrc.take litLength).length = tail + litLength := by
    rw [List.length_append, List.length_take_of_le (by omega), List.length_take_of_le (by omega)]
  have hfront : mem₁.take (tail + litLength) = mem.take tail ++ litSrc.take litLength := by
    rw [← hout]
    exact hw₁.front
  obtain ⟨mem₂, hcopy, hw₂⟩ := copyMatchInline_written mem₁ wide
    (Nat.sub_add_cancel hle) hpos hmatch (by rw [hw₁.length]; omega)
  rw [hfront] at hw₂
  refine ⟨mem₂, ?_, hw₁.trans hw₂ ?_⟩
  · simp only [execSequenceBody, if_neg (Nat.not_lt.mpr hle), hlit, Option.bind_eq_bind,
      Option.bind_some]
    exact hcopy
  · rw [hout, length_copyMatch hpos (by omega), hout]
    omega

theorem copyNonoverlapping_within (mem : List UInt8) (hback : slot + offset = dst) (hn : n ≤ offset)
    (hpos : 0 < offset) (hfit : dst + n ≤ mem.length) :
    ∃ mem', copyNonoverlapping n mem dst (.within slot) = some mem' ∧
      Written mem (copyMatch offset n (mem.take dst)) 0 mem' := by
  obtain ⟨mem', hmove, hw⟩ := move_within mem hback hn hpos hfit
  exact ⟨mem', (if_pos (.inl (by omega))).trans hmove, hw⟩

/-- Every block doubled goes a whole number of periods further. -/
theorem fillDoubling_written (mem : List UInt8) (fuel : Nat) {filled : Nat} {out : List UInt8}
    (hpos : 0 < offset) (hle : offset ≤ out.length) (hdvd : offset ∣ filled ∨ filled = matchLength)
    (hfilled : 0 < filled) (hshort : filled ≤ matchLength) (hfuel : matchLength ≤ filled + fuel)
    (hfront : mem.take (out.length + filled) = copyMatch offset filled out)
    (hfit : out.length + matchLength ≤ mem.length) :
    ∃ mem', fillDoubling out.length matchLength fuel mem filled = some mem' ∧
      Written mem (copyMatch offset matchLength out) 0 mem' := by
  have hdone : filled = matchLength → Written mem (copyMatch offset matchLength out) 0 mem := by
    intro hfull
    rw [← hfull, ← hfront]
    exact .refl mem _
  induction fuel generalizing mem filled with
  | zero => exact ⟨mem, rfl, hdone (by omega)⟩
  | succ fuel ih =>
    simp only [fillDoubling]
    split
    · rename_i hmore
      have hperiods := hdvd.resolve_right hmore.ne
      obtain ⟨mem₁, hcopy, hw⟩ := copyNonoverlapping_within mem
        (n := min filled (matchLength - filled)) (rfl : out.length + filled = out.length + filled)
        (Nat.min_le_left ..) hfilled (by omega)
      rw [hfront, copyMatch_periods hpos hle hfilled hperiods (by omega), ← copyMatch_add] at hw
      have hlen := length_copyMatch (n := filled + min filled (matchLength - filled)) hpos hle
      have hfront₁ : mem₁.take (out.length + (filled + min filled (matchLength - filled))) =
          copyMatch offset (filled + min filled (matchLength - filled)) out := by
        rw [← hlen]
        exact hw.front
      have hnext : offset ∣ filled + min filled (matchLength - filled) ∨
          filled + min filled (matchLength - filled) = matchLength := by
        rcases Nat.le_total filled (matchLength - filled) with hhalf | hlast
        · rw [Nat.min_eq_left hhalf]
          exact .inl (Nat.dvd_add hperiods hperiods)
        · exact .inr (by omega)
      obtain ⟨mem₂, hfill, hw₂⟩ := ih mem₁ hnext (by omega) (by omega) (by omega) hfront₁
        (by rw [hw.length]; exact hfit) fun hfull => by
          rw [← hfull, ← hfront₁]
          exact .refl mem₁ _
      refine ⟨mem₂, ?_, hw.trans hw₂ ?_⟩
      · rw [hcopy]
        exact hfill
      · rw [hlen, length_copyMatch hpos hle]
        omega
    · exact ⟨mem, rfl, hdone (by omega)⟩

theorem execSequenceBoundedCopy_written (mem : List UInt8) (tail : Nat)
    (hread : litLength ≤ litSrc.length) (hpos : 0 < offset)
    (hle : offset ≤ tail + litLength) (hfit : tail + (litLength + matchLength) ≤ mem.length) :
    ∃ mem', execSequenceBoundedCopy mem tail litSrc litLength offset matchLength = some mem' ∧
      Written mem (copyMatch offset matchLength (mem.take tail ++ litSrc.take litLength)) 0
        mem' := by
  obtain ⟨mem₁, hlit, hw₁⟩ := move_apart mem tail hread (by omega)
  have hout : (mem.take tail ++ litSrc.take litLength).length = tail + litLength := by
    rw [List.length_append, List.length_take_of_le (by omega), List.length_take_of_le hread]
  have hfront : mem₁.take (tail + litLength) = mem.take tail ++ litSrc.take litLength := by
    rw [← hout]
    exact hw₁.front
  have hlit' : copyNonoverlapping litLength mem tail (.apart litSrc) = some mem₁ := hlit
  simp only [execSequenceBoundedCopy, if_neg (Nat.not_lt.mpr hle), hlit', Option.bind_eq_bind,
    Option.bind_some]
  -- whichever way the match is copied, it goes behind the literals
  have hmatch : ∀ {mem' : List UInt8}, Written mem₁ (copyMatch offset matchLength
      (mem.take tail ++ litSrc.take litLength)) 0 mem' →
      Written mem (copyMatch offset matchLength (mem.take tail ++ litSrc.take litLength)) 0
        mem' := by
    intro mem' hw
    apply hw₁.trans hw
    rw [length_copyMatch hpos (by omega)]
    omega
  split
  · rename_i hapart
    obtain ⟨mem₂, hcopy, hw₂⟩ := copyNonoverlapping_within mem₁
      (Nat.sub_add_cancel hle) hapart hpos (by rw [hw₁.length]; omega)
    rw [hfront] at hw₂
    exact ⟨mem₂, hcopy, hmatch hw₂⟩
  · rename_i hoverlap
    rw [Nat.min_eq_left (by omega)]
    obtain ⟨mem₂, hcopy, hw₂⟩ := copyNonoverlapping_within mem₁ (n := offset)
      (Nat.sub_add_cancel hle) (Nat.le_refl offset) hpos (by rw [hw₁.length]; omega)
    rw [hfront] at hw₂
    have hfront₂ : mem₂.take ((mem.take tail ++ litSrc.take litLength).length + offset) =
        copyMatch offset offset (mem.take tail ++ litSrc.take litLength) := by
      rw [← length_copyMatch hpos (by omega)]
      exact hw₂.front
    obtain ⟨mem₃, hfill, hw₃⟩ := fillDoubling_written mem₂ matchLength hpos (by omega)
      (.inl (Nat.dvd_refl offset)) hpos (show offset ≤ matchLength by omega) (by omega) hfront₂
      (by rw [hw₂.length, hw₁.length]; omega)
    refine ⟨mem₃, ?_, hmatch (hw₂.trans hw₃ ?_)⟩
    · rw [hcopy, ← hout]
      exact hfill
    · rw [length_copyMatch hpos (by omega), length_copyMatch hpos (by omega)]
      omega

theorem wildcopy_dict {stride : Nat} (hpos : 0 < stride) (hmatch : 0 < matchLength)
    (hroom : (matchLength + (stride - 1)) / stride * stride ≤ dictSrc.length)
    (hfit : dst + matchLength + (stride - 1) ≤ mem.length) :
    ∃ mem', wildcopy stride (rounds stride matchLength) mem dst (.apart dictSrc) = some mem' ∧
      Written mem (mem.take dst ++ dictSrc.take matchLength) (stride - 1) mem' := by
  obtain ⟨hle, hover, -⟩ := rounds_mul hpos matchLength
  have hshort := hover hmatch
  have hone : 0 < (matchLength + (stride - 1)) / stride :=
    Nat.div_pos (by omega) hpos
  have hrounds : rounds stride matchLength = (matchLength + (stride - 1)) / stride :=
    Nat.max_eq_right hone
  obtain ⟨mem', hcopy, hw⟩ := @wildcopy_apart _ dictSrc stride mem dst
    (rounds stride matchLength) (by rwa [hrounds]) (by omega)
  refine ⟨mem', hcopy, hw.shorten ?_ ?_⟩
  · rw [List.prefix_append_right_inj]
    exact List.take_prefix_take_left hle
  · rw [← hrounds] at hroom
    simp only [List.length_append, List.length_take]
    omega

/-- A dictionary match goes behind its literals, whichever copy its room allows. -/
theorem execSequenceDictBody_written (mem : List UInt8) (tail : Nat) (wide : Bool) {cap : Nat}
    (hread : LiteralsReadable litSrc litLength) (hdict : matchLength ≤ dictSrc.length)
    (hmatch : 0 < matchLength) (hfit : tail + (litLength + matchLength) ≤ cap)
    (hcap : cap ≤ mem.length) :
    ∃ mem' slack, execSequenceDictBody wide mem tail cap litSrc litLength dictSrc matchLength =
        some mem' ∧
      Written mem (mem.take tail ++ litSrc.take litLength ++ dictSrc.take matchLength) slack mem' ∧
      slack ≤ maxWildcopyOvershoot wide ∧ tail + (litLength + matchLength) + slack ≤ cap := by
  obtain ⟨hlits, -, -⟩ := rounds_mul (show 0 < 16 by decide) litLength
  have hread' : rounds 16 litLength * 16 ≤ litSrc.length := hread
  have hout : (mem.take tail ++ litSrc.take litLength).length = tail + litLength := by
    rw [List.length_append, List.length_take_of_le (by omega), List.length_take_of_le (by omega)]
  have hmatched : (mem.take tail ++ litSrc.take litLength ++ dictSrc.take matchLength).length =
      tail + litLength + matchLength := by
    rw [List.length_append, hout, List.length_take_of_le hdict]
  simp only [execSequenceDictBody]
  split
  · have hlit : litLength ≤ litSrc.length := by omega
    obtain ⟨mem₁, hcopy, hw₁⟩ := move_apart mem tail hlit (by omega)
    have hcopy' : copyNonoverlapping litLength mem tail (.apart litSrc) = some mem₁ := hcopy
    have hfront : mem₁.take (tail + litLength) = mem.take tail ++ litSrc.take litLength := by
      rw [← hout]
      exact hw₁.front
    obtain ⟨mem₂, hdone, hw₂⟩ := move_apart mem₁ (tail + litLength) hdict
      (by rw [hw₁.length]; omega)
    rw [hfront] at hw₂
    refine ⟨mem₂, 0, ?_, hw₁.trans hw₂ (by omega), Nat.zero_le _, by omega⟩
    rw [hcopy']
    exact hdone
  · rename_i hroomy
    have hrounded := literals_within wide litLength hmatch
    obtain ⟨mem₁, hlit, hw₁⟩ := copyLiterals_written mem tail hread (by omega)
    have hfront : mem₁.take (tail + litLength) = mem.take tail ++ litSrc.take litLength := by
      rw [← hout]
      exact hw₁.front
    simp only [hlit, Option.bind_eq_bind, Option.bind_some]
    -- the rounded literals end within the overshoot the match may make
    have hover : 15 ≤ maxWildcopyOvershoot wide := by
      cases wide <;> decide
    have hdone : ∀ {mem₂ : List UInt8} {slack : Nat}, slack ≤ maxWildcopyOvershoot wide →
        Written mem₁ (mem₁.take (tail + litLength) ++ dictSrc.take matchLength) slack mem₂ →
        Written mem (mem.take tail ++ litSrc.take litLength ++ dictSrc.take matchLength)
          (maxWildcopyOvershoot wide) mem₂ := by
      intro mem₂ slack hslack hw₂
      rw [hfront] at hw₂
      exact hw₁.trans (hw₂.loosen hslack) (by omega)
    split
    · rename_i hwide
      obtain ⟨rfl, hroom⟩ := hwide
      have hthirty : maxWildcopyOvershoot true = 31 := rfl
      rw [hthirty] at hroomy
      obtain ⟨mem₂, hcopy, hw₂⟩ := @wildcopy_dict mem₁ dictSrc (tail + litLength) matchLength 32
        (by decide) hmatch hroom (by rw [hw₁.length]; omega)
      exact ⟨mem₂, _, hcopy, hdone (by decide) hw₂, Nat.le_refl _, by omega⟩
    split
    · rename_i hroom
      obtain ⟨mem₂, hcopy, hw₂⟩ := @wildcopy_dict mem₁ dictSrc (tail + litLength) matchLength 16
        (by decide) hmatch hroom (by rw [hw₁.length]; omega)
      exact ⟨mem₂, _, hcopy, hdone hover hw₂, Nat.le_refl _, by omega⟩
    · obtain ⟨mem₂, hcopy, hw₂⟩ := move_apart mem₁ (tail + litLength) hdict
        (by rw [hw₁.length]; omega)
      exact ⟨mem₂, _, hcopy, hdone (Nat.zero_le _) hw₂, Nat.le_refl _, by omega⟩

end Specs

end Decoding
