import StructuredZstd.Encoding.ParseCheck

namespace Encoding.Sequences

open Lz

/-- The output after `n` bytes of a match, copied byte by byte from dictionary and output. -/
def copied (dict : List UInt8) (offset n : Nat) (out : List UInt8) : List UInt8 :=
  (copyMatch offset n (dict ++ out)).drop dict.length

/-- The bytes a parse stands for: the literals of each sequence, then its match, and behind the last
one the literals left. -/
def rebuild (dict : List UInt8) : List UInt8 → List UInt8 → List ExternalSequence → List UInt8
  | out, literals, [] => out ++ literals
  | out, literals, s :: rest =>
    rebuild dict (copied dict s.offset s.matchLen (out ++ literals.take s.litLen))
      (literals.drop s.litLen) rest

section Copies

variable {dict out : List UInt8} {offset : Nat}

theorem append_copied (offset n : Nat) (out : List UInt8) :
    copyMatch offset n (dict ++ out) = dict ++ copied dict offset n out := by
  obtain ⟨more, hmore⟩ := prefix_copyMatch offset n (dict ++ out)
  rw [copied, ← hmore, List.append_assoc, List.drop_left]

@[simp] theorem copied_zero (offset : Nat) (out : List UInt8) : copied dict offset 0 out = out := by
  rw [copied, copyMatch, List.drop_left]

theorem prefix_copied (offset n : Nat) (out : List UInt8) : out <+: copied dict offset n out := by
  have h := prefix_copyMatch offset n (dict ++ out)
  rw [append_copied] at h
  exact (List.prefix_append_right_inj dict).mp h

theorem copied_add (offset m n : Nat) (out : List UInt8) :
    copied dict offset (m + n) out = copied dict offset n (copied dict offset m out) := by
  refine (List.append_right_inj dict).mp ?_
  rw [← append_copied, ← append_copied, copyMatch_add, append_copied]

theorem prefix_rebuild (seqs : List ExternalSequence) (out literals : List UInt8) :
    out <+: rebuild dict out literals seqs := by
  induction seqs generalizing out literals with
  | nil => exact List.prefix_append _ _
  | cons s rest ih =>
    exact (List.prefix_append _ _).trans ((prefix_copied _ _ _).trans (ih _ _))

/-- The first bytes of a match that starts in the dictionary are its tail. -/
theorem copied_of_dict {n : Nat} (hpos : 0 < offset) (hout : out.length < offset)
    (hreach : offset ≤ dict.length + out.length) (hn : n ≤ offset - out.length) :
    copied dict offset n out =
      out ++ (dict.drop (dict.length - (offset - out.length))).take n := by
  have hlen : (dict ++ out).length = dict.length + out.length := List.length_append
  have hdrop : (dict.drop (dict.length - (offset - out.length))).length = offset - out.length := by
    rw [List.length_drop]
    omega
  rw [copied, copyMatch_of_le hpos (by omega) (by omega), hlen,
    show dict.length + out.length - offset = dict.length - (offset - out.length) by omega,
    List.append_assoc, List.drop_left, List.drop_append_of_le_length (by omega),
    List.take_append_of_le_length (by omega)]

/-- The first bytes of a match within the output are those `offset` back. -/
theorem copied_of_output {n : Nat} (hpos : 0 < offset) (hout : offset ≤ out.length)
    (hn : n ≤ offset) :
    copied dict offset n out = out ++ (out.drop (out.length - offset)).take n := by
  have hlen : (dict ++ out).length = dict.length + out.length := List.length_append
  rw [copied, copyMatch_of_le hpos (by omega) hn, hlen, Nat.add_sub_assoc hout,
    List.append_assoc, List.drop_left, List.drop_append, List.drop_of_length_le (by omega),
    List.nil_append, Nat.add_sub_cancel_left]

theorem length_copied {n : Nat} (hpos : 0 < offset) (hsome : dict ++ out ≠ []) :
    (copied dict offset n out).length = out.length + n := by
  have h := @length_copyMatch_of_ne_nil _ offset n (dict ++ out) hpos hsome
  rw [append_copied, List.length_append, List.length_append] at h
  omega

end Copies

/-- A parse whose literals are there and whose matches a decoder can follow, from `position` on with
`left` literals to go. -/
def Rebuildable (window dictLen : Nat) : Nat → Nat → List ExternalSequence → Prop
  | _, _, [] => True
  | position, left, s :: rest =>
    s.litLen ≤ left ∧
      (s.matchLen ≠ 0 → Reaches window dictLen (position + s.litLen) s.offset) ∧
      Rebuildable window dictLen (position + s.len) (left - s.litLen) rest

def matchTotal (seqs : List ExternalSequence) : Nat :=
  (seqs.map ExternalSequence.matchLen).sum

namespace RebuiltSource

section Piece

variable {limit : Nat} {s : RebuiltSource} {out : List UInt8}

/-- What a source keeps while it hands out the match in hand: the tail of the output, all of it or as
much as the match reaches back. -/
structure Held (s : RebuiltSource) (out : List UInt8) : Prop where
  produced : s.produced = out.length
  suffix : s.history <:+ out
  offset_pos : 0 < s.offset
  reach : s.offset ≤ s.dict.length + out.length
  far : s.history.length = out.length ∨ s.offset ≤ s.history.length

theorem Held.history_eq (h : s.Held out) {n : Nat} (hn : n ≤ s.history.length) :
    s.history.drop (s.history.length - n) = out.drop (out.length - n) := by
  obtain ⟨front, rfl⟩ := h.suffix
  rw [List.length_append, Nat.add_sub_assoc hn, List.drop_append,
    List.drop_of_length_le (Nat.le_add_right _ _), List.nil_append, Nat.add_sub_cancel_left]

/-- A round of the copy finds its bytes. -/
theorem Held.copyPiece (h : s.Held out) {left : Nat} (hleft : 0 < left) :
    ∃ piece, s.copyPiece left = some piece ∧ 0 < piece.length ∧ piece.length ≤ left ∧
      copied s.dict s.offset piece.length out = out ++ piece := by
  have hprod := h.produced
  have hpos := h.offset_pos
  have hreach := h.reach
  rw [RebuiltSource.copyPiece]
  by_cases hdict : s.produced < s.offset
  · rw [if_pos hdict]
    have hlen : ((s.dict.drop (s.dict.length - (s.offset - s.produced))).take
        (min left (s.offset - s.produced))).length = min left (s.offset - s.produced) := by
      rw [List.length_take, List.length_drop]
      omega
    dsimp only
    rw [if_neg (by omega), slice_eq (by omega) (by omega), Nat.add_sub_cancel_left]
    refine ⟨_, rfl, by omega, by omega, ?_⟩
    rw [hlen, copied_of_dict hpos (by omega) hreach (by omega), hprod]
  · rw [if_neg hdict]
    have hfar : s.offset ≤ s.history.length := by
      rcases h.far with hall | hfar
      · omega
      · exact hfar
    have hlen : ((s.history.drop (s.history.length - s.offset)).take
        (min left s.offset)).length = min left s.offset := by
      rw [List.length_take, List.length_drop]
      omega
    dsimp only
    rw [if_neg (by omega), slice_eq (by omega) (by omega), Nat.add_sub_cancel_left]
    refine ⟨_, rfl, by omega, by omega, ?_⟩
    rw [hlen, copied_of_output hpos (by omega) (by omega), h.history_eq hfar]

theorem Held.append (h : s.Held out) (piece : List UInt8) :
    Held { s with history := s.history ++ piece, produced := (out ++ piece).length }
      (out ++ piece) := by
  obtain ⟨front, hfront⟩ := h.suffix
  have hreach := h.reach
  refine ⟨rfl, ⟨front, ?_⟩, h.offset_pos, ?_, ?_⟩
  · rw [← List.append_assoc, hfront]
  · rw [List.length_append]
    dsimp only
    omega
  · rw [List.length_append, List.length_append]
    rcases h.far with hall | hfar
    · exact Or.inl (by omega)
    · exact Or.inr (Nat.le_add_right_of_le hfar)

/-- The bytes wanted of a match are appended to the history, and are those the match stands for. -/
theorem Held.copyLoop {fuel left : Nat} (h : s.Held out) (hfuel : left ≤ fuel)
    (hlimit : out.length + left < limit) :
    ∃ chunk, chunk.length = left ∧ copied s.dict s.offset left out = out ++ chunk ∧
      copyLoop limit fuel left s =
        some { s with history := s.history ++ chunk, produced := out.length + left } := by
  induction fuel generalizing left s out with
  | zero =>
    obtain rfl : left = 0 := by omega
    refine ⟨[], rfl, by simp, ?_⟩
    rw [List.append_nil, Nat.add_zero, ← h.produced]
    rfl
  | succ fuel ih =>
    cases left with
    | zero =>
      refine ⟨[], rfl, by simp, ?_⟩
      rw [List.append_nil, Nat.add_zero, ← h.produced]
      rfl
    | succ left =>
      obtain ⟨piece, hpiece, hsome, hle, hcopied⟩ := h.copyPiece (Nat.succ_pos left)
      have hprod : wrappingAdd limit s.produced piece.length = (out ++ piece).length := by
        rw [wrappingAdd, h.produced, List.length_append, Nat.mod_eq_of_lt (by omega)]
      have hlen : (out ++ piece).length = out.length + piece.length := List.length_append
      obtain ⟨chunk, hchunk, hrest, hloop⟩ := @ih
        { s with history := s.history ++ piece, produced := (out ++ piece).length } (out ++ piece)
        (left + 1 - piece.length) (h.append piece) (by omega) (by omega)
      refine ⟨piece ++ chunk, ?_, ?_, ?_⟩
      · rw [List.length_append]
        omega
      · rw [show left + 1 = piece.length + (left + 1 - piece.length) by omega, copied_add, hcopied,
          hrest, List.append_assoc]
      · rw [RebuiltSource.copyLoop, hpiece, Option.bind_some, hprod, hloop, hlen,
          List.append_assoc]
        congr 2
        omega

end Piece

/-- A source from which `full` is being read, with `out` handed out so far. -/
structure Reading (full : List UInt8) (s : RebuiltSource) (out : List UInt8) : Prop where
  produced : s.produced = out.length
  suffix : s.history <:+ out
  kept : s.history.length = out.length ∨ s.keep ≤ s.history.length
  literals : s.litAt + s.litLeft ≤ s.literals.length
  inHand : 0 < s.matchLeft → 0 < s.offset ∧ s.offset ≤ s.dict.length + (out.length + s.litLeft)
  ahead : Rebuildable s.window s.dict.length (out.length + s.litLeft + s.matchLeft)
    (s.literals.length - (s.litAt + s.litLeft)) s.sequences
  full_eq : full = rebuild s.dict
    (copied s.dict s.offset s.matchLeft (out ++ (s.literals.drop s.litAt).take s.litLeft))
    (s.literals.drop (s.litAt + s.litLeft)) s.sequences

section Filling

variable {limit : Nat} {full out : List UInt8} {s : RebuiltSource}

theorem Reading.prefix (h : Reading full s out) : out <+: full := by
  rw [h.full_eq]
  exact (List.prefix_append _ _).trans ((prefix_copied _ _ _).trans (prefix_rebuild _ _ _))

/-- Literals handed out. -/
theorem Reading.literal (h : Reading full s out) {n : Nat} (hn : n ≤ s.litLeft) :
    ∃ chunk, chunk.length = n ∧ slice s.literals s.litAt (s.litAt + n) = some chunk ∧
      Reading full { s with
        history := s.history ++ chunk
        litAt := s.litAt + n
        litLeft := s.litLeft - n
        produced := out.length + n } (out ++ chunk) := by
  have hlits := h.literals
  have hlen : ((s.literals.drop s.litAt).take n).length = n := by
    rw [List.length_take, List.length_drop]
    omega
  obtain ⟨front, hfront⟩ := h.suffix
  refine ⟨_, hlen, ?_, ?_⟩
  · rw [slice_eq (by omega) (by omega), Nat.add_sub_cancel_left]
  · generalize hchunk : (s.literals.drop s.litAt).take n = chunk at *
    have hout : (out ++ chunk).length = out.length + n := by rw [List.length_append, hlen]
    have hat : s.litAt + n + (s.litLeft - n) = s.litAt + s.litLeft := by omega
    have hnow : out.length + n + (s.litLeft - n) = out.length + s.litLeft := by omega
    refine ⟨hout.symm, ⟨front, ?_⟩, ?_, ?_, ?_, ?_, ?_⟩
    · rw [← List.append_assoc, hfront]
    · rw [hout, List.length_append, hlen]
      rcases h.kept with hall | hkeep
      · exact Or.inl (by omega)
      · exact Or.inr (Nat.le_add_right_of_le hkeep)
    · dsimp only
      omega
    · intro hpos
      have hreach := h.inHand hpos
      dsimp only at *
      rwa [hout, hnow]
    · dsimp only
      rw [hout, hnow, hat]
      exact h.ahead
    · dsimp only
      rw [hat, h.full_eq]
      congr 2
      rw [← hchunk, List.append_assoc, ← List.drop_drop, ← List.take_add,
        Nat.add_sub_cancel' hn]

/-- Bytes of the match in hand handed out. -/
theorem Reading.matched (h : Reading full s out) (hlit : s.litLeft = 0) {n : Nat}
    (hn : n ≤ s.matchLeft) (hpos : 0 < s.matchLeft) (hlimit : out.length + n < limit) :
    ∃ chunk s', chunk.length = n ∧ s.copyMatch limit n = some s' ∧
      s'.history = s.history ++ chunk ∧ s'.litLeft = 0 ∧ s'.sequences = s.sequences ∧
      Reading full s' (out ++ chunk) := by
  have hheld : s.Held out := by
    obtain ⟨hoff, hreach⟩ := h.inHand hpos
    refine ⟨h.produced, h.suffix, hoff, by omega, ?_⟩
    rcases h.kept with hall | hkeep
    · exact Or.inl hall
    · rw [keep, if_pos hpos] at hkeep
      exact Or.inr (by omega)
  obtain ⟨chunk, hchunk, hcopied, hloop⟩ := hheld.copyLoop (Nat.le_refl n) hlimit
  have hout : (out ++ chunk).length = out.length + n := by rw [List.length_append, hchunk]
  obtain ⟨front, hfront⟩ := h.suffix
  refine ⟨chunk, { s with
    history := s.history ++ chunk
    produced := out.length + n
    matchLeft := s.matchLeft - n }, hchunk, ?_, rfl, hlit, rfl, ?_⟩
  · rw [RebuiltSource.copyMatch, hloop]
    rfl
  have hnow : out.length + n + s.litLeft + (s.matchLeft - n) =
      out.length + s.litLeft + s.matchLeft := by omega
  refine ⟨hout.symm, ⟨front, ?_⟩, ?_, h.literals, ?_, ?_, ?_⟩
  · rw [← List.append_assoc, hfront]
  · rw [hout, List.length_append, hchunk]
    rcases h.kept with hall | hkeep
    · exact Or.inl (by omega)
    · rw [keep, if_pos hpos] at hkeep
      refine Or.inr ?_
      simp only [keep]
      split <;> omega
  · intro _
    have hreach := h.inHand hpos
    dsimp only at *
    omega
  · dsimp only
    rw [hout, hnow]
    exact h.ahead
  · dsimp only
    rw [h.full_eq, hlit]
    simp only [List.take_zero, List.append_nil]
    congr 1
    rw [← hcopied, ← copied_add, Nat.add_sub_cancel' hn]

theorem Reading.match_fits (h : Reading full s out) (hlit : s.litLeft = 0)
    (hpos : 0 < s.matchLeft) : out.length + s.matchLeft ≤ full.length := by
  obtain ⟨hoff, hreach⟩ := h.inHand hpos
  have hsome : s.dict ++ out ≠ [] := by
    apply List.length_pos_iff.mp
    rw [List.length_append]
    omega
  rw [← length_copied hoff hsome]
  apply List.IsPrefix.length_le
  rw [h.full_eq, hlit, List.take_zero, List.append_nil]
  exact prefix_rebuild _ _ _

/-- The next sequence taken in hand. -/
theorem Reading.load (h : Reading full s out) (hlit : s.litLeft = 0) (hmatch : s.matchLeft = 0)
    {sequence : ExternalSequence} {rest : List ExternalSequence}
    (hseqs : s.sequences = sequence :: rest) :
    Reading full { s with
      sequences := rest
      litLeft := sequence.litLen
      matchLeft := sequence.matchLen
      offset := sequence.offset } out := by
  have hlits := h.literals
  have hahead := h.ahead
  rw [hseqs, hlit, hmatch, Rebuildable] at hahead
  obtain ⟨hle, hreach, hrest⟩ := hahead
  have hsize := h.suffix.length_le
  refine ⟨h.produced, h.suffix, ?_, ?_, ?_, ?_, ?_⟩
  · -- only past the window is there less than all of the output
    rcases h.kept with hall | hkeep
    · exact Or.inl hall
    · rw [keep, if_neg (by omega)] at hkeep
      by_cases hall : s.history.length = out.length
      · exact Or.inl hall
      · refine Or.inr ?_
        simp only [keep]
        split
        · have hable := (hreach (by omega)).2
          rw [if_pos (by omega)] at hable
          omega
        · exact hkeep
  · dsimp only
    omega
  · intro hpos
    have hable := hreach (Nat.pos_iff_ne_zero.mp hpos)
    have := hable.le
    exact ⟨Nat.pos_of_ne_zero hable.1, by dsimp only; omega⟩
  · dsimp only
    rw [ExternalSequence.len, Nat.add_zero, Nat.add_zero, ← Nat.add_assoc] at hrest
    rw [Nat.sub_sub] at hrest
    exact hrest
  · rw [h.full_eq, hseqs, hlit, hmatch, rebuild]
    simp only [List.take_zero, List.append_nil, copied_zero, Nat.add_zero, List.drop_drop]

/-- The literals behind the last sequence taken in hand. -/
theorem Reading.trailing (h : Reading full s out) (hlit : s.litLeft = 0) (hmatch : s.matchLeft = 0)
    (hseqs : s.sequences = []) :
    Reading full { s with sequences := [], litLeft := s.literals.length - s.litAt } out := by
  have hlits := h.literals
  have hall : (s.literals.drop s.litAt).length = s.literals.length - s.litAt := List.length_drop
  refine ⟨h.produced, h.suffix, h.kept, ?_, ?_, trivial, ?_⟩
  · dsimp only
    omega
  · intro hpos
    dsimp only at hpos
    omega
  · rw [h.full_eq, hseqs, hlit, hmatch]
    simp only [rebuild, List.take_zero, List.append_nil, copied_zero, Nat.add_zero]
    rw [show s.litAt + (s.literals.length - s.litAt) = s.literals.length by omega,
      List.drop_length, List.append_nil, List.take_of_length_le (Nat.le_of_eq hall)]

/-- What is between two reads of a source is kept by letting the far history go. -/
theorem Reading.trim (h : Reading full s out) : Reading full (s.trim limit) out := by
  rw [RebuiltSource.trim]
  split
  · rename_i hlong
    refine ⟨h.produced, ?_, ?_, h.literals, h.inHand, h.ahead, h.full_eq⟩
    · exact (List.drop_suffix _ _).trans h.suffix
    · have hkeep : ({ s with history := s.history.drop (s.history.length - s.keep) } :
          RebuiltSource).keep = s.keep := rfl
      rw [hkeep]
      refine Or.inr ?_
      dsimp only
      rw [List.length_drop]
      omega
  · exact h

/-- The loop of a read goes on until the buffer is full or the source is done. -/
theorem Reading.fill {fuel room : Nat} (h : Reading full s out) (hlimit : full.length < limit)
    (hfuel : 2 * room + s.sequences.length + (if s.litLeft = 0 then 1 else 0) < fuel) :
    ∃ bytes s', RebuiltSource.fill limit fuel room s = some (bytes, s') ∧
      Reading full s' (out ++ bytes) ∧ bytes.length ≤ room ∧
      (bytes.length = room ∨ out ++ bytes = full) := by
  induction fuel generalizing room s out with
  | zero => omega
  | succ fuel ih =>
    rw [RebuiltSource.fill]
    by_cases hroom : room = 0
    · rw [if_pos hroom]
      exact ⟨[], s, rfl, by rwa [List.append_nil], Nat.zero_le _, Or.inl hroom.symm⟩
    · rw [if_neg hroom]
      by_cases hlit : 0 < s.litLeft
      · rw [if_pos hlit]
        have hn : min s.litLeft room ≤ s.litLeft := Nat.min_le_left _ _
        generalize hmin : min s.litLeft room = n at hn
        obtain ⟨chunk, hchunk, hslice, hnext⟩ := h.literal hn
        have hfit := hnext.prefix.length_le
        rw [List.length_append] at hfit
        have hprod : wrappingAdd limit s.produced n = out.length + n := by
          rw [wrappingAdd, h.produced, Nat.mod_eq_of_lt (by omega)]
        rw [if_neg (by omega)] at hfuel
        obtain ⟨bytes, s', hfill, hread, hle, hdone⟩ := @ih _ _ (room - n) hnext (by
          dsimp only
          split <;> omega)
        refine ⟨chunk ++ bytes, s', ?_, ?_, ?_, ?_⟩
        · simp only [hslice, Option.bind_some, hprod, hchunk, hfill, Option.map_some]
        · rwa [← List.append_assoc]
        · rw [List.length_append]
          omega
        · rw [List.length_append, ← List.append_assoc]
          rcases hdone with hfull | hend
          · exact Or.inl (by omega)
          · exact Or.inr hend
      · have hzero : s.litLeft = 0 := by omega
        rw [if_neg hlit]
        rw [if_pos hzero] at hfuel
        by_cases hmatch : 0 < s.matchLeft
        · rw [if_pos hmatch]
          have hn : min s.matchLeft room ≤ s.matchLeft := Nat.min_le_left _ _
          generalize hmin : min s.matchLeft room = n at hn
          have hfit : out.length + n < limit := by
            have := h.match_fits hzero hmatch
            omega
          obtain ⟨chunk, s1, hchunk, hcopy, hhist, hlit1, hseqs1, hnext⟩ :=
            h.matched hzero hn hmatch hfit
          have hdrop : s1.history.drop s.history.length = chunk := by
            rw [hhist, List.drop_left]
          obtain ⟨bytes, s', hfill, hread, hle, hdone⟩ := @ih _ _ (room - n) hnext (by
            rw [hlit1, hseqs1, if_pos rfl]
            omega)
          refine ⟨chunk ++ bytes, s', ?_, ?_, ?_, ?_⟩
          · simp only [hcopy, Option.bind_some, hdrop, hchunk, hfill, Option.map_some]
          · rwa [← List.append_assoc]
          · rw [List.length_append]
            omega
          · rw [List.length_append, ← List.append_assoc]
            rcases hdone with hfull | hend
            · exact Or.inl (by omega)
            · exact Or.inr hend
        · rw [if_neg hmatch]
          cases hseqs : s.sequences with
          | cons sequence rest =>
            rw [hseqs, List.length_cons] at hfuel
            exact ih (h.load hzero (by omega) hseqs) (by
              dsimp only
              split <;> omega)
          | nil =>
            dsimp only
            split
            · rename_i hleft
              rw [hseqs, List.length_nil] at hfuel
              exact ih (h.trailing hzero (by omega) hseqs) (by
                dsimp only
                rw [List.length_nil, if_neg (by omega)]
                omega)
            · rename_i hleft
              refine ⟨[], s, rfl, by rwa [List.append_nil], Nat.zero_le _, Or.inr ?_⟩
              rw [h.full_eq, hseqs, hzero, show s.matchLeft = 0 by omega]
              simp only [rebuild, List.take_zero, List.append_nil, copied_zero, Nat.add_zero]
              rw [List.drop_of_length_le (by omega), List.append_nil]

/-- A read hands out the next bytes, as many as the buffer holds. -/
theorem Reading.read (h : Reading full s out) (hlimit : full.length < limit) (size : Nat) :
    ∃ s', s.read limit size = some ((full.drop out.length).take size, s') ∧
      Reading full s' (out ++ (full.drop out.length).take size) := by
  obtain ⟨bytes, s', hfill, hread, hle, hdone⟩ := @Reading.fill limit full out s
    (2 * size + s.sequences.length + 2) size h hlimit (by split <;> omega)
  have hbytes : bytes = (full.drop out.length).take size := by
    obtain ⟨rest, hrest⟩ := hread.prefix
    rw [← hrest, List.append_assoc, List.drop_left]
    rcases hdone with hfull | hend
    · rw [List.take_left' hfull]
    · have hnil : rest = [] := by
        rw [hend] at hrest
        exact List.append_right_eq_self.mp hrest
      rw [hnil, List.append_nil, List.take_of_length_le hle]
  subst hbytes
  exact ⟨s'.trim limit, by rw [RebuiltSource.read, hfill]; rfl, hread.trim⟩

theorem Reading.readAll (h : Reading full s out) (hlimit : full.length < limit)
    (sizes : List Nat) :
    ∃ chunks s', s.readAll limit sizes = some (chunks, s') ∧
      chunks.flatten = (full.drop out.length).take sizes.sum := by
  induction sizes generalizing s out with
  | nil => exact ⟨[], s, rfl, by simp⟩
  | cons size sizes ih =>
    obtain ⟨s1, hread, hnext⟩ := h.read hlimit size
    obtain ⟨chunks, s2, hrest, hflat⟩ := ih hnext
    refine ⟨(full.drop out.length).take size :: chunks, s2, ?_, ?_⟩
    · rw [RebuiltSource.readAll, hread, Option.bind_some]
      dsimp only
      rw [hrest]
      rfl
    · rw [List.flatten_cons, hflat, List.sum_cons, List.take_add]
      congr 2
      rw [List.length_append, List.length_take]
      rcases Nat.le_total size (full.drop out.length).length with hle | hge
      · rw [Nat.min_eq_left hle, List.drop_drop]
      · rw [Nat.min_eq_right hge, List.drop_of_length_le (by rw [List.length_drop]; omega),
          List.drop_of_length_le hge]

end Filling

section Acceptance

variable {limit literalsLen window : Nat} {dict : List UInt8}

theorem checkedAdd_eq_some {a b c : Nat} (h : checkedAdd limit a b = some c) :
    c = a + b ∧ c < limit := by
  rw [checkedAdd] at h
  split_ifs at h with hfit
  cases h
  exact ⟨rfl, hfit⟩

/-- A round of the check that goes on: the literals are there, and a match is one its position
reaches, as far as the position is right. -/
theorem newLoop_cons {s : ExternalSequence} {rest : List ExternalSequence} {index p lits : Nat}
    {v : Nat × Nat} (hs : s.InU32) (hlimit : 2 ^ 32 ≤ limit)
    (h : newLoop limit literalsLen dict.length window index p lits (s :: rest) = .ok v) :
    lits + s.litLen ≤ literalsLen ∧
      (s.matchLen ≠ 0 →
        Reaches window dict.length (wrappingAdd limit p s.litLen) s.offset ∧
          wrappingAdd limit p s.litLen + s.matchLen < limit) ∧
      newLoop limit literalsLen dict.length window (index + 1)
        (wrappingAdd limit p s.litLen + s.matchLen) (lits + s.litLen) rest = .ok v := by
  rw [newLoop] at h
  split at h
  · cases h
  · rename_i lits' hlits
    obtain ⟨hadd, hle⟩ := Option.filter_eq_some_iff.mp hlits
    obtain ⟨rfl, -⟩ := checkedAdd_eq_some hadd
    have hle : lits + s.litLen ≤ literalsLen := by simpa using hle
    refine ⟨hle, ?_⟩
    dsimp only at h
    generalize wrappingAdd limit p s.litLen = q at h ⊢
    split at h
    · rename_i hzero
      rw [hzero]
      exact ⟨fun hne => absurd rfl hne, h⟩
    · split at h
      · cases h
      · rename_i hoff
        generalize hpast : (if window < q then decide (window < s.offset)
          else (checkedAdd limit q dict.length).any fun reach => decide (reach < s.offset)) = past
          at h
        cases past with
        | true => cases h
        | false =>
          simp only [Bool.false_eq_true, if_false] at h
          split at h
          · cases h
          · rename_i q' hend
            obtain ⟨rfl, hfit⟩ := checkedAdd_eq_some hend
            refine ⟨fun _ => ⟨⟨hoff, ?_⟩, hfit⟩, h⟩
            by_cases hwin : window < q
            · rw [if_pos hwin] at hpast ⊢
              simpa using hpast
            · rw [if_neg hwin, checkedAdd] at hpast
              rw [if_neg hwin]
              have hoffset := hs.offset
              split_ifs at hpast with hsum
              · simpa using hpast
              · omega

/-- Where no position wraps, what is accepted can be rebuilt. -/
theorem rebuildable_of_newLoop {seqs : List ExternalSequence} {index p lits : Nat} {v : Nat × Nat}
    (hu32 : ∀ s ∈ seqs, s.InU32) (hlimit : 2 ^ 32 ≤ limit)
    (h : newLoop limit literalsLen dict.length window index p lits seqs = .ok v)
    (hle : lits ≤ literalsLen) (hfit : p + (literalsLen - lits) + matchTotal seqs < limit) :
    Rebuildable window dict.length p (literalsLen - lits) seqs ∧ v.2 ≤ literalsLen ∧
      v.1 + (literalsLen - v.2) = p + (literalsLen - lits) + matchTotal seqs := by
  induction seqs generalizing index p lits with
  | nil =>
    cases h
    exact ⟨trivial, hle, rfl⟩
  | cons s rest ih =>
    have hmt : matchTotal (s :: rest) = s.matchLen + matchTotal rest := by simp [matchTotal]
    obtain ⟨hlits, hmatch, hrest⟩ := newLoop_cons (hu32 s List.mem_cons_self) hlimit h
    have hwrap : wrappingAdd limit p s.litLen = p + s.litLen := Nat.mod_eq_of_lt (by omega)
    rw [hwrap] at hmatch hrest
    obtain ⟨hable, hv, hsum⟩ := ih (fun t ht => hu32 t (List.mem_cons_of_mem _ ht)) hrest hlits
      (by omega)
    refine ⟨⟨by omega, fun hne => (hmatch hne).1, ?_⟩, hv, by omega⟩
    rw [ExternalSequence.len, ← Nat.add_assoc, Nat.sub_sub]
    exact hable

/-- However its positions wrap, what is accepted rebuilds to its literals and its matches. -/
theorem length_rebuild {seqs : List ExternalSequence} {index p lits : Nat} {v : Nat × Nat}
    {out literals : List UInt8} (hu32 : ∀ s ∈ seqs, s.InU32) (hlimit : 2 ^ 32 ≤ limit)
    (h : newLoop limit literalsLen dict.length window index p lits seqs = .ok v)
    (hliterals : literals.length = literalsLen - lits) (hstart : out.length = 0 → p = 0) :
    (rebuild dict out literals seqs).length = out.length + literals.length + matchTotal seqs := by
  induction seqs generalizing index p lits out literals with
  | nil =>
    rw [rebuild, List.length_append]
    rfl
  | cons s rest ih =>
    have hmt : matchTotal (s :: rest) = s.matchLen + matchTotal rest := by simp [matchTotal]
    obtain ⟨hlits, hmatch, hrest⟩ := newLoop_cons (hu32 s List.mem_cons_self) hlimit h
    have hout : (out ++ literals.take s.litLen).length = out.length + s.litLen := by
      rw [List.length_append, List.length_take]
      omega
    have hlen : (copied dict s.offset s.matchLen (out ++ literals.take s.litLen)).length =
        out.length + s.litLen + s.matchLen := by
      by_cases hzero : s.matchLen = 0
      · rw [hzero, copied_zero, hout, Nat.add_zero]
      · have hreach := (hmatch hzero).1
        rw [length_copied (Nat.pos_of_ne_zero hreach.1), hout]
        intro hnil
        -- nothing to copy from: then nothing was out yet, and the offset had nowhere to go
        have hempty := congrArg List.length hnil
        rw [List.length_append, hout, List.length_nil] at hempty
        have hp : wrappingAdd limit p s.litLen = 0 := by
          rw [wrappingAdd, hstart (by omega), show s.litLen = 0 by omega, Nat.zero_add,
            Nat.zero_mod]
        rw [hp] at hreach
        have := hreach.le
        have := hreach.1
        omega
    have hdrop : (literals.drop s.litLen).length = literalsLen - (lits + s.litLen) := by
      rw [List.length_drop]
      omega
    rw [rebuild, ih (fun t ht => hu32 t (List.mem_cons_of_mem _ ht)) hrest hdrop, hlen, hdrop]
    · omega
    · intro hnone
      rw [hlen] at hnone
      rw [wrappingAdd, hstart (by omega), show s.litLen = 0 by omega,
        show s.matchLen = 0 by omega, Nat.zero_add, Nat.zero_mod]

end Acceptance

end RebuiltSource

/-- Reads of any sizes give the bytes of `full` one after the other, and `len` is how many there
are. -/
structure ReadsBack (limit : Nat) (s : RebuiltSource) (full : List UInt8) : Prop where
  len : s.len = full.length
  reads : ∀ sizes, ∃ chunks s', s.readAll limit sizes = some (chunks, s') ∧
    chunks.flatten = full.take sizes.sum

section Sources

variable {limit window : Nat} {seqs : List ExternalSequence} {literals dict : List UInt8}
  {s : RebuiltSource}

theorem new_eq_ok (h : RebuiltSource.new limit seqs literals dict window = .ok s) :
    ∃ v, RebuiltSource.newLoop limit literals.length dict.length window 0 0 0 seqs = .ok v ∧
      v.1 + (literals.length - v.2) < limit ∧
      s = ⟨seqs, literals, dict, window, 0, 0, 0, 0, 0, [], v.1 + (literals.length - v.2)⟩ := by
  rw [RebuiltSource.new] at h
  split at h
  · cases h
  · rename_i position lits hloop
    split at h
    · cases h
    · rename_i len hlen
      obtain ⟨rfl, hfit⟩ := RebuiltSource.checkedAdd_eq_some hlen
      cases h
      exact ⟨_, hloop, hfit, rfl⟩

theorem reading_new {v : Nat × Nat} {len : Nat} (hu32 : ∀ s ∈ seqs, s.InU32)
    (hlimit : 2 ^ 32 ≤ limit)
    (h : RebuiltSource.newLoop limit literals.length dict.length window 0 0 0 seqs = .ok v)
    (hfit : literals.length + matchTotal seqs < limit) :
    RebuiltSource.Reading (rebuild dict [] literals seqs)
      ⟨seqs, literals, dict, window, 0, 0, 0, 0, 0, [], len⟩ [] := by
  have hable := (RebuiltSource.rebuildable_of_newLoop hu32 hlimit h (Nat.zero_le _)
    (by omega)).1
  refine ⟨rfl, List.suffix_rfl, Or.inl rfl, Nat.zero_le _, nofun, hable, ?_⟩
  simp

/-- A source that was accepted reads back the bytes its parse stands for exactly when a `usize`
can count them. -/
theorem rebuilt_source_iff (hu32 : ∀ s ∈ seqs, s.InU32) (hlimit : 2 ^ 32 ≤ limit)
    (h : RebuiltSource.new limit seqs literals dict window = .ok s) :
    ReadsBack limit s (rebuild dict [] literals seqs) ↔
      literals.length + matchTotal seqs < limit := by
  obtain ⟨v, hloop, hlen, rfl⟩ := new_eq_ok h
  have htotal := @RebuiltSource.length_rebuild limit literals.length window dict seqs 0 0 0 v []
    literals hu32 hlimit hloop rfl (fun _ => rfl)
  rw [List.length_nil, Nat.zero_add] at htotal
  constructor
  · intro hread
    have := hread.len
    dsimp only at this
    omega
  · intro hfit
    have hsum := (RebuiltSource.rebuildable_of_newLoop hu32 hlimit hloop (Nat.zero_le _)
      (by omega)).2.2
    refine ⟨by dsimp only; omega, fun sizes => ?_⟩
    have hreading := @reading_new limit window seqs literals dict v
      (v.1 + (literals.length - v.2)) hu32 hlimit hloop hfit
    have hbound : (rebuild dict [] literals seqs).length < limit := by omega
    exact hreading.readAll hbound sizes

/-- A match out of the dictionary and on into the output, one that overlaps itself, and a tail. -/
theorem rebuilt_source_dictionary :
    ∃ s, RebuiltSource.new (2 ^ 64) [⟨5, 2, 6⟩, ⟨1, 1, 4⟩] [97, 98, 120, 33]
        [48, 49, 50, 51, 52, 53, 54, 55, 56, 57] 1024 = .ok s ∧
      ReadsBack (2 ^ 64) s [97, 98, 55, 56, 57, 97, 98, 55, 120, 120, 120, 120, 120, 33] := by
  have hbytes : rebuild [48, 49, 50, 51, 52, 53, 54, 55, 56, 57] [] [97, 98, 120, 33]
      [⟨5, 2, 6⟩, ⟨1, 1, 4⟩] = [97, 98, 55, 56, 57, 97, 98, 55, 120, 120, 120, 120, 120, 33] := by
    decide +kernel
  have hnew : RebuiltSource.new (2 ^ 64) [⟨5, 2, 6⟩, ⟨1, 1, 4⟩] [97, 98, 120, 33]
      [48, 49, 50, 51, 52, 53, 54, 55, 56, 57] 1024 =
      .ok ⟨[⟨5, 2, 6⟩, ⟨1, 1, 4⟩], [97, 98, 120, 33], [48, 49, 50, 51, 52, 53, 54, 55, 56, 57],
        1024, 0, 0, 0, 0, 0, [], 14⟩ := by decide +kernel
  rw [← hbytes]
  refine ⟨_, hnew, (rebuilt_source_iff ?_ (by decide) hnew).mpr (by decide)⟩
  simp only [List.forall_mem_cons]
  exact ⟨⟨by decide, by decide, by decide⟩, ⟨by decide, by decide, by decide⟩, nofun⟩

/-- Where `usize` has 32 bits, the literals behind a match of nearly all of them wrap the position:
the source is accepted and counts 12 bytes of more than 2^32. -/
theorem position_wraps_past_usize :
    ∃ s, RebuiltSource.new (2 ^ 32) [⟨1, 1, 2 ^ 32 - 2⟩, ⟨1, 10, 3⟩] (List.replicate 11 97) [] 16 =
        .ok s ∧
      s.len = 12 ∧
      ¬ReadsBack (2 ^ 32) s
        (rebuild [] [] (List.replicate 11 97) [⟨1, 1, 2 ^ 32 - 2⟩, ⟨1, 10, 3⟩]) := by
  have hu32 : ∀ s ∈ [ExternalSequence.mk 1 1 (2 ^ 32 - 2), ⟨1, 10, 3⟩], s.InU32 := by
    simp only [List.forall_mem_cons]
    exact ⟨⟨by decide, by decide, by decide⟩, ⟨by decide, by decide, by decide⟩, nofun⟩
  have hloop : RebuiltSource.newLoop (2 ^ 32) 11 0 16 0 0 0
      [⟨1, 1, 2 ^ 32 - 2⟩, ⟨1, 10, 3⟩] = .ok (12, 11) := by decide +kernel
  have hlen := @RebuiltSource.length_rebuild (2 ^ 32) 11 16 [] _ 0 0 0 _ []
    (List.replicate 11 97) hu32 (Nat.le_refl _) hloop rfl (fun _ => rfl)
  refine ⟨⟨[⟨1, 1, 2 ^ 32 - 2⟩, ⟨1, 10, 3⟩], List.replicate 11 97, [], 16, 0, 0, 0, 0, 0, [], 12⟩,
    ?_, rfl, fun hread => ?_⟩
  · rw [RebuiltSource.new, List.length_replicate, List.length_nil, hloop]
    rfl
  · have := hread.len
    rw [hlen] at this
    exact absurd this (by decide)

end Sources

end Encoding.Sequences
