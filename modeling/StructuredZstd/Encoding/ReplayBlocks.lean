import StructuredZstd.Encoding.ParseCheck

namespace Encoding.Sequences

open Lz

/-- A match that may be reported at `position` of the input. -/
structure SoundMatch (dict src : List UInt8) (window position offset len : Nat) : Prop where
  long : minMatch ≤ len
  same : MatchAt (dict ++ src) (dict.length + position) offset len
  reach : Reaches window dict.length position offset

/-- Sequences laid end to end from `start` to `stop`, with sound matches. -/
def Tiles (dict src : List UInt8) (window : Nat) : Nat → List Sequence → Nat → Prop
  | start, [], stop => stop = start
  | start, .literals len :: rest, stop => Tiles dict src window (start + len) rest stop
  | start, .triple literalLen offset matchLen :: rest, stop =>
    SoundMatch dict src window (start + literalLen) offset matchLen ∧
      Tiles dict src window (start + literalLen + matchLen) rest stop

/-- A parse from `start` on, entered at position `p`: `litTaken` and `matchTaken` bytes of its first
sequence lie before. -/
def Cursor (p start : Nat) : List ExternalSequence → Nat → Nat → Prop
  | [], _, _ => start ≤ p
  | s :: _, litTaken, matchTaken =>
    p = start + litTaken + matchTaken ∧ litTaken ≤ s.litLen ∧ matchTaken ≤ s.matchLen ∧
      (0 < matchTaken → litTaken = s.litLen)

section Walking

variable {dict src : List UInt8} {window : Nat} {seqs : List ExternalSequence}
  {p start litTaken matchTaken remaining literals : Nat}

theorem Tiles.append {a b c : Nat} {xs ys : List Sequence} (hx : Tiles dict src window a xs b)
    (hy : Tiles dict src window b ys c) : Tiles dict src window a (xs ++ ys) c := by
  induction xs generalizing a with
  | nil =>
    obtain rfl : b = a := hx
    exact hy
  | cons x xs ih =>
    cases x with
    | literals len => exact ih hx
    | triple literalLen offset matchLen => exact ⟨hx.1, ih hx.2⟩

/-- A piece of a sound match, past `k` bytes of it. -/
theorem SoundMatch.piece {q offset len k n : Nat} (h : SoundMatch dict src window q offset len)
    (hn : minMatch ≤ n) (hk : k + n ≤ len)
    (hcut : 0 < k → window < q + k → offset ≤ window) :
    SoundMatch dict src window (q + k) offset n := by
  refine ⟨hn, ?_, (h.reach.later_iff k).mpr ?_⟩
  · rw [← Nat.add_assoc]
    exact h.same.piece hk
  · rcases Nat.eq_zero_or_pos k with rfl | hpos
    · intro hwin
      have hle := h.reach.2
      rwa [if_pos (by simpa using hwin)] at hle
    · exact hcut hpos

/-- What a loop of the walk comes to: the sequences reported, the literals not reported, the bytes
left over, and the cursor. -/
abbrev WalkOut := List Sequence × Nat × Nat × List ExternalSequence × Nat × Nat

def pieceReported (literals offset n : Nat) : List Sequence :=
  if minMatch ≤ n then [.triple literals offset n] else []

def pieceLiterals (literals n : Nat) : Nat := if minMatch ≤ n then 0 else literals + n

/-- The four ways a round over a sequence can go: the block is full, it ends within the literals or
within the match, or the walk goes on to the next sequence. -/
inductive Round (s : ExternalSequence) (rest : List ExternalSequence)
    (litTaken matchTaken remaining literals : Nat) : WalkOut → Prop where
  | full (h : remaining = 0) :
    Round s rest litTaken matchTaken remaining literals
      ([], literals, 0, s :: rest, litTaken, matchTaken)
  | inLiterals (h : 0 < remaining) (hlit : litTaken + remaining < s.litLen) :
    Round s rest litTaken matchTaken remaining literals
      ([], literals + remaining, 0, s :: rest, litTaken + remaining, matchTaken)
  | inMatch (take n : Nat) (h : 0 < remaining) (hlit : litTaken + take = s.litLen)
    (hall : take + n = remaining) (hmatch : matchTaken + n < s.matchLen) :
    Round s rest litTaken matchTaken remaining literals
      (pieceReported (literals + take) s.offset n, pieceLiterals (literals + take) n, 0, s :: rest,
        s.litLen, matchTaken + n)
  | through (take n : Nat) (h : 0 < remaining) (hlit : litTaken + take = s.litLen)
    (hall : take + n ≤ remaining) (hmatch : matchTaken + n = s.matchLen)
    (more : List Sequence) (stop : Nat × Nat × List ExternalSequence × Nat × Nat)
    (hrest : SequenceReplay.walkLoop rest 0 0 (remaining - take - n)
      (pieceLiterals (literals + take) n) = (more, stop)) :
    Round s rest litTaken matchTaken remaining literals
      (pieceReported (literals + take) s.offset n ++ more, stop)

theorem walkLoop_round {s : ExternalSequence} {rest : List ExternalSequence}
    (hlit : litTaken ≤ s.litLen) (hmatch : matchTaken ≤ s.matchLen) :
    Round s rest litTaken matchTaken remaining literals
      (SequenceReplay.walkLoop (s :: rest) litTaken matchTaken remaining literals) := by
  rw [SequenceReplay.walkLoop]
  by_cases hzero : remaining = 0
  · rw [if_pos hzero, hzero]
    exact .full rfl
  · rw [if_neg hzero]
    generalize htake : min (s.litLen - litTaken) remaining = take
    by_cases hshort : litTaken + take < s.litLen
    · have hall : take = remaining := by omega
      rw [hall] at hshort ⊢
      simp only [if_pos hshort, Nat.sub_self]
      exact .inLiterals (by omega) (by omega)
    · have hend : litTaken + take = s.litLen := by omega
      simp only [if_neg hshort]
      generalize hpiece : min (s.matchLen - matchTaken) (remaining - take) = n
      by_cases hdone : matchTaken + n = s.matchLen
      · simp only [if_pos hdone]
        exact .through take n (by omega) hend (by omega) hdone _ _ rfl
      · have hall : remaining - take - n = 0 := by omega
        simp only [if_neg hdone, hall, hend]
        exact .inMatch take n (by omega) hend (by omega) (by omega)

theorem Cursor.next {s : ExternalSequence} {rest : List ExternalSequence} {n : Nat}
    (hp : p = start + s.litLen + matchTaken) (hn : matchTaken + n = s.matchLen) :
    Cursor (p + n) (start + s.len) rest 0 0 := by
  have hlen : s.len = s.litLen + s.matchLen := rfl
  cases rest with
  | nil =>
    rw [Cursor]
    omega
  | cons t more => exact ⟨by omega, Nat.zero_le _, Nat.zero_le _, nofun⟩

/-- Wherever the walk stops, the cursor stands where the block ends. -/
theorem walkLoop_cursor (hcursor : Cursor p start seqs litTaken matchTaken) {out : WalkOut}
    (hout : SequenceReplay.walkLoop seqs litTaken matchTaken remaining literals = out) :
    out.2.2.1 ≤ remaining ∧ ∃ before, seqs = before ++ out.2.2.2.1 ∧
      Cursor (p + remaining) (start + covered before) out.2.2.2.1 out.2.2.2.2.1
        out.2.2.2.2.2 := by
  induction seqs generalizing p start litTaken matchTaken remaining literals out with
  | nil =>
    subst hout
    have hle : start ≤ p := hcursor
    refine ⟨Nat.le_refl _, [], rfl, ?_⟩
    exact Nat.le_add_right_of_le hle
  | cons s rest ih =>
    obtain ⟨hp, hlit, hmatch, hinside⟩ := hcursor
    have hround := @walkLoop_round litTaken matchTaken remaining literals s rest hlit hmatch
    rw [hout] at hround
    cases hround with
    | full h =>
      subst h
      exact ⟨Nat.le_refl _, [], rfl, hp, hlit, hmatch, hinside⟩
    | inLiterals h hshort =>
      refine ⟨Nat.zero_le _, [], rfl, ?_, Nat.le_of_lt hshort, hmatch, fun hpos => ?_⟩
      · simp only [covered, List.map_nil, List.sum_nil]
        omega
      · have := hinside hpos
        omega
    | inMatch take n h hend hall hshort =>
      refine ⟨Nat.zero_le _, [], rfl, ?_, Nat.le_refl _, Nat.le_of_lt hshort, fun _ => rfl⟩
      simp only [covered, List.map_nil, List.sum_nil]
      omega
    | through take n h hend hall hdone more stop hrest =>
      have hnext : Cursor (p + take + n) (start + s.len) rest 0 0 := Cursor.next (by omega) hdone
      obtain ⟨hle, before, hsplit, hcursor'⟩ := ih hnext hrest
      refine ⟨by dsimp only at hle ⊢; omega, s :: before, congrArg (s :: ·) hsplit, ?_⟩
      rw [covered_cons, ← Nat.add_assoc, show p + remaining =
        p + take + n + (remaining - take - n) by omega]
      exact hcursor'

/-- What one round reports of its sequence: the match from where the last block left it. -/
theorem tiles_piece {s : ExternalSequence} {n : Nat} (hlits : literals ≤ p)
    (hgood : s.isDelimiter = false → SoundMatch dict src window (start + s.litLen) s.offset s.matchLen)
    (hp : p = start + s.litLen + matchTaken) (hn : matchTaken + n ≤ s.matchLen)
    (hcut : 0 < matchTaken → minMatch ≤ n → window < p → s.offset ≤ window) :
    Tiles dict src window (p - literals) (pieceReported literals s.offset n)
      (p + n - pieceLiterals literals n) := by
  rw [pieceReported, pieceLiterals]
  by_cases hlong : minMatch ≤ n
  · have hmatch : s.isDelimiter = false := by
      cases hd : s.isDelimiter with
      | false => rfl
      | true =>
        have hzero := (isDelimiter_iff.mp hd).2
        simp only [minMatch] at hlong
        omega
    simp only [if_pos hlong, Tiles, Nat.sub_add_cancel hlits, Nat.sub_zero, and_true]
    rw [hp]
    exact (hgood hmatch).piece hlong hn fun hpos hwin => hcut hpos hlong (hp ▸ hwin)
  · simp only [if_neg hlong, Tiles]
    omega

/-- What the walk reports tiles the block up to the literals still in hand. -/
theorem walkLoop_tiles
    (hgood : ∀ q s, (q, s) ∈ placed start seqs → s.isDelimiter = false →
      SoundMatch dict src window q s.offset s.matchLen)
    (hcursor : Cursor p start seqs litTaken matchTaken) (hlits : literals ≤ p)
    (hcut : ∀ s rest, seqs = s :: rest → 0 < matchTaken →
      minMatch ≤ min (s.matchLen - matchTaken) remaining → window < p → s.offset ≤ window)
    {out : WalkOut}
    (hout : SequenceReplay.walkLoop seqs litTaken matchTaken remaining literals = out) :
    out.2.1 + out.2.2.1 ≤ p + remaining ∧
      Tiles dict src window (p - literals) out.1 (p + remaining - out.2.2.1 - out.2.1) := by
  induction seqs generalizing p start litTaken matchTaken remaining literals out with
  | nil =>
    subst hout
    refine ⟨Nat.add_le_add_right hlits _, ?_⟩
    simp [SequenceReplay.walkLoop, Tiles]
  | cons s rest ih =>
    obtain ⟨hp, hlit, hmatch, hinside⟩ := hcursor
    rw [forall_placed_cons] at hgood
    have hround := @walkLoop_round litTaken matchTaken remaining literals s rest hlit hmatch
    rw [hout] at hround
    cases hround with
    | full h =>
      subst h
      exact ⟨hlits, rfl⟩
    | inLiterals h hshort =>
      dsimp only
      refine ⟨by omega, ?_⟩
      rw [Tiles]
      omega
    | inMatch take n h hend hall hshort =>
      have hpiece : 0 < matchTaken → minMatch ≤ n → window < p + take → s.offset ≤ window := by
        intro hpos hlong hwin
        have := hinside hpos
        exact hcut s rest rfl hpos (by omega) (by omega)
      have htiles := @tiles_piece dict src window (p + take) start matchTaken (literals + take) s
        n (by omega) hgood.1 (by omega) (by omega) hpiece
      rw [Nat.add_sub_add_right, Nat.add_assoc, hall] at htiles
      refine ⟨?_, htiles⟩
      simp only [pieceLiterals]
      split <;> omega
    | through take n h hend hall hdone more stop hrest =>
      have hpiece : 0 < matchTaken → minMatch ≤ n → window < p + take → s.offset ≤ window := by
        intro hpos hlong hwin
        have := hinside hpos
        exact hcut s rest rfl hpos (by omega) (by omega)
      have htiles := @tiles_piece dict src window (p + take) start matchTaken (literals + take) s
        n (by omega) hgood.1 (by omega) (by omega) hpiece
      rw [Nat.add_sub_add_right] at htiles
      have hkeep : pieceLiterals (literals + take) n ≤ p + take + n := by
        rw [pieceLiterals]
        split <;> omega
      have hnext : Cursor (p + take + n) (start + s.len) rest 0 0 := Cursor.next (by omega) hdone
      obtain ⟨hle, hmore⟩ := ih hgood.2 hnext hkeep
        (fun _ _ _ hpos => absurd hpos (Nat.lt_irrefl 0)) hrest
      rw [show p + take + n + (remaining - take - n) = p + remaining by omega] at hle hmore
      exact ⟨hle, htiles.append hmore⟩

/-- What is reported of a block tiles it. -/
theorem walk_tiles {r : SequenceReplay} {len : Nat}
    (hgood : ∀ q s, (q, s) ∈ placed start r.sequences → s.isDelimiter = false →
      SoundMatch dict src window q s.offset s.matchLen)
    (hcursor : Cursor p start r.sequences r.litTaken r.matchTaken)
    (hcut : ∀ s rest, r.sequences = s :: rest → 0 < r.matchTaken →
      minMatch ≤ min (s.matchLen - r.matchTaken) len → window < p → s.offset ≤ window) :
    Tiles dict src window p (r.walk len).1 (p + len) := by
  obtain ⟨hle, htiles⟩ := walkLoop_tiles hgood hcursor (Nat.zero_le p) hcut rfl
  rw [Nat.sub_zero] at htiles
  simp only [SequenceReplay.walk]
  generalize SequenceReplay.walkLoop r.sequences r.litTaken r.matchTaken len 0 = out at *
  obtain ⟨reported, literals, remaining, rest, lit, mat⟩ := out
  dsimp only at *
  apply htiles.append
  by_cases hsome : 0 < literals + remaining
  · rw [if_pos hsome, Tiles, Tiles]
    omega
  · rw [if_neg hsome, Tiles]
    omega

theorem walk_cursor {r : SequenceReplay} (len : Nat)
    (hcursor : Cursor p start r.sequences r.litTaken r.matchTaken) :
    ∃ before, r.sequences = before ++ (r.walk len).2.sequences ∧
      Cursor (p + len) (start + covered before) (r.walk len).2.sequences
        (r.walk len).2.litTaken (r.walk len).2.matchTaken :=
  (walkLoop_cursor hcursor rfl).2

end Walking

/-- The blocks an input is cut into, each a length and whether it is searched, with what is reported
of those that are: start, length and sequences. -/
def replayBlocks : SequenceReplay → Nat → List (Nat × Bool) → List (Nat × Nat × List Sequence)
  | _, _, [] => []
  | r, start, (len, searched) :: blocks =>
    if searched then
      (start, len, (r.walk len).1) :: replayBlocks (r.walk len).2 (start + len) blocks
    else replayBlocks (r.skip len) (start + len) blocks

/-- The searched blocks alone: start and length. -/
def searchedBlocks : Nat → List (Nat × Bool) → List (Nat × Nat)
  | _, [] => []
  | start, (len, searched) :: blocks =>
    if searched then (start, len) :: searchedBlocks (start + len) blocks
    else searchedBlocks (start + len) blocks

/-- A block from `start` on that goes on with a match for at least a match's length finds its offset
within the window, or has the window hold all of the input before it. -/
def CutOk (window : Nat) (parse : List ExternalSequence) (start len : Nat) : Prop :=
  ∀ q s, (q, s) ∈ placed 0 parse → q < start →
    minMatch ≤ min (q + s.matchLen) (start + len) - start → window < start → s.offset ≤ window

section Blocks

variable {dict src : List UInt8} {window : Nat} {parse : List ExternalSequence} {r : SequenceReplay}
  {start : Nat}

theorem placed_append (p : Nat) (xs ys : List ExternalSequence) :
    placed p (xs ++ ys) = placed p xs ++ placed (p + covered xs) ys := by
  induction xs generalizing p with
  | nil => rfl
  | cons x xs ih =>
    rw [List.cons_append, placed, placed, ih, covered_cons, List.cons_append, Nat.add_assoc]

/-- A replay of `parse` that has come to `start`. -/
def StandsAt (parse : List ExternalSequence) (start : Nat) (r : SequenceReplay) : Prop :=
  ∃ before, parse = before ++ r.sequences ∧
    Cursor start (covered before) r.sequences r.litTaken r.matchTaken

theorem StandsAt.new (parse : List ExternalSequence) : StandsAt parse 0 (.new parse) := by
  refine ⟨[], rfl, ?_⟩
  cases parse with
  | nil => exact Nat.le_refl _
  | cons s rest => exact ⟨rfl, Nat.zero_le _, Nat.zero_le _, nofun⟩

theorem StandsAt.walk (h : StandsAt parse start r) (len : Nat) :
    StandsAt parse (start + len) (r.walk len).2 := by
  obtain ⟨before, hparse, hcursor⟩ := h
  obtain ⟨passed, hsplit, hcursor'⟩ := walk_cursor len hcursor
  refine ⟨before ++ passed, ?_, ?_⟩
  · rw [List.append_assoc, ← hsplit, hparse]
  · have hcovered : covered (before ++ passed) = covered before + covered passed := by
      simp [covered]
    rw [hcovered]
    exact hcursor'

/-- The match a replay stands within. -/
theorem StandsAt.within (h : StandsAt parse start r) {q : Nat} {s : ExternalSequence}
    (hm : (q, s) ∈ placed 0 parse) (hq : q < start) (hend : start < q + s.matchLen) :
    ∃ rest, r.sequences = s :: rest ∧ r.litTaken = s.litLen ∧ start = q + r.matchTaken := by
  obtain ⟨before, hparse, hcursor⟩ := h
  rw [hparse, placed_append, Nat.zero_add, List.mem_append] at hm
  have hle : covered before ≤ start := by
    cases hs : r.sequences with
    | nil => simpa [hs, Cursor] using hcursor
    | cons t rest =>
      rw [hs] at hcursor
      have := hcursor.1
      omega
  rcases hm with hm | hm
  · have := (placed_le hm).2
    omega
  · cases hs : r.sequences with
    | nil => simp [hs, placed] at hm
    | cons t rest =>
      rw [hs] at hcursor hm
      obtain ⟨hstart, hlit, hmatch, hinside⟩ := hcursor
      have hlen : t.len = t.litLen + t.matchLen := rfl
      rw [placed, List.mem_cons] at hm
      rcases hm with heq | hm
      · cases heq
        have hin := hinside (by omega)
        exact ⟨rest, rfl, hin, by omega⟩
      · have := (placed_le hm).1
        omega

/-- A block that begins within a match and has enough of it reports that piece first. -/
theorem walk_head {s : ExternalSequence} {rest : List ExternalSequence} {len : Nat}
    (hseqs : r.sequences = s :: rest) (hlit : r.litTaken = s.litLen)
    (hmatch : r.matchTaken ≤ s.matchLen)
    (hlong : minMatch ≤ min (s.matchLen - r.matchTaken) len) :
    ∃ n more, (r.walk len).1 = .triple 0 s.offset n :: more := by
  have hthree : minMatch = 3 := rfl
  have hround := @walkLoop_round r.litTaken r.matchTaken len 0 s rest (by omega) hmatch
  simp only [SequenceReplay.walk, hseqs]
  generalize SequenceReplay.walkLoop (s :: rest) r.litTaken r.matchTaken len 0 = out at hround
  cases hround with
  | full h => omega
  | inLiterals h hshort => omega
  | inMatch take n h hend hall hshort =>
    have htake : take = 0 := by omega
    have hn : minMatch ≤ n := by omega
    exact ⟨n, _, by simp [pieceReported, hn, htake]; rfl⟩
  | through take n h hend hall hdone more stop hrest =>
    have htake : take = 0 := by omega
    have hn : minMatch ≤ n := by omega
    exact ⟨n, _, by simp [pieceReported, hn, htake]; rfl⟩

/-- A block of a sound parse is reported as tiles exactly where its cut is one a match may have. -/
theorem walk_tiles_iff
    (hgood : ∀ q s, (q, s) ∈ placed 0 parse → s.isDelimiter = false →
      SoundMatch dict src window q s.offset s.matchLen)
    (h : StandsAt parse start r) (len : Nat) :
    Tiles dict src window start (r.walk len).1 (start + len) ↔ CutOk window parse start len := by
  constructor
  · intro htiles q s hm hq hlong hwin
    have hthree : minMatch = 3 := rfl
    obtain ⟨rest, hseqs, hlit, hstart⟩ := h.within hm hq (by omega)
    obtain ⟨n, more, hwalk⟩ := @walk_head r s rest len hseqs hlit (by omega) (by omega)
    rw [hwalk] at htiles
    have hmatch : s.isDelimiter = false := by
      cases hd : s.isDelimiter with
      | false => rfl
      | true =>
        have := (isDelimiter_iff.mp hd).2
        omega
    have hreach := htiles.1.reach
    rw [Nat.add_zero, hstart, (hgood q s hm hmatch).reach.later_iff] at hreach
    exact hreach (hstart ▸ hwin)
  · intro hcut
    obtain ⟨before, hparse, hcursor⟩ := h
    have hmem : ∀ q s, (q, s) ∈ placed (covered before) r.sequences → (q, s) ∈ placed 0 parse := by
      intro q s hm
      rw [hparse, placed_append, Nat.zero_add]
      exact List.mem_append_right _ hm
    apply walk_tiles (fun q s hm => hgood q s (hmem q s hm)) hcursor
    intro s rest hseqs hpos hlong hwin
    rw [hseqs] at hcursor hmem
    obtain ⟨hstart, hlit, hmatch, hinside⟩ := hcursor
    have hin := hinside hpos
    exact hcut (covered before + s.litLen) s (hmem _ _ List.mem_cons_self) (by omega) (by omega)
      hwin

theorem replayBlocks_iff
    (hgood : ∀ q s, (q, s) ∈ placed 0 parse → s.isDelimiter = false →
      SoundMatch dict src window q s.offset s.matchLen)
    (h : StandsAt parse start r) (blocks : List (Nat × Bool)) :
    (∀ b ∈ replayBlocks r start blocks, Tiles dict src window b.1 b.2.2 (b.1 + b.2.1)) ↔
      ∀ b ∈ searchedBlocks start blocks, CutOk window parse b.1 b.2 := by
  induction blocks generalizing r start with
  | nil => simp [replayBlocks, searchedBlocks]
  | cons block blocks ih =>
    obtain ⟨len, searched⟩ := block
    have hrest := ih (h.walk len)
    cases searched with
    | true =>
      simp only [replayBlocks, searchedBlocks, if_true, List.forall_mem_cons]
      rw [walk_tiles_iff hgood h, hrest]
    | false =>
      simp only [replayBlocks, searchedBlocks, Bool.false_eq_true, if_false]
      exact hrest

/-- What the two checks accept is a parse of sound matches. -/
theorem soundMatch_of_accepted {maxBlock : Nat} {explicitDelimiters : Bool}
    (hvalid : validateParse src.length window dict.length explicitDelimiters maxBlock parse =
      some (.ok ()))
    (hsame : parseReproduces src dict parse = some (.ok ())) :
    ∀ q s, (q, s) ∈ placed 0 parse → s.isDelimiter = false →
      SoundMatch dict src window q s.offset s.matchLen := by
  rw [validateParse] at hvalid
  obtain ⟨v, hv, hok⟩ := Option.map_eq_some_iff.mp hvalid
  cases v with
  | error e => cases hok
  | ok p =>
    obtain ⟨hp, hlt, hfollow⟩ := followable_of_validateLoop (by decide) hv
    have hmatches := (reproducesLoop_iff (by omega) hfollow).mp hsame
    intro q s hm hd
    have hable := hfollow q s hm hd
    exact ⟨hable.long, hmatches q s hm hd, hable.reach⟩

/-- An accepted parse replayed over any cut of the input into blocks: each searched block is covered
exactly, by matches that are the input's own and that a decoder accepts, exactly where no searched
block takes up, past the window, a match from further back than the window. -/
theorem replay_sound_iff {maxBlock : Nat} {explicitDelimiters : Bool}
    (hvalid : validateParse src.length window dict.length explicitDelimiters maxBlock parse =
      some (.ok ()))
    (hsame : parseReproduces src dict parse = some (.ok ())) (blocks : List (Nat × Bool)) :
    (∀ b ∈ replayBlocks (.new parse) 0 blocks, Tiles dict src window b.1 b.2.2 (b.1 + b.2.1)) ↔
      ∀ b ∈ searchedBlocks 0 blocks, CutOk window parse b.1 b.2 :=
  replayBlocks_iff (soundMatch_of_accepted hvalid hsame) (.new parse) blocks

/-- A replay that stands at the start of a sequence may cut there. -/
theorem StandsAt.cutOk (h : StandsAt parse start r) (hzero : r.matchTaken = 0) (len : Nat) :
    CutOk window parse start len := by
  intro q s hm hq hlong
  have hthree : minMatch = 3 := rfl
  obtain ⟨rest, -, -, hstart⟩ := h.within hm hq (by omega)
  omega

/-- The walk over a region up to its delimiter ends outside of any match. -/
theorem walkLoop_region {seqs : List ExternalSequence} {litTaken matchTaken len total : Nat}
    {literals : Nat} (hlit : ∀ s rest, seqs = s :: rest → litTaken ≤ s.litLen ∧ matchTaken ≤ s.matchLen)
    (htotal : SequenceReplay.regionLen seqs litTaken matchTaken len = some total)
    (hsome : matchTaken = 0 ∨ len < total) {out : WalkOut}
    (hout : SequenceReplay.walkLoop seqs litTaken matchTaken (total - len) literals = out) :
    len ≤ total ∧ out.2.2.2.2.2 = 0 := by
  induction seqs generalizing litTaken matchTaken len literals out with
  | nil => cases htotal
  | cons s rest ih =>
    obtain ⟨hle, hmatch⟩ := hlit s rest rfl
    have hround := @walkLoop_round litTaken matchTaken (total - len) literals s rest hle hmatch
    rw [hout] at hround
    simp only [SequenceReplay.regionLen] at htotal
    split_ifs at htotal with hend
    · -- the delimiter of the region
      have htotal := Option.some.inj htotal
      have hzero := (isDelimiter_iff.mp hend.1).2
      cases hround with
      | full h => exact ⟨by omega, by dsimp only; omega⟩
      | inLiterals h hshort => omega
      | inMatch take n h hlitEnd hall hshort => omega
      | through take n h hlitEnd hall hdone more stop hrest =>
        refine ⟨by omega, ?_⟩
        rw [Nat.sub_sub, show total - len - (take + n) = 0 by omega] at hrest
        cases rest with
        | nil =>
          cases hrest
          rfl
        | cons t more =>
          rw [SequenceReplay.walkLoop, if_pos rfl] at hrest
          cases hrest
          rfl
    · have hfresh : ∀ t more, rest = t :: more → 0 ≤ t.litLen ∧ 0 ≤ t.matchLen :=
        fun _ _ _ => ⟨Nat.zero_le _, Nat.zero_le _⟩
      have hle' := (@ih 0 0 _ (pieceLiterals 0 0) hfresh htotal (.inl rfl) _ rfl).1
      cases hround with
      | full h => exact ⟨by omega, by dsimp only; omega⟩
      | inLiterals h hshort => omega
      | inMatch take n h hlitEnd hall hshort => omega
      | through take n h hlitEnd hall hdone more stop hrest =>
        rw [show total - len - take - n =
          total - (len + (s.litLen - litTaken + (s.matchLen - matchTaken))) by omega] at hrest
        exact ⟨by omega, (ih hfresh htotal (.inl rfl) hrest).2⟩

/-- The blocks a parse with delimiters lays out end outside of its matches, so that each next one
may begin there. -/
theorem cutOk_after_fixedBlockLen {len next : Nat} (h : StandsAt parse start r)
    (hfixed : r.fixedBlockLen = some len) (hlen : 0 < len) :
    CutOk window parse (start + len) next := by
  refine (h.walk len).cutOk ?_ next
  obtain ⟨before, -, hcursor⟩ := h
  rw [SequenceReplay.fixedBlockLen] at hfixed
  split_ifs at hfixed
  refine (walkLoop_region ?_ hfixed (.inr hlen) rfl).2
  intro s rest hseqs
  rw [hseqs] at hcursor
  exact ⟨hcursor.2.1, hcursor.2.2.1⟩

/-- A match out of the dictionary cut twice, within the window. -/
theorem replay_sound_dictionary :
    (replayBlocks (.new [⟨2, 0, 4⟩, ⟨3, 1, 5⟩]) 0 [(3, true), (4, true), (3, true)]).Forall fun b =>
      Tiles [120, 121, 122] [121, 122, 121, 122, 113, 121, 122, 113, 121, 122] 16 b.1 b.2.2
        (b.1 + b.2.1) := by
  apply List.forall_iff_forall_mem.mpr
  refine (@replay_sound_iff [120, 121, 122] [121, 122, 121, 122, 113, 121, 122, 113, 121, 122] 16
    [⟨2, 0, 4⟩, ⟨3, 1, 5⟩] 8 false (by decide +kernel) (by decide +kernel)
    [(3, true), (4, true), (3, true)]).mpr ?_
  simp only [searchedBlocks, if_true, List.forall_mem_cons]
  refine ⟨?_, ?_, ?_, nofun⟩
  all_goals
    intro q s _ _ _ hwin
    omega

/-- A match from the dictionary that is longer than two windows: its third piece is reported with an
offset no decoder accepts there. -/
theorem piece_past_window_is_out_of_reach :
    validateParse 3072 1024 1500 false (2 ^ 17) [⟨1500, 0, 3072⟩] = some (.ok ()) ∧
      parseReproduces (List.replicate 3072 0) (List.replicate 1500 0) [⟨1500, 0, 3072⟩] =
        some (.ok ()) ∧
      replayBlocks (.new [⟨1500, 0, 3072⟩]) 0 [(1024, true), (1024, true), (1024, true)] =
        [(0, 1024, [.triple 0 1500 1024]), (1024, 1024, [.triple 0 1500 1024]),
          (2048, 1024, [.triple 0 1500 1024])] ∧
      ¬Reaches 1024 1500 2048 1500 := by
  decide +kernel

end Blocks

end Encoding.Sequences
