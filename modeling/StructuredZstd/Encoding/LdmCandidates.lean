import StructuredZstd.Encoding.OptimalSearch

namespace Encoding

def saturatingAdd (a b : Nat) : Nat := min (a + b) usizeMax

structure HcRawSeq where
  litLength : Nat
  offset : Nat
  matchLength : Nat
deriving Repr, DecidableEq

/-- A cursor into the block's raw sequences: the sequence it is in, and how far. -/
structure HcRawSeqStore where
  pos : Nat
  posInSequence : Nat
  size : Nat
deriving Repr, DecidableEq

/-- The window of the match in flight, in positions of the segment. `usizeMax` at both ends is no
match. -/
structure HcOptLdmState where
  seqStore : HcRawSeqStore
  startPosInBlock : Nat
  endPosInBlock : Nat
  offset : Nat
deriving Repr, DecidableEq

/-- What the cursor has before it. -/
def HcRawSeqStore.left (store : HcRawSeqStore) (seqs : List HcRawSeq) : List HcRawSeq :=
  (seqs.take store.size).drop store.pos

def skipSequences : List HcRawSeq → Nat → HcRawSeqStore → Nat × HcRawSeqStore
  | [], currPos, store => (currPos, store)
  | currSeq :: rest, currPos, store =>
    if currPos = 0 then (currPos, store)
    else
      let seqLen := saturatingAdd currSeq.litLength currSeq.matchLength
      if seqLen ≤ currPos then
        skipSequences rest (currPos - seqLen) { store with pos := store.pos + 1 }
      else (currPos, { store with posInSequence := currPos })

def ldmSkipRawSeqStoreBytes (seqs : List HcRawSeq) (store : HcRawSeqStore) (nbBytes : Nat) :
    HcRawSeqStore :=
  let skipped :=
    skipSequences (store.left seqs) (saturatingAdd store.posInSequence nbBytes) store
  if skipped.1 = 0 ∨ skipped.2.pos = skipped.2.size then { skipped.2 with posInSequence := 0 }
  else skipped.2

def ldmGetNextMatchAndUpdateSeqStore (seqs : List HcRawSeq) (optLdm : HcOptLdmState)
    (currPosInBlock blockBytesRemaining : Nat) : HcOptLdmState :=
  match optLdm.seqStore.left seqs with
  | [] => { optLdm with startPosInBlock := usizeMax, endPosInBlock := usizeMax }
  | currSeq :: _ =>
    let currBlockEndPos := saturatingAdd currPosInBlock blockBytesRemaining
    let literalsBytesRemaining := currSeq.litLength - optLdm.seqStore.posInSequence
    let matchBytesRemaining :=
      if literalsBytesRemaining = 0 then
        currSeq.matchLength - (optLdm.seqStore.posInSequence - currSeq.litLength)
      else currSeq.matchLength
    if blockBytesRemaining ≤ literalsBytesRemaining then
      { optLdm with
        startPosInBlock := usizeMax
        endPosInBlock := usizeMax
        seqStore := ldmSkipRawSeqStoreBytes seqs optLdm.seqStore blockBytesRemaining }
    else
      let start := saturatingAdd currPosInBlock literalsBytesRemaining
      let stop := saturatingAdd start matchBytesRemaining
      if currBlockEndPos < stop then
        { seqStore :=
            ldmSkipRawSeqStoreBytes seqs optLdm.seqStore (currBlockEndPos - currPosInBlock)
          startPosInBlock := start
          endPosInBlock := currBlockEndPos
          offset := currSeq.offset }
      else
        { seqStore :=
            ldmSkipRawSeqStoreBytes seqs optLdm.seqStore
              (saturatingAdd literalsBytesRemaining matchBytesRemaining)
          startPosInBlock := start
          endPosInBlock := stop
          offset := currSeq.offset }

def ldmMaybeAddMatch (optLdm : HcOptLdmState) (currPosInBlock minMatch : Nat) :
    Option MatchCandidate :=
  let posDiff := currPosInBlock - optLdm.startPosInBlock
  let candidateMatchLength := optLdm.endPosInBlock - optLdm.startPosInBlock - posDiff
  if currPosInBlock < optLdm.startPosInBlock ∨ optLdm.endPosInBlock ≤ currPosInBlock ∨
      candidateMatchLength < minMatch then none
  else some ⟨currPosInBlock, optLdm.offset, candidateMatchLength⟩

def ldmProcessMatchCandidate (seqs : List HcRawSeq) (optLdm : HcOptLdmState)
    (currPosInBlock remainingBytes minMatch : Nat) : Option MatchCandidate × HcOptLdmState :=
  if optLdm.seqStore.size = 0 ∨ optLdm.seqStore.size ≤ optLdm.seqStore.pos then (none, optLdm)
  else
    let optLdm :=
      if optLdm.endPosInBlock ≤ currPosInBlock then
        let optLdm :=
          if optLdm.endPosInBlock < currPosInBlock then
            { optLdm with
              seqStore := ldmSkipRawSeqStoreBytes seqs optLdm.seqStore
                (currPosInBlock - optLdm.endPosInBlock) }
          else optLdm
        ldmGetNextMatchAndUpdateSeqStore seqs optLdm currPosInBlock remainingBytes
      else optLdm
    (ldmMaybeAddMatch optLdm currPosInBlock minMatch, optLdm)

/-- How the plan of a segment starts: the cursor at the block's first sequence, then past the bytes
of the segments before. -/
def seedLdm (seqs : List HcRawSeq) (blockOffset currentLen : Nat) : HcOptLdmState :=
  let optLdm : HcOptLdmState := ⟨⟨0, 0, seqs.length⟩, usizeMax, usizeMax, 0⟩
  let optLdm :=
    if 0 < blockOffset then
      { optLdm with seqStore := ldmSkipRawSeqStoreBytes seqs optLdm.seqStore blockOffset }
    else optLdm
  ldmGetNextMatchAndUpdateSeqStore seqs optLdm 0 currentLen

/-- The candidates the positions of a segment are given, the parser asking at them in turn. -/
def candidatesAt (seqs : List HcRawSeq) (currentLen minMatch : Nat) :
    HcOptLdmState → List Nat → List MatchCandidate
  | _, [] => []
  | optLdm, pos :: rest =>
    let processed := ldmProcessMatchCandidate seqs optLdm pos (currentLen - pos) minMatch
    processed.1.toList ++ candidatesAt seqs currentLen minMatch processed.2 rest

/-- A segment of a block: where it starts in the block, and where in it the parser asks. -/
structure LdmSegment where
  blockOffset : Nat
  positions : List Nat
deriving Repr, DecidableEq

/-- What the segments of a block are given, each candidate with the start of its segment. -/
def blockCandidates (seqs : List HcRawSeq) (blockLen minMatch : Nat) (segments : List LdmSegment) :
    List (Nat × MatchCandidate) :=
  segments.flatMap fun seg =>
    let currentLen := blockLen - seg.blockOffset
    (candidatesAt seqs currentLen minMatch (seedLdm seqs seg.blockOffset currentLen)
      seg.positions).map (Prod.mk seg.blockOffset)

def HcRawSeq.len (seq : HcRawSeq) : Nat := seq.litLength + seq.matchLength

def seqStart (seqs : List HcRawSeq) (k : Nat) : Nat := ((seqs.take k).map HcRawSeq.len).sum

/-- The byte at `x` of the block is one the match of sequence `k` copies. -/
def MatchByte (seqs : List HcRawSeq) (k x : Nat) : Prop :=
  ∃ seq, seqs[k]? = some seq ∧ seqStart seqs k + seq.litLength ≤ x ∧ x < seqStart seqs k + seq.len

/-- The byte at `x` of the block is a literal of sequence `k`. -/
def LiteralByte (seqs : List HcRawSeq) (k x : Nat) : Prop :=
  ∃ seq, seqs[k]? = some seq ∧ seqStart seqs k ≤ x ∧ x < seqStart seqs k + seq.litLength

section

variable {seqs : List HcRawSeq}

theorem seqStart_succ {k : Nat} {seq : HcRawSeq} (h : seqs[k]? = some seq) :
    seqStart seqs (k + 1) = seqStart seqs k + seq.len := by
  simp [seqStart, List.take_add_one, h]

theorem seqStart_mono {j k : Nat} (h : j ≤ k) : seqStart seqs j ≤ seqStart seqs k := by
  induction k, h using Nat.le_induction with
  | base => exact le_rfl
  | succ k _ ih =>
    apply ih.trans
    simp [seqStart, List.take_add_one]

theorem seqStart_add_len_le {j k : Nat} {seq : HcRawSeq} (h : seqs[j]? = some seq) (hlt : j < k) :
    seqStart seqs j + seq.len ≤ seqStart seqs k :=
  (seqStart_succ h).symm.le.trans (seqStart_mono hlt)

/-- No byte is both. -/
theorem MatchByte.not_literal {j k x : Nat} (h : MatchByte seqs k x) : ¬LiteralByte seqs j x := by
  obtain ⟨seq, hseq, hlo, hhi⟩ := h
  rintro ⟨lit, hlit, hfrom, hto⟩
  have hlen : lit.litLength ≤ lit.len := Nat.le_add_right _ _
  rcases Nat.lt_trichotomy j k with hjk | rfl | hkj
  · have := seqStart_add_len_le hlit hjk
    omega
  · obtain rfl : seq = lit := Option.some.inj (hseq.symm.trans hlit)
    omega
  · have := seqStart_add_len_le hseq hkj
    omega

/-- The cursor is at byte `x` of the block. A cursor past the last sequence is anywhere. -/
structure HcRawSeqStore.At (seqs : List HcRawSeq) (store : HcRawSeqStore) (x : Nat) : Prop where
  size : store.size = seqs.length
  there : ∀ seq, seqs[store.pos]? = some seq →
    seqStart seqs store.pos + store.posInSequence = x ∧ store.posInSequence ≤ seq.len

theorem HcRawSeqStore.left_of_size {store : HcRawSeqStore} (h : store.size = seqs.length) :
    store.left seqs = seqs.drop store.pos := by
  simp [HcRawSeqStore.left, h]

theorem HcRawSeqStore.At.first (seqs : List HcRawSeq) :
    HcRawSeqStore.At seqs ⟨0, 0, seqs.length⟩ 0 where
  size := rfl
  there := by simp [seqStart]

/-- The skip loop keeps the byte it looks for, and stops in a sequence that has it. -/
theorem skipSequences_spec (rest : List HcRawSeq) (currPos : Nat) (store : HcRawSeqStore)
    (hrest : seqs.drop store.pos = rest) (hcurr : currPos < usizeMax) :
    let skipped := skipSequences rest currPos store
    skipped.2.size = store.size ∧
    seqStart seqs skipped.2.pos + skipped.1 = seqStart seqs store.pos + currPos ∧
    (skipped.1 = 0 ∨ seqs.length ≤ skipped.2.pos ∨
      skipped.2.posInSequence = skipped.1 ∧
      ∀ seq, seqs[skipped.2.pos]? = some seq → skipped.1 < seq.len) := by
  induction rest generalizing currPos store with
  | nil =>
    refine ⟨rfl, rfl, .inr (.inl ?_)⟩
    exact List.drop_eq_nil_iff.mp hrest
  | cons currSeq rest ih =>
    have hseq : seqs[store.pos]? = some currSeq := by
      rw [← List.head?_drop, hrest]
      rfl
    simp only [skipSequences]
    by_cases hzero : currPos = 0
    · rw [if_pos hzero]
      exact ⟨rfl, rfl, .inl hzero⟩
    · rw [if_neg hzero]
      by_cases hle : saturatingAdd currSeq.litLength currSeq.matchLength ≤ currPos
      · rw [if_pos hle]
        have hlen : saturatingAdd currSeq.litLength currSeq.matchLength = currSeq.len := by
          simp only [saturatingAdd, HcRawSeq.len] at hle ⊢
          omega
        rw [hlen] at hle ⊢
        obtain ⟨hsize, hbyte, hstop⟩ :=
          ih (currPos - currSeq.len) { store with pos := store.pos + 1 }
            (by rw [← List.tail_drop, hrest, List.tail_cons])
            (Nat.lt_of_le_of_lt (Nat.sub_le _ _) hcurr)
        refine ⟨hsize, ?_, hstop⟩
        rw [hbyte, seqStart_succ hseq]
        omega
      · rw [if_neg hle]
        refine ⟨rfl, rfl, .inr (.inr ⟨rfl, ?_⟩)⟩
        intro seq hs
        obtain rfl : currSeq = seq := Option.some.inj (hseq.symm.trans hs)
        simp only [saturatingAdd, HcRawSeq.len] at hle ⊢
        omega

/-- Skipping moves the cursor by as many bytes. -/
theorem HcRawSeqStore.At.skip {store : HcRawSeqStore} {x nbBytes : Nat} (h : store.At seqs x)
    (hroom : x + nbBytes < usizeMax) :
    (ldmSkipRawSeqStoreBytes seqs store nbBytes).At seqs (x + nbBytes) := by
  cases hseq : seqs[store.pos]? with
  | none =>
    -- Past the last sequence there is nothing to skip.
    have hnil : seqs.drop store.pos = [] :=
      List.drop_eq_nil_of_le (List.getElem?_eq_none_iff.mp hseq)
    unfold ldmSkipRawSeqStoreBytes
    rw [HcRawSeqStore.left_of_size h.size, hnil]
    generalize hskipped : skipSequences [] (saturatingAdd store.posInSequence nbBytes) store = skipped
    have hstore : skipped.2 = store := by
      rw [← hskipped]
      rfl
    dsimp only
    rw [hstore]
    by_cases hreset : skipped.1 = 0 ∨ store.pos = store.size
    · rw [if_pos hreset]
      exact ⟨h.size, by simp [hseq]⟩
    · rw [if_neg hreset]
      exact ⟨h.size, by simp [hseq]⟩
  | some seq =>
    have hx := (h.there seq hseq).1
    have hsat : saturatingAdd store.posInSequence nbBytes = store.posInSequence + nbBytes := by
      simp only [saturatingAdd]
      omega
    have hspec := skipSequences_spec (seqs.drop store.pos) (store.posInSequence + nbBytes) store
      rfl (by omega)
    unfold ldmSkipRawSeqStoreBytes
    rw [HcRawSeqStore.left_of_size h.size, hsat]
    generalize skipSequences (seqs.drop store.pos) (store.posInSequence + nbBytes) store = skipped
      at hspec
    obtain ⟨hsize, hbyte, hstop⟩ := hspec
    dsimp only
    by_cases hreset : skipped.1 = 0 ∨ skipped.2.pos = skipped.2.size
    · rw [if_pos hreset]
      refine ⟨hsize.trans h.size, ?_⟩
      intro seq' hseq'
      dsimp only at hseq'
      have hlt := (List.getElem?_eq_some_iff.mp hseq').1
      have hzero : skipped.1 = 0 := by
        rcases hreset with hzero | hend
        · exact hzero
        · rw [hsize, h.size] at hend
          omega
      exact ⟨by simp only; omega, Nat.zero_le _⟩
    · rw [if_neg hreset]
      refine ⟨hsize.trans h.size, ?_⟩
      intro seq' hseq'
      have hlt := (List.getElem?_eq_some_iff.mp hseq').1
      rcases hstop with hzero | hend | ⟨hpos, hin⟩
      · exact absurd (.inl hzero) hreset
      · omega
      · have := hin seq' hseq'
        exact ⟨by omega, by omega⟩

/-- What the state of a segment knows of the block: its window is what is left of the match of one
sequence, cut off at the end of the segment, and the cursor stands where the window ends. -/
structure HcOptLdmState.Placed (seqs : List HcRawSeq) (blockOffset currentLen : Nat)
    (optLdm : HcOptLdmState) : Prop where
  size : optLdm.seqStore.size = seqs.length
  cursor : optLdm.endPosInBlock < usizeMax →
    optLdm.seqStore.At seqs (blockOffset + optLdm.endPosInBlock)
  window : optLdm.startPosInBlock < usizeMax → ∃ k seq, seqs[k]? = some seq ∧
    optLdm.offset = seq.offset ∧
    seqStart seqs k + seq.litLength ≤ blockOffset + optLdm.startPosInBlock ∧
    blockOffset + optLdm.endPosInBlock =
      min (seqStart seqs k + seq.len) (blockOffset + currentLen)

variable {blockOffset currentLen : Nat}

theorem HcOptLdmState.Placed.none {optLdm : HcOptLdmState}
    (hsize : optLdm.seqStore.size = seqs.length) (hstart : optLdm.startPosInBlock = usizeMax)
    (hend : optLdm.endPosInBlock = usizeMax) : optLdm.Placed seqs blockOffset currentLen where
  size := hsize
  cursor h := absurd hend h.ne
  window h := absurd hstart h.ne

/-- A window opened where the cursor stands. -/
theorem getNextMatch_placed {optLdm : HcOptLdmState} {pos : Nat}
    (hat : optLdm.seqStore.At seqs (blockOffset + pos)) (hpos : pos ≤ currentLen)
    (hmem : blockOffset + currentLen < usizeMax) :
    (ldmGetNextMatchAndUpdateSeqStore seqs optLdm pos (currentLen - pos)).Placed
      seqs blockOffset currentLen := by
  have hskip : ∀ n, pos + n ≤ currentLen →
      (ldmSkipRawSeqStoreBytes seqs optLdm.seqStore n).At seqs (blockOffset + (pos + n)) := by
    intro n hn
    rw [← Nat.add_assoc]
    exact hat.skip (by omega)
  have hleft := HcRawSeqStore.left_of_size hat.size
  unfold ldmGetNextMatchAndUpdateSeqStore
  cases hseqs : optLdm.seqStore.left seqs with
  | nil => exact .none hat.size rfl rfl
  | cons currSeq rest =>
    have hseq : seqs[optLdm.seqStore.pos]? = some currSeq := by
      rw [← List.head?_drop, ← hleft, hseqs]
      rfl
    obtain ⟨hthere, hinside⟩ := hat.there currSeq hseq
    have hblockEnd : saturatingAdd pos (currentLen - pos) = currentLen := by
      simp only [saturatingAdd]
      omega
    simp only [hblockEnd]
    generalize hlits : currSeq.litLength - optLdm.seqStore.posInSequence = literals
    -- The window is what the cursor has left of the sequence.
    generalize hmatch : (if literals = 0 then
      currSeq.matchLength - (optLdm.seqStore.posInSequence - currSeq.litLength)
      else currSeq.matchLength) = matchBytes
    have hrest : blockOffset + pos + literals + matchBytes =
        seqStart seqs optLdm.seqStore.pos + currSeq.len := by
      simp only [HcRawSeq.len] at hinside ⊢
      split at hmatch <;> omega
    by_cases hlit : currentLen - pos ≤ literals
    · rw [if_pos hlit]
      exact .none (hskip _ (by omega)).size rfl rfl
    · rw [if_neg hlit]
      have hstart : saturatingAdd pos literals = pos + literals := by
        simp only [saturatingAdd]
        omega
      have hsat : saturatingAdd (pos + literals) matchBytes =
          min (pos + literals + matchBytes) usizeMax := rfl
      rw [hstart, hsat]
      by_cases hcut : currentLen < min (pos + literals + matchBytes) usizeMax
      · rw [if_pos hcut]
        have hat' := hskip (currentLen - pos) (by omega)
        rw [Nat.add_sub_cancel' hpos] at hat'
        exact ⟨hat'.size, fun _ => hat', fun _ =>
          ⟨_, currSeq, hseq, rfl, by simp only; omega, by simp only; omega⟩⟩
      · rw [if_neg hcut]
        have hsum : saturatingAdd literals matchBytes = literals + matchBytes := by
          simp only [saturatingAdd]
          omega
        have hend : min (pos + literals + matchBytes) usizeMax =
            pos + (literals + matchBytes) := by omega
        rw [hsum, hend]
        have hat' := hskip (literals + matchBytes) (by omega)
        exact ⟨hat'.size, fun _ => hat', fun _ =>
          ⟨_, currSeq, hseq, rfl, by simp only; omega, by simp only; omega⟩⟩

theorem seedLdm_placed (hmem : blockOffset + currentLen < usizeMax) :
    (seedLdm seqs blockOffset currentLen).Placed seqs blockOffset currentLen := by
  have hfirst := HcRawSeqStore.At.first seqs
  unfold seedLdm
  by_cases hoffset : 0 < blockOffset
  · have hat := hfirst.skip (show 0 + blockOffset < usizeMax by omega)
    rw [Nat.zero_add, ← Nat.add_zero blockOffset] at hat
    simp only [if_pos hoffset]
    exact getNextMatch_placed hat (Nat.zero_le _) hmem
  · obtain rfl : blockOffset = 0 := Nat.eq_zero_of_not_pos hoffset
    simp only [if_neg hoffset]
    exact getNextMatch_placed hfirst (Nat.zero_le _) hmem

/-- What is left of a match at a position of a segment: the bytes from there to the end of the
match or of the block are its own. -/
structure RestOfMatch (seqs : List HcRawSeq) (blockOffset currentLen : Nat) (c : MatchCandidate)
    (k : Nat) : Prop where
  offset : seqs[k]?.map HcRawSeq.offset = some c.offset
  first : MatchByte seqs k (blockOffset + c.start)
  stop : blockOffset + c.start + c.matchLen =
    min (seqStart seqs (k + 1)) (blockOffset + currentLen)

theorem maybeAddMatch_spec {optLdm : HcOptLdmState} (h : optLdm.Placed seqs blockOffset currentLen)
    {pos minMatch : Nat} (hpos : pos < usizeMax) {c : MatchCandidate}
    (hc : ldmMaybeAddMatch optLdm pos minMatch = some c) :
    c.start = pos ∧ minMatch ≤ c.matchLen ∧ ∃ k, RestOfMatch seqs blockOffset currentLen c k := by
  unfold ldmMaybeAddMatch at hc
  dsimp only at hc
  split at hc
  · cases hc
  · rename_i hin
    cases hc
    simp only [not_or, Nat.not_lt, Nat.not_le] at hin
    obtain ⟨hstart, hstop, hlen⟩ := hin
    obtain ⟨k, seq, hseq, hoffset, hlo, hhi⟩ := h.window (Nat.lt_of_le_of_lt hstart hpos)
    refine ⟨rfl, hlen, k, ⟨by simp [hseq, hoffset], ⟨seq, hseq, ?_, ?_⟩, ?_⟩⟩
    · simp only
      omega
    · simp only
      omega
    · rw [seqStart_succ hseq]
      simp only
      omega

/-- Asking at a position keeps the state placed. -/
theorem processMatchCandidate_placed {optLdm : HcOptLdmState}
    (h : optLdm.Placed seqs blockOffset currentLen) {pos : Nat} (minMatch : Nat)
    (hpos : pos < currentLen) (hmem : blockOffset + currentLen < usizeMax) :
    (ldmProcessMatchCandidate seqs optLdm pos (currentLen - pos) minMatch).2.Placed
      seqs blockOffset currentLen := by
  unfold ldmProcessMatchCandidate
  split
  · exact h
  · dsimp only
    by_cases hpast : optLdm.endPosInBlock ≤ pos
    · have hat := h.cursor (by omega)
      rw [if_pos hpast]
      by_cases hover : optLdm.endPosInBlock < pos
      · have hskip := hat.skip (show blockOffset + optLdm.endPosInBlock +
          (pos - optLdm.endPosInBlock) < usizeMax by omega)
        rw [Nat.add_assoc, Nat.add_sub_cancel' hpast] at hskip
        rw [if_pos hover]
        exact getNextMatch_placed hskip hpos.le hmem
      · obtain rfl : optLdm.endPosInBlock = pos := by omega
        rw [if_neg hover]
        exact getNextMatch_placed hat hpos.le hmem
    · rw [if_neg hpast]
      exact h

theorem processMatchCandidate_some {optLdm : HcOptLdmState} {pos remainingBytes minMatch : Nat}
    {c : MatchCandidate}
    (hc : (ldmProcessMatchCandidate seqs optLdm pos remainingBytes minMatch).1 = some c) :
    ldmMaybeAddMatch (ldmProcessMatchCandidate seqs optLdm pos remainingBytes minMatch).2 pos
      minMatch = some c := by
  unfold ldmProcessMatchCandidate at hc ⊢
  split at hc
  · cases hc
  · rename_i hleft
    rw [if_neg hleft]
    exact hc

theorem candidatesAt_spec {optLdm : HcOptLdmState} (minMatch : Nat)
    (hmem : blockOffset + currentLen < usizeMax) (positions : List Nat)
    (hpositions : ∀ pos ∈ positions, pos < currentLen)
    (h : optLdm.Placed seqs blockOffset currentLen) :
    ∀ c ∈ candidatesAt seqs currentLen minMatch optLdm positions,
      c.start ∈ positions ∧ minMatch ≤ c.matchLen ∧
      ∃ k, RestOfMatch seqs blockOffset currentLen c k := by
  induction positions generalizing optLdm with
  | nil => simp [candidatesAt]
  | cons pos rest ih =>
    intro c hc
    have hpos := hpositions pos List.mem_cons_self
    have hplaced := processMatchCandidate_placed h minMatch hpos hmem
    rw [candidatesAt, List.mem_append, Option.mem_toList] at hc
    rcases hc with hhere | hlater
    · obtain ⟨hstart, hc⟩ := maybeAddMatch_spec hplaced (by omega) (processMatchCandidate_some hhere)
      exact ⟨hstart ▸ List.mem_cons_self, hc⟩
    · obtain ⟨hmem', hc⟩ :=
        ih (fun p hp => hpositions p (List.mem_cons_of_mem pos hp)) hplaced c hlater
      exact ⟨List.mem_cons_of_mem pos hmem', hc⟩

/-- All that the rest of a match covers are bytes of the match. -/
theorem RestOfMatch.covers {c : MatchCandidate} {k : Nat}
    (h : RestOfMatch seqs blockOffset currentLen c k) {x : Nat} (hlo : blockOffset + c.start ≤ x)
    (hhi : x < blockOffset + c.start + c.matchLen) : MatchByte seqs k x := by
  obtain ⟨seq, hseq, hfirst, _⟩ := h.first
  have hstop := h.stop
  rw [seqStart_succ hseq] at hstop
  exact ⟨seq, hseq, by omega, by omega⟩

/-- However a block is cut into segments and wherever in them the parser asks, a long-distance
candidate lies in the match of one raw sequence, at its offset and as long as what is left of it;
none of the bytes it covers is a literal. -/
theorem long_distance_candidates_in_matches (seqs : List HcRawSeq) (blockLen minMatch : Nat)
    (segments : List LdmSegment) (hmem : blockLen < usizeMax)
    (hsegments : ∀ seg ∈ segments, ∀ pos ∈ seg.positions, seg.blockOffset + pos < blockLen) :
    ∀ found ∈ blockCandidates seqs blockLen minMatch segments,
      (∃ seg ∈ segments, found.1 = seg.blockOffset ∧ found.2.start ∈ seg.positions) ∧
      minMatch ≤ found.2.matchLen ∧ 0 < found.2.matchLen ∧
      ∃ k seq, seqs[k]? = some seq ∧ found.2.offset = seq.offset ∧
        MatchByte seqs k (found.1 + found.2.start) ∧
        found.1 + found.2.start + found.2.matchLen =
          min (seqStart seqs k + seq.litLength + seq.matchLength) blockLen ∧
        ∀ x, found.1 + found.2.start ≤ x → x < found.1 + found.2.start + found.2.matchLen →
          MatchByte seqs k x ∧ ∀ j, ¬LiteralByte seqs j x := by
  rintro ⟨offset, c⟩ hfound
  obtain ⟨seg, hseg, hc⟩ := List.mem_flatMap.mp hfound
  obtain ⟨c', hc', heq⟩ := List.mem_map.mp hc
  cases heq
  have hpositions : ∀ pos ∈ seg.positions, pos < blockLen - seg.blockOffset := by
    intro pos hpos
    have := hsegments seg hseg pos hpos
    omega
  have hend : seg.blockOffset + (blockLen - seg.blockOffset) = blockLen := by
    cases hnil : seg.positions with
    | nil =>
      rw [hnil, candidatesAt] at hc'
      cases hc'
    | cons pos rest =>
      have := hsegments seg hseg pos (hnil ▸ List.mem_cons_self)
      omega
  obtain ⟨hstart, hmin, k, hk⟩ := candidatesAt_spec minMatch (by omega) seg.positions hpositions
    (seedLdm_placed (by omega)) c hc'
  have hpos := hsegments seg hseg _ hstart
  obtain ⟨seq, hseq, hlo, hhi⟩ := hk.first
  have hoffset := hk.offset
  have hstop := hk.stop
  rw [hseq, Option.map_some, Option.some.injEq] at hoffset
  rw [seqStart_succ hseq, hend] at hstop
  refine ⟨⟨seg, hseg, rfl, hstart⟩, hmin, by dsimp only; omega, k, seq, hseq, hoffset.symm,
    hk.first, ?_, ?_⟩
  · rw [Nat.add_assoc _ seq.litLength]
    exact hstop
  · intro x hlo hhi
    have hx := hk.covers hlo hhi
    exact ⟨hx, fun j => hx.not_literal⟩

/-- Four sequences over a block of 24 bytes, asked at in two segments: the second starts inside the
first match, and the last match runs past the block. -/
theorem long_distance_candidates_in_matches_cut :
    blockCandidates [⟨2, 17, 5⟩, ⟨3, 9, 6⟩, ⟨1, 4, 9⟩, ⟨5, 3, 3⟩] 24 3
      [⟨0, [0, 2, 4, 12]⟩, ⟨5, [0, 6, 13]⟩] =
      [(0, ⟨2, 17, 5⟩), (0, ⟨4, 17, 3⟩), (0, ⟨12, 9, 4⟩), (5, ⟨6, 9, 5⟩), (5, ⟨13, 4, 6⟩)] ∧
    ∀ found ∈ blockCandidates [⟨2, 17, 5⟩, ⟨3, 9, 6⟩, ⟨1, 4, 9⟩, ⟨5, 3, 3⟩] 24 3
      [⟨0, [0, 2, 4, 12]⟩, ⟨5, [0, 6, 13]⟩], 3 ≤ found.2.matchLen :=
  ⟨by decide, fun found hfound => (long_distance_candidates_in_matches
    [⟨2, 17, 5⟩, ⟨3, 9, 6⟩, ⟨1, 4, 9⟩, ⟨5, 3, 3⟩] 24 3 [⟨0, [0, 2, 4, 12]⟩, ⟨5, [0, 6, 13]⟩]
    (by decide) (by decide) found hfound).2.1⟩

end

end Encoding
