import StructuredZstd.Encoding.BlockLoop

namespace Encoding

open Runs LawfulBlockSource

theorem blockCeiling_pos (l : BlockLimits) : 0 < l.blockCeiling := by
  have htarget := l.target_mem
  have hmax := l.max_mem
  rw [BlockLimits.blockCeiling]
  split
  · next t m ht hm =>
    have h := (htarget t ht).1
    have h' := (hmax m hm).1
    exact Nat.lt_min.mpr ⟨Nat.lt_of_lt_of_le (by decide) h, Nat.lt_of_lt_of_le (by decide) h'⟩
  · next t ht hm => exact Nat.lt_of_lt_of_le (by decide) (htarget t ht).1
  · next m ht hm => exact Nat.lt_of_lt_of_le (by decide) (hmax m hm).1
  · decide

theorem blockCapacity_pos (f : FrameCompressor) (windowSize : Nat) :
    0 < blockCapacity f windowSize := by
  have hceiling := blockCeiling_pos f.limits
  rw [blockCapacity]
  split
  · exact hceiling
  · exact Nat.lt_min.mpr ⟨hceiling, by omega⟩

section Source

variable {S τ : Type} [OwnedBlockSource S] [LawfulBlockSource S]

/-- Holding a fill to what is left changes nothing about what it takes. -/
theorem fillBlock_wanted (s : S) (buf : List UInt8) (hint : Option Nat) {missing : Nat}
    (h : 0 < missing) :
    ∃ s', OwnedBlockSource.fillBlock s buf (buf.length + wantedBytes s missing) hint =
        ⟨s', buf ++ (pending s).take missing, min missing (pending s).length,
          (pending s).length ≤ missing⟩ ∧
      pending s' = (pending s).drop missing := by
  rw [wantedBytes]
  cases hexact : OwnedBlockSource.exactRemaining s with
  | none => exact fillBlock_eq s buf missing hint fun _ => h
  | some n =>
    have hn := exactRemaining_eq s n hexact
    subst hn
    have hwant : pending s ≠ [] → 0 < min missing (pending s).length := by
      intro hne
      exact Nat.lt_min.mpr ⟨h, List.length_pos_iff.mpr hne⟩
    obtain ⟨s', hfill, hpending⟩ := fillBlock_eq s buf (min missing (pending s).length) hint hwant
    have htake : (pending s).take (min missing (pending s).length) = (pending s).take missing :=
      List.take_eq_take_min.symm
    have heof : (pending s).length ≤ min missing (pending s).length ↔
        (pending s).length ≤ missing := by omega
    refine ⟨s', ?_, hpending.trans List.drop_eq_drop_min.symm⟩
    rw [hfill, htake]
    simp [heof]

/-- A round begins with a full block unless the input has ended. -/
theorem topUp_eq (hint : Option Nat) {blockCapacity : Nat} {x : BlockLoop S τ}
    (heof : x.reachedEof = false) (hroom : x.ingest.uncommitted.length < blockCapacity) :
    ∃ s', topUp blockCapacity hint x =
        { x with
          source := s'
          ingest := { x.ingest with
            uncommitted := x.ingest.uncommitted ++
              (pending x.source).take (blockCapacity - x.ingest.uncommitted.length) }
          totalUncompressed := x.totalUncompressed +
            min (blockCapacity - x.ingest.uncommitted.length) (pending x.source).length
          reachedEof := (pending x.source).length ≤
            blockCapacity - x.ingest.uncommitted.length } ∧
      pending s' = (pending x.source).drop (blockCapacity - x.ingest.uncommitted.length) := by
  obtain ⟨s', hfill, hpending⟩ := fillBlock_wanted x.source x.ingest.history
    (sizeHintRemaining hint x.totalUncompressed) (Nat.sub_pos_of_lt hroom)
  refine ⟨s', ?_, hpending⟩
  rw [topUp, if_neg (by simp [heof])]
  simp only [hfill]
  simp only [Ingest.history, List.append_assoc, List.drop_left]

end Source

/-- A cut takes all there is, or leaves a block that is not the last. -/
def Cuts (available : Nat) (reachedEof : Bool) (blockLen : Nat) (last : Bool) : Prop :=
  (0 < available → 0 < blockLen) ∧
    (blockLen = available ∧ last = reachedEof ∨ blockLen < available ∧ last = false)

theorem Cuts.whole (available : Nat) (reachedEof : Bool) :
    Cuts available reachedEof available reachedEof := ⟨id, .inl ⟨rfl, rfl⟩⟩

theorem Cuts.short {available blockLen : Nat} (reachedEof : Bool) (hpos : 0 < blockLen)
    (h : blockLen < available) : Cuts available reachedEof blockLen false :=
  ⟨fun _ => hpos, .inr ⟨h, rfl⟩⟩

theorem nextCut_spec {τ : Type} (f : FrameCompressor) (e : BlockEncoder τ) {blockCapacity : Nat}
    (hpos : 0 < blockCapacity) (m : Ingest τ) (reachedEof : Bool) (savings : Int) :
    ∃ blockLen last rest, nextCut f e blockCapacity m reachedEof savings =
        (blockLen, last, { m with rest := rest }) ∧
      Cuts m.uncommitted.length reachedEof blockLen last := by
  rw [nextCut]
  cases e.fixedBlockLen m with
  | some len =>
    simp only
    split
    · next h => exact ⟨_, _, m.rest, rfl, .short reachedEof h.1 h.2⟩
    · exact ⟨_, _, m.rest, rfl, .whole ..⟩
  | none =>
    simp only
    split
    · next hfull =>
      have hremaining : 0 < if reachedEof then m.uncommitted.length else blockCapacity := by
        split <;> omega
      have hsplit : 0 < optimalBlockSizeWith f.preSplitLevel m.uncommitted
          (if reachedEof then m.uncommitted.length else blockCapacity) blockCapacity savings :=
        optimalBlockSizeWith_pos hremaining hpos
      generalize optimalBlockSizeWith .. = splitAt at hsplit ⊢
      split
      · next hcut =>
        have hsettled := e.settleBlockCut_pos m _ _ hsplit hcut
        split
        · next h => exact ⟨_, _, _, rfl, .short reachedEof hsettled h⟩
        · exact ⟨_, _, _, rfl, .whole ..⟩
      · exact ⟨_, _, m.rest, rfl, .whole ..⟩
    · exact ⟨_, _, m.rest, rfl, .whole ..⟩

section Rounds

variable {S τ : Type} [OwnedBlockSource S] [LawfulBlockSource S] {f : FrameCompressor}
  {e : BlockEncoder τ} {blockCapacity : Nat} {hint : Option Nat} {input : List UInt8}

/-- The blocks so far, and what is held or still to be read, are the input; each was cut from a
longer rest. -/
structure Tiling (input : List UInt8) (blocks : List Block) (rest : List UInt8) : Prop where
  tiles : (blocks.map Block.bytes).flatten ++ rest = input
  inner : ∀ b ∈ blocks, b.last = false ∧ b.bytes ≠ []
  more : blocks ≠ [] → rest ≠ []

/-- The blocks of a finished frame. -/
structure Tiled (input : List UInt8) (blocks : List Block) : Prop where
  tiles : (blocks.map Block.bytes).flatten = input
  last : ∃ before final, blocks = before ++ [final] ∧ final.last = true ∧
    ∀ b ∈ before, b.last = false
  nonempty : input ≠ [] → ∀ b ∈ blocks, b.bytes ≠ []
  empty : input = [] → blocks = [⟨true, []⟩]

namespace Tiling

variable {blocks : List Block} {rest : List UInt8}

theorem start (input : List UInt8) : Tiling input [] input := ⟨rfl, by simp, by simp⟩

/-- A block that is not the last leaves something. -/
theorem push (h : Tiling input blocks rest) {n : Nat} (hpos : 0 < n) (hn : n < rest.length) :
    Tiling input (blocks ++ [⟨false, rest.take n⟩]) (rest.drop n) where
  tiles := by
    rw [← h.tiles]
    simp
  inner b hb := by
    rcases List.mem_append.mp hb with hb | hb
    · exact h.inner b hb
    · cases List.mem_singleton.mp hb
      refine ⟨rfl, ?_⟩
      apply List.ne_nil_of_length_pos
      rw [List.length_take]
      omega
  more _ := by
    apply List.ne_nil_of_length_pos
    rw [List.length_drop]
    omega

/-- The last block takes the rest, which is empty only when the input is. -/
theorem finish (h : Tiling input blocks rest) : Tiled input (blocks ++ [⟨true, rest⟩]) where
  tiles := by
    rw [← h.tiles]
    simp
  last := ⟨blocks, ⟨true, rest⟩, rfl, rfl, fun b hb => (h.inner b hb).1⟩
  nonempty hne b hb := by
    rcases List.mem_append.mp hb with hb | hb
    · exact (h.inner b hb).2
    · cases List.mem_singleton.mp hb
      intro hnil
      have hblocks : blocks = [] := by
        by_contra hb
        exact h.more hb hnil
      apply hne
      rw [← h.tiles, hblocks, show rest = [] from hnil]
      rfl
  empty hempty := by
    have htiles := h.tiles
    rw [hempty] at htiles
    have hrest : rest = [] := (List.append_eq_nil_iff.mp htiles).2
    have hblocks : blocks = [] := by
      by_contra hb
      exact h.more hb hrest
    rw [hblocks, hrest]
    rfl

end Tiling

/-- The same round over the bytes in memory. -/
def view (x : BlockLoop S τ) : BlockLoop SliceBlockSource τ :=
  { x with source := ⟨pending x.source⟩ }

/-- What no block has claimed yet. -/
def unclaimed (x : BlockLoop S τ) : List UInt8 := x.ingest.uncommitted ++ pending x.source

/-- What holds where a round begins. -/
structure Entered (blockCapacity : Nat) (input : List UInt8) (x : BlockLoop S τ) : Prop where
  tiling : Tiling input x.blocks (unclaimed x)
  counted : x.totalUncompressed + (pending x.source).length = input.length
  room : x.reachedEof = false → x.ingest.uncommitted.length < blockCapacity
  ended : x.reachedEof = true → pending x.source = []

/-- What holds where a block is cut. -/
structure Topped (blockCapacity : Nat) (input : List UInt8) (x : BlockLoop S τ) : Prop where
  tiling : Tiling input x.blocks (unclaimed x)
  counted : x.totalUncompressed + (pending x.source).length = input.length
  full : x.reachedEof = false → x.ingest.uncommitted.length = blockCapacity ∧ pending x.source ≠ []
  ended : x.reachedEof = true → pending x.source = []

/-- A fill moves bytes from the source to the input, and loses none. -/
theorem Entered.topUp {x : BlockLoop S τ} (h : Entered blockCapacity input x)
    (hint : Option Nat) :
    Topped blockCapacity input (topUp blockCapacity hint x) ∧
      unclaimed (topUp blockCapacity hint x) = unclaimed x ∧
      topUp blockCapacity hint (view x) = view (topUp blockCapacity hint x) := by
  cases heof : x.reachedEof with
  | true =>
    have hsame : Encoding.topUp blockCapacity hint x = x := by rw [Encoding.topUp, if_pos heof]
    have hview : Encoding.topUp blockCapacity hint (view x) = view x := by
      rw [Encoding.topUp, if_pos (show (view x).reachedEof = true from heof)]
    rw [hsame, hview]
    exact ⟨⟨h.tiling, h.counted, by simp [heof], h.ended⟩, rfl, rfl⟩
  | false =>
    have hroom := h.room heof
    obtain ⟨s', htop, hpending⟩ := topUp_eq hint heof hroom
    obtain ⟨s₁, htop₁, hpending₁⟩ := topUp_eq (x := view x) hint heof hroom
    have hlen := congrArg List.length hpending
    rw [List.length_drop] at hlen
    have hrest : unclaimed (Encoding.topUp blockCapacity hint x) = unclaimed x := by
      rw [htop]
      simp [unclaimed, hpending]
    refine ⟨?_, hrest, ?_⟩
    · have htiling : Tiling input x.blocks (unclaimed (Encoding.topUp blockCapacity hint x)) :=
        hrest ▸ h.tiling
      rw [htop] at htiling ⊢
      refine ⟨htiling, ?_, ?_, ?_⟩
      · have hcounted := h.counted
        simp only [hlen]
        omega
      · intro hmore
        have hlong : blockCapacity - x.ingest.uncommitted.length < (pending x.source).length := by
          simpa using hmore
        constructor
        · rw [List.length_append, List.length_take]
          omega
        · apply List.ne_nil_of_length_pos
          change 0 < (pending s').length
          omega
      · intro hend
        have hshort : (pending x.source).length ≤ blockCapacity - x.ingest.uncommitted.length := by
          simpa using hend
        rw [hpending]
        exact List.drop_eq_nil_of_le hshort
    · rw [htop₁, htop]
      have hs₁ : s₁ = ⟨pending s'⟩ := by
        rw [hpending]
        exact SliceBlockSource.mk.injEq .. ▸ hpending₁
      rw [hs₁]
      rfl

theorem emitBlock_view (x : BlockLoop S τ) :
    emitBlock f e blockCapacity (view x) =
      (emitBlock f e blockCapacity x).map view := by
  match hcut : nextCut f e blockCapacity x.ingest x.reachedEof x.savings with
  | (blockLen, last, m) =>
    simp only [emitBlock, view, hcut]
    by_cases hzero : blockLen = 0
    · simp [hzero, Next.map]
    · cases last <;> simp [hzero, Next.map, view]

/-- A block is cut off the front of what is left, and it is the last when it takes all of it. -/
theorem Topped.emitBlock {x : BlockLoop S τ} (hpos : 0 < blockCapacity)
    (h : Topped blockCapacity input x) :
    (∃ x', emitBlock f e blockCapacity x = .again x' ∧ Entered blockCapacity input x' ∧
      (unclaimed x').length < (unclaimed x).length) ∨
    ∃ r, emitBlock f e blockCapacity x = .done r ∧ Tiled input r.blocks ∧
      r.totalUncompressed = input.length := by
  obtain ⟨blockLen, last, state, hcut, hsome, hwhole⟩ :=
    nextCut_spec f e hpos x.ingest x.reachedEof x.savings
  simp only [Encoding.emitBlock, hcut]
  by_cases hzero : blockLen = 0
  · right
    have hnone : x.ingest.uncommitted = [] := by
      by_contra hne
      have hlt := hsome (List.length_pos_iff.mpr hne)
      omega
    have heof : x.reachedEof = true := by
      by_contra hmore
      have hfull := (h.full (by simpa using hmore)).1
      rw [hnone] at hfull
      simp at hfull
      omega
    refine ⟨_, if_pos hzero, ?_, ?_⟩
    · have hfinish := h.tiling.finish
      rwa [unclaimed, hnone, h.ended heof] at hfinish
    · have hcounted := h.counted
      rw [h.ended heof] at hcounted
      exact hcounted
  rw [if_neg hzero]
  have hcommit := e.uncommitted_compressBlockEncoded { x.ingest with rest := state } last blockLen
    (f.postSplitAllowed && (e.fixedBlockLen x.ingest).isNone)
  cases last with
  | true =>
    right
    obtain ⟨rfl, heof⟩ : blockLen = x.ingest.uncommitted.length ∧ true = x.reachedEof := by
      simpa using hwhole
    refine ⟨_, if_pos rfl, ?_, ?_⟩
    · have hfinish := h.tiling.finish
      rw [unclaimed, h.ended heof.symm, List.append_nil] at hfinish
      simpa using hfinish
    · have hcounted := h.counted
      rw [h.ended heof.symm] at hcounted
      exact hcounted
  | false =>
    left
    have hle : blockLen ≤ x.ingest.uncommitted.length := by
      rcases hwhole with ⟨h, -⟩ | ⟨h, -⟩ <;> omega
    have hmore : blockLen < (unclaimed x).length := by
      rw [unclaimed, List.length_append]
      rcases hwhole with ⟨-, heof⟩ | ⟨h, -⟩
      · have hne := List.length_pos_iff.mpr (h.full heof.symm).2
        omega
      · omega
    have hpush := h.tiling.push (Nat.pos_of_ne_zero hzero) hmore
    rw [unclaimed, List.take_append_of_le_length hle, List.drop_append_of_le_length hle] at hpush
    refine ⟨_, if_neg (by simp), ⟨?_, h.counted, ?_, h.ended⟩, ?_⟩
    · simpa only [unclaimed, hcommit] using hpush
    · intro heof
      have hfull := (h.full heof).1
      simp only [hcommit, List.length_drop]
      omega
    · simp only [unclaimed, hcommit, List.length_append, List.length_drop]
      omega

/-- The round of an uncompressed frame: its blocks are what the fills take. -/
theorem rawBody_eq (f : FrameCompressor) (hint : Option Nat) (x : BlockLoop S τ)
    (hpos : 0 < blockCapacity) :
    ∃ s', pending s' = (pending x.source).drop blockCapacity ∧
      rawBody f blockCapacity hint x =
        let eof : Bool := (pending x.source).length ≤ blockCapacity
        let payload := (pending x.source).take blockCapacity
        let appended := min blockCapacity (pending x.source).length
        let run : BlockRun τ := { x.toBlockRun with
          out := x.out ++ (BlockHeader.mk eof .raw appended).toLeBytes ++ payload
          totalUncompressed := x.totalUncompressed + appended
          hashed := if f.contentChecksum then x.hashed ++ payload else x.hashed
          blocks := x.blocks ++ [⟨eof, payload⟩] }
        if eof then .done run
        else .again { run with source := s', reachedEof := false, savings := x.savings } := by
  have hlen : x.out.length + 3 = (x.out ++ [0, 0, 0]).length := by simp
  obtain ⟨s', hfill, hpending⟩ := LawfulBlockSource.fillBlock_eq x.source (x.out ++ [0, 0, 0])
    blockCapacity (sizeHintRemaining hint x.totalUncompressed) fun _ => hpos
  refine ⟨s', hpending, ?_⟩
  simp only [rawBody, hlen, hfill, List.drop_left]

theorem blockBody_view {x : BlockLoop S τ} (h : Entered blockCapacity input x) :
    blockBody f e blockCapacity hint (view x) =
      (blockBody f e blockCapacity hint x).map view := by
  rw [blockBody, (h.topUp hint).2.2, emitBlock_view]
  rfl

theorem Entered.blockBody (hpos : 0 < blockCapacity) {x : BlockLoop S τ}
    (h : Entered blockCapacity input x) :
    (∃ x', blockBody f e blockCapacity hint x = .again x' ∧ Entered blockCapacity input x' ∧
      (unclaimed x').length < (unclaimed x).length) ∨
    ∃ r, blockBody f e blockCapacity hint x = .done r ∧ Tiled input r.blocks ∧
      r.totalUncompressed = input.length := by
  obtain ⟨htopped, hrest, -⟩ := h.topUp hint
  rw [← hrest]
  exact htopped.emitBlock hpos

/-- What holds where a round of an uncompressed frame begins. -/
structure RawEntered (input : List UInt8) (x : BlockLoop S τ) : Prop where
  tiling : Tiling input x.blocks (pending x.source)
  counted : x.totalUncompressed + (pending x.source).length = input.length

theorem rawBody_view (hpos : 0 < blockCapacity) (x : BlockLoop S τ) :
    rawBody f blockCapacity hint (view x) =
      (rawBody f blockCapacity hint x).map view := by
  obtain ⟨s', hpending, hbody⟩ := rawBody_eq f hint x hpos
  obtain ⟨s₁, hpending₁, hbody₁⟩ := rawBody_eq f hint (view x) hpos
  have hs₁ : s₁ = ⟨pending s'⟩ := by
    rw [hpending]
    exact SliceBlockSource.mk.injEq .. ▸ hpending₁
  have hbytes : pending (view x).source = pending x.source := rfl
  rw [hbody, hbody₁, hbytes, hs₁]
  by_cases heof : (pending x.source).length ≤ blockCapacity
  · simp [heof, view, Next.map]
  · simp [heof, view, Next.map]

theorem RawEntered.rawBody (hpos : 0 < blockCapacity) {x : BlockLoop S τ}
    (h : RawEntered input x) :
    (∃ x', rawBody f blockCapacity hint x = .again x' ∧ RawEntered input x' ∧
      (pending x'.source).length < (pending x.source).length) ∨
    ∃ r, rawBody f blockCapacity hint x = .done r ∧ Tiled input r.blocks ∧
      r.totalUncompressed = input.length := by
  obtain ⟨s', hpending, hbody⟩ := rawBody_eq f hint x hpos
  have hlen := congrArg List.length hpending
  have hcounted := h.counted
  rw [List.length_drop] at hlen
  rw [hbody]
  by_cases heof : (pending x.source).length ≤ blockCapacity
  · right
    refine ⟨_, if_pos (by simpa using heof), ?_, ?_⟩
    · simpa [heof, List.take_of_length_le heof] using h.tiling.finish
    · simp only
      omega
  · left
    have hpush := h.tiling.push hpos (Nat.lt_of_not_le heof)
    refine ⟨_, if_neg (by simpa using heof), ⟨?_, ?_⟩, ?_⟩
    · simpa [heof, hpending] using hpush
    · simp only [hlen]
      omega
    · simp only [hlen]
      omega

end Rounds

section Loop

variable {S τ : Type} [OwnedBlockSource S] [LawfulBlockSource S]

theorem start_entered {blockCapacity : Nat} (hpos : 0 < blockCapacity) (source : S)
    (committed : List UInt8) (state : τ) (out : List UInt8) :
    Entered blockCapacity (pending source)
      (BlockLoop.start source ⟨committed, [], state⟩ out) where
  tiling := .start (pending source)
  counted := Nat.zero_add _
  room _ := hpos
  ended h := nomatch h

theorem start_rawEntered (source : S) (m : Ingest τ) (out : List UInt8) :
    RawEntered (pending source) (BlockLoop.start source m out) :=
  ⟨.start (pending source), Nat.zero_add _⟩

/-- A frame's loop ends, and its blocks are the input. -/
theorem runOwnedBlockLoop_total (f : FrameCompressor) (e : BlockEncoder τ) (source : S)
    (hint : Option Nat) (committed : List UInt8) (state : τ) (out : List UInt8) :
    ∃ run : BlockRun τ, (Tiled (pending source) run.blocks ∧
        run.totalUncompressed = (pending source).length) ∧
      ∀ fuel, (pending source).length < fuel →
        runOwnedBlockLoop fuel f e source hint ⟨committed, [], state⟩ out = some run := by
  have hpos := blockCapacity_pos f (e.windowSize state)
  simp only [runOwnedBlockLoop]
  split
  · exact loop_total (fun x : BlockLoop S τ => (pending x.source).length)
      (fun x hx => RawEntered.rawBody hpos hx) (start_rawEntered source ⟨committed, [], state⟩ out)
  · exact loop_total (fun x : BlockLoop S τ => (unclaimed x).length)
      (fun x hx => Entered.blockBody hpos hx) (start_entered hpos source committed state out)

/-- A source and its bytes in memory make one run. -/
theorem runOwnedBlockLoop_slice (fuel : Nat) (f : FrameCompressor) (e : BlockEncoder τ)
    (source : S) (hint : Option Nat) (committed : List UInt8) (state : τ) (out : List UInt8) :
    runOwnedBlockLoop fuel f e (SliceBlockSource.mk (pending source)) hint ⟨committed, [], state⟩
        out =
      runOwnedBlockLoop fuel f e source hint ⟨committed, [], state⟩ out := by
  have hpos := blockCapacity_pos f (e.windowSize state)
  simp only [runOwnedBlockLoop]
  split
  · apply loop_eq_of (s := BlockLoop.start source ⟨committed, [], state⟩ out) _
      (fun x _ => rawBody_view hpos x) fuel (start_rawEntered source _ out)
    intro x x' hx hb
    rcases RawEntered.rawBody hpos hx with ⟨x₁, hb₁, hx₁, -⟩ | ⟨r, hb₁, -⟩
    · cases hb.symm.trans hb₁
      exact hx₁
    · cases hb.symm.trans hb₁
  · apply loop_eq_of (s := BlockLoop.start source ⟨committed, [], state⟩ out) _
      (fun x hx => blockBody_view hx) fuel (start_entered hpos source committed state out)
    intro x x' hx hb
    rcases Entered.blockBody hpos hx with ⟨x₁, hb₁, hx₁, -⟩ | ⟨r, hb₁, -⟩
    · cases hb.symm.trans hb₁
      exact hx₁
    · cases hb.symm.trans hb₁

end Loop

/-- However a reader chunks its input, the loop over it is the loop over the input in memory: it
ends, it hands on the same blocks to the same effect, and the blocks are the input cut up. -/
theorem block_loop_ignores_chunking {ρ τ : Type} [Read ρ] (f : FrameCompressor)
    (e : BlockEncoder τ) (hint : Option Nat) (reader : ρ) (committed : List UInt8) (state : τ)
    (out : List UInt8) :
    ∃ run : BlockRun τ,
      (∀ fuel, (Read.left reader).length < fuel →
        runOwnedBlockLoop fuel f e (SliceBlockSource.mk (Read.left reader)) hint
            ⟨committed, [], state⟩ out = some run ∧
          runOwnedBlockLoop fuel f e (ReaderBlockSource.new reader) hint
            ⟨committed, [], state⟩ out = some run) ∧
      run.totalUncompressed = (Read.left reader).length ∧
      (run.blocks.map Block.bytes).flatten = Read.left reader ∧
      (∃ before final, run.blocks = before ++ [final] ∧ final.last = true ∧
        ∀ b ∈ before, b.last = false) ∧
      (Read.left reader ≠ [] → ∀ b ∈ run.blocks, b.bytes ≠ []) ∧
      (Read.left reader = [] → run.blocks = [⟨true, []⟩]) := by
  obtain ⟨run, ⟨htiled, htotal⟩, hrun⟩ := runOwnedBlockLoop_total f e
    (ReaderBlockSource.new reader) hint committed state out
  refine ⟨run, ?_, htotal, htiled.tiles, htiled.last, htiled.nonempty, htiled.empty⟩
  intro fuel hfuel
  have hslice := runOwnedBlockLoop_slice fuel f e (ReaderBlockSource.new reader) hint committed
    state out
  have hreader := hrun fuel hfuel
  exact ⟨hslice.trans hreader, hreader⟩

/-- A reader that gives at most so many bytes at each read. -/
structure ShortReader where
  bytes : List UInt8
  sizes : List Nat

def ShortReader.read (r : ShortReader) (n : Nat) : List UInt8 × ShortReader :=
  let size := min n (max 1 (r.sizes.headD n))
  (r.bytes.take size, ⟨r.bytes.drop size, r.sizes.tail⟩)

instance : Read ShortReader where
  read := ShortReader.read
  left := ShortReader.bytes
  length_read r n := by
    simp only [ShortReader.read, List.length_take]
    omega
  read_left r n := List.take_append_drop ..
  read_ne_nil r n hn hne := by
    have hlen := List.length_pos_iff.mpr hne
    apply List.ne_nil_of_length_pos
    simp only [ShortReader.read, List.length_take]
    omega

/-- An encoder that stores its blocks. -/
def storeBlocks (windowSize : Nat) : BlockEncoder Unit where
  windowSize _ := windowSize
  fixedBlockLen _ := none
  settleBlockCut _ window cut := (cutOutsideMatches 0 [] window cut, ())
  compressBlockEncoded m last blockLen _ :=
    let block := m.uncommitted.take blockLen
    (⟨m.committed ++ block, m.uncommitted.drop blockLen, ()⟩,
      (BlockHeader.mk last .raw blockLen).toLeBytes ++ block)
  settleBlockCut_pos _ _ _ hpos h := Nat.lt_of_lt_of_le hpos (le_cutOutsideMatches 0 [] h)
  uncommitted_compressBlockEncoded _ _ _ _ := rfl

example :
    (runOwnedBlockLoop 6 ⟨.fastest, .none, none, false, true, true⟩ (storeBlocks 2)
      (ReaderBlockSource.new (ShortReader.mk [1, 2, 3, 4, 5] [1, 3])) (some 1) ⟨[], [], ()⟩
      []).map BlockRun.blocks = some [⟨false, [1, 2]⟩, ⟨false, [3, 4]⟩, ⟨true, [5]⟩] := by
  decide +kernel

end Encoding
