import StructuredZstd.Decoding.BlockAppends

namespace Decoding

open BufferBackend LawfulBackend

variable {B : Type} [BufferBackend B]

namespace DecodeBuffer

/-- What a frame has to show for its blocks so far. -/
structure SameOutput (d d' : DecodeBuffer B) : Prop where
  content : d'.content = d.content
  totalOutputCounter : d'.totalOutputCounter = d.totalOutputCounter
  delivered : d'.delivered = d.delivered

theorem SameOutput.refl (d : DecodeBuffer B) : d.SameOutput d := ⟨rfl, rfl, rfl⟩

theorem SameOutput.trans {a b c : DecodeBuffer B} (hab : a.SameOutput b) (hbc : b.SameOutput c) :
    a.SameOutput c :=
  ⟨hbc.content.trans hab.content, hbc.totalOutputCounter.trans hab.totalOutputCounter,
    hbc.delivered.trans hab.delivered⟩

/-- The buffer the sequences of a block start on. -/
def blockStart (d : DecodeBuffer B) : DecodeBuffer B :=
  (d.reserveForBlock d.blockMaximum).setBlockOutputCeiling d.blockMaximum

end DecodeBuffer

/-- The loop of either path. -/
def sequenceLoop (useLongPipeline : Bool) (setup : SeqStreamSetup) (inp : ExecInput)
    (buffer : DecodeBuffer B) (hist : OffsetHist) : LoopEnd B :=
  if useLongPipeline then
    decodeLongSequences inp setup.tables setup.maxUpdateBits setup.numSequences setup.states
      setup.br hist ⟨buffer, 0⟩
  else
    shortLoop inp setup.tables setup.numSequences setup.states setup.br.refillSequence hist
      ⟨buffer, 0⟩

theorem runSequences_eq (useLong : Bool) (setup : SeqStreamSetup) (inp : ExecInput)
    (d : DecodeBuffer B) (hist : OffsetHist) :
    runSequences useLong setup inp d hist =
      match (sequenceLoop useLong setup inp d hist).result with
      | .error e => (.error e,
          ((sequenceLoop useLong setup inp d hist).exec.buffer.tryRestoreCheckpoint
            d.checkpoint).2, hist)
      | .ok (hist', br) => finishSequences inp d.checkpoint hist hist' br
          (sequenceLoop useLong setup inp d hist).exec := by
  cases useLong with
  | true => rfl
  | false => rfl

/-- The sequences of a block, once both its sections have been read. -/
structure SequenceRun (B : Type) where
  setup : SeqStreamSetup
  inp : ExecInput
  start : DecodeBuffer B
  hist : OffsetHist

namespace SequenceRun

/-- Where the loop over them ends. -/
def loop (run : SequenceRun B) : LoopEnd B :=
  sequenceLoop run.setup.useLongPipeline run.setup run.inp run.start run.hist

/-- The literals no sequence took. -/
def rest (run : SequenceRun B) : List UInt8 :=
  (run.inp.literals.drop run.loop.exec.litCur).take (run.inp.litLen - run.loop.exec.litCur)

/-- The storage was reallocated while they executed. -/
def Reallocated (run : SequenceRun B) : Prop :=
  cap run.loop.exec.buffer.buffer ≠ cap run.start.buffer

/-- They all executed, on a bit stream they used up. -/
def Executed (run : SequenceRun B) (hist : OffsetHist) : Prop :=
  ∃ br, run.loop.result = .ok (hist, br) ∧ br.bitsRemaining = 0

end SequenceRun

/-- The sequences a payload comes to, if it comes to any. -/
def sequencesOf (w : Workspace B) (dict : Option Dictionary) (raw : List UInt8) :
    Option (SequenceRun B) :=
  match parseSections w.buffer.blockMaximum raw with
  | .error _ => none
  | .ok sections =>
    match decodeLiteralsZerocopy sections.literals w.huf dict sections.literalsSource
        sections.literals.payloadLen with
    | (.error _, _) => none
    | (.ok (literals, _), _) =>
      if sections.sequences.numSequences = 0 then none
      else match initSequenceStream sections.sequences sections.sequencesSource w.fse
          w.buffer.blockStart dict with
        | (.error _, _) => none
        | (.ok setup, _) => some {
            setup := setup
            inp := ⟨dictContent dict, literals, literals.length⟩
            start := w.buffer.blockStart
            hist := w.offsetHist }

/-- What may be left of a block that fails once its sequences are under way. -/
inductive SequenceRun.Leaves (run : SequenceRun B) (d : DecodeBuffer B) (hist : OffsetHist) : Prop
  /-- The rollback is skipped. The history moves on only past sequences that all executed. -/
  | reallocated (moved : run.Reallocated) (kept : d = run.loop.exec.buffer)
      (history : hist = run.hist ∨ ∃ br, run.loop.result = .ok (hist, br))
  /-- The literals that are left over do not fit. -/
  | tailOverflow {o : BackendOverflow} (executed : run.Executed hist)
      (kept : d = run.loop.exec.buffer) (refused : tryExtend d.buffer run.rest = .error o)
  /-- The block turns out too long after it has been written. -/
  | pastMaximum (executed : run.Executed hist)
      (kept : d.content = run.loop.exec.buffer.content ++ run.rest)
      (long : run.start.len + run.start.blockMaximum < d.len)

theorem writeLiteralsOnly_error {d d' : DecodeBuffer B} {literals : List UInt8}
    {e : DecompressBlockError} (h : writeLiteralsOnly d literals = (.error e, d')) : d' = d := by
  unfold writeLiteralsOnly DecodeBuffer.tryPush at h
  split at h
  · cases hpush : tryExtend d.buffer literals with
    | error o =>
      rw [hpush] at h
      cases h
      rfl
    | ok b =>
      rw [hpush] at h
      cases h
  · cases h

section Rollback

open DecodeBuffer

variable [SlicedBackend B] [LawfulBackend B]

theorem DecodeBuffer.blockStart_spec {d : DecodeBuffer B} (h : Wf d.buffer) :
    Wf d.blockStart.buffer ∧ d.SameOutput d.blockStart := by
  obtain ⟨n, hreserve⟩ : ∃ n, (d.reserveForBlock d.blockMaximum).buffer =
      reserveExact d.buffer n := ⟨_, rfl⟩
  obtain ⟨hwf, -, hbytes⟩ := reserveExact_spec n h
  rw [← hreserve] at hwf hbytes
  obtain ⟨hwf', hbytes'⟩ :=
    setMaxCapacity_spec ((d.reserveForBlock d.blockMaximum).len + d.blockMaximum) hwf
  exact ⟨hwf', hbytes'.trans hbytes, rfl, rfl⟩

/-- With the storage where it was, the output goes back to the checkpoint; else nothing moves. -/
theorem DecodeBuffer.tryRestoreCheckpoint_spec {d d' : DecodeBuffer B} (h : Wf d.buffer)
    (hg : d.Grows d') :
    (cap d'.buffer = cap d.buffer ∧ (d'.tryRestoreCheckpoint d.checkpoint).1 = true ∧
      d.SameOutput (d'.tryRestoreCheckpoint d.checkpoint).2) ∨
    (cap d'.buffer ≠ cap d.buffer ∧ d'.tryRestoreCheckpoint d.checkpoint = (false, d')) := by
  by_cases hcap : cap d'.buffer = cap d.buffer
  · left
    obtain ⟨-, hbytes⟩ := setTail_spec h hg.wf hg.grew hcap
    simp only [tryRestoreCheckpoint, checkpoint, hcap, ne_eq, not_true_eq_false, if_false]
    exact ⟨trivial, trivial, hbytes, rfl, hg.books.delivered⟩
  · right
    simp only [tryRestoreCheckpoint, checkpoint, ne_eq, hcap, not_false_eq_true, if_true]
    exact ⟨trivial, trivial⟩

namespace SequenceRun

variable {run : SequenceRun B}

theorem loop_grows (h : Wf run.start.buffer) (hlen : run.inp.litLen = run.inp.literals.length) :
    run.start.Grows run.loop.exec.buffer := by
  have hstart : Wf (ExecState.mk run.start 0).buffer.buffer := h
  simp only [loop, sequenceLoop, decodeLongSequences]
  split
  · exact longLoop_grows hlen hstart
  · exact shortLoop_grows hlen hstart

variable {hist : OffsetHist}

/-- Past the loop, on a stream it used up: the literals left over go behind what it wrote, or are
lost with nothing before them. -/
theorem finish_executed (h : Wf run.start.buffer)
    (hlen : run.inp.litLen = run.inp.literals.length) {cp : DecodeBufferCheckpoint}
    {br : BitIo.BitReaderReversed} (hbits : br.bitsRemaining = 0) :
    (∃ o, tryExtend run.loop.exec.buffer.buffer run.rest = .error o ∧
      finishSequences run.inp cp run.hist hist br run.loop.exec =
        (.error (.executeSequencesError (.outputBufferOverflow o)), run.loop.exec.buffer, hist)) ∨
    ∃ d, (d.content = run.loop.exec.buffer.content ++ run.rest ∨ d.content = []) ∧
      finishSequences run.inp cp run.hist hist br run.loop.exec = (.ok (), d, hist) := by
  obtain ⟨-, -, hbytes, -⟩ := extend_spec run.rest (loop_grows h hlen).wf
  replace hbytes := hbytes.imp_right And.right
  unfold finishSequences
  simp only [hbits, ne_eq, not_true_eq_false, if_false, tryPush]
  split
  · cases hpush : tryExtend run.loop.exec.buffer.buffer run.rest with
    | error o =>
      refine .inl ⟨o, rfl, ?_⟩
      unfold rest at hpush
      simp only [hpush]
    | ok b =>
      rw [← tryExtend_spec hpush] at hbytes
      refine .inr ⟨{ run.loop.exec.buffer with
        buffer := b
        totalOutputCounter := run.loop.exec.buffer.totalOutputCounter + run.rest.length },
        hbytes, ?_⟩
      unfold rest at hpush
      simp only [hpush, rest]
  · rename_i hall
    have hnone : run.rest = [] := by
      rw [rest, Nat.sub_eq_zero_of_le (Nat.le_of_not_lt hall), List.take_zero]
    refine .inr ⟨_, .inl ?_, rfl⟩
    rw [hnone, List.append_nil]

/-- A stream that was not used up: the history goes back with the output, or neither does. -/
theorem finish_rejected (h : Wf run.start.buffer)
    (hlen : run.inp.litLen = run.inp.literals.length) {br : BitIo.BitReaderReversed}
    (hend : run.loop.result = .ok (hist, br))
    (hbits : br.bitsRemaining ≠ 0) :
    ∃ e d hist', finishSequences run.inp run.start.checkpoint run.hist hist br run.loop.exec =
        (.error e, d, hist') ∧
      (run.start.SameOutput d ∧ hist' = run.hist ∨ run.Leaves d hist') := by
  have hfinish : ∃ e, finishSequences run.inp run.start.checkpoint run.hist hist br run.loop.exec =
      (.error e, (run.loop.exec.buffer.tryRestoreCheckpoint run.start.checkpoint).2,
        if (run.loop.exec.buffer.tryRestoreCheckpoint run.start.checkpoint).1 then run.hist
        else hist) := by
    simp only [finishSequences, ne_eq, hbits, not_false_eq_true, if_true]
    split
    · exact ⟨_, rfl⟩
    · exact ⟨_, rfl⟩
  obtain ⟨e, hfinish⟩ := hfinish
  refine ⟨e, _, _, hfinish, ?_⟩
  rcases tryRestoreCheckpoint_spec h (loop_grows h hlen) with
    ⟨-, hdone, hsame⟩ | ⟨hmoved, hkept⟩
  · exact .inl ⟨hsame, by rw [hdone, if_pos rfl]⟩
  · rw [hkept]
    exact .inr (.reallocated hmoved rfl (.inr ⟨br, hend⟩))

/-- How the sequences of a block end. -/
theorem ends (h : Wf run.start.buffer) (hlen : run.inp.litLen = run.inp.literals.length) :
    (∃ e d hist, runSequences run.setup.useLongPipeline run.setup run.inp run.start run.hist =
        (.error e, d, hist) ∧
      (run.start.SameOutput d ∧ hist = run.hist ∨ run.Leaves d hist)) ∨
    ∃ d hist, runSequences run.setup.useLongPipeline run.setup run.inp run.start run.hist =
        (.ok (), d, hist) ∧
      run.Executed hist ∧
      (d.content = run.loop.exec.buffer.content ++ run.rest ∨ d.content = []) := by
  have hrun := runSequences_eq run.setup.useLongPipeline run.setup run.inp run.start run.hist
  have hloop : sequenceLoop run.setup.useLongPipeline run.setup run.inp run.start run.hist =
    run.loop := rfl
  rw [hloop] at hrun
  cases hend : run.loop.result with
  | error e =>
    rw [hend] at hrun
    refine .inl ⟨e, _, _, hrun, ?_⟩
    rcases tryRestoreCheckpoint_spec h (loop_grows h hlen) with
      ⟨-, -, hsame⟩ | ⟨hmoved, hkept⟩
    · exact .inl ⟨hsame, rfl⟩
    · exact .inr (.reallocated hmoved (by rw [hkept]) (.inl rfl))
  | ok p =>
    obtain ⟨hist, br⟩ := p
    rw [hend] at hrun
    simp only at hrun
    by_cases hbits : br.bitsRemaining = 0
    · have hexecuted : run.Executed hist := ⟨br, hend, hbits⟩
      rcases @finish_executed _ _ _ _ run hist h hlen run.start.checkpoint br hbits with
        ⟨o, hrefused, hfinish⟩ | ⟨d, hcontent, hfinish⟩
      · exact .inl ⟨_, _, _, hrun.trans hfinish, .inr (.tailOverflow hexecuted rfl hrefused)⟩
      · exact .inr ⟨d, hist, hrun.trans hfinish, hexecuted, hcontent⟩
    · obtain ⟨e, d, hist', hfinish, hleaves⟩ := finish_rejected h hlen hend hbits
      exact .inl ⟨e, d, hist', hrun.trans hfinish, hleaves⟩

end SequenceRun

/-- A block that fails leaves the output and the history as they were, unless its sequences were
under way and what they wrote could not be taken back, or was not meant to be. The output before it
and the delivered mark stay in any case. -/
theorem failed_block_leaves (w : Workspace B) (dict : Option Dictionary) (raw : List UInt8)
    (h : Wf w.buffer.buffer) {e : DecompressBlockError} {w' : Workspace B}
    (hfail : decompressBlockInplace w dict raw = (.error e, w')) :
    (w.buffer.SameOutput w'.buffer ∧ w'.offsetHist = w.offsetHist ∨
      ∃ run, sequencesOf w dict raw = some run ∧ run.Leaves w'.buffer w'.offsetHist) ∧
    w.buffer.content <+: w'.buffer.content ∧ w'.buffer.delivered = w.buffer.delivered := by
  have happended := @decompressBlockInplace_appended B _ _ _ w dict raw h
  rw [hfail] at happended
  refine ⟨?_, happended.content, happended.books.delivered⟩
  obtain ⟨hwf, hstart⟩ := DecodeBuffer.blockStart_spec h
  unfold sequencesOf
  simp only [decompressBlockInplace] at hfail
  cases hsections : parseSections w.buffer.blockMaximum raw with
  | error e' =>
    rw [hsections] at hfail
    cases hfail
    exact .inl ⟨.refl _, rfl⟩
  | ok sections =>
    rw [hsections] at hfail
    simp only at hfail ⊢
    obtain ⟨⟨result, huf⟩, hliterals⟩ : ∃ r, decodeLiteralsZerocopy sections.literals w.huf dict
        sections.literalsSource sections.literals.payloadLen = r := ⟨_, rfl⟩
    rw [hliterals] at hfail
    cases result with
    | error e' =>
      cases hfail
      exact .inl ⟨.refl _, rfl⟩
    | ok p =>
      obtain ⟨literals, used⟩ := p
      simp only [executeBlock] at hfail
      simp only [hliterals]
      split at hfail
      · rename_i hsome
        rw [if_neg hsome]
        simp only [decodeAndExecuteSequences] at hfail
        have hblock : (w.buffer.reserveForBlock w.buffer.blockMaximum).setBlockOutputCeiling
          w.buffer.blockMaximum = w.buffer.blockStart := rfl
        rw [hblock] at hfail
        obtain ⟨⟨init, fse⟩, hinit⟩ : ∃ r, initSequenceStream sections.sequences
            sections.sequencesSource w.fse w.buffer.blockStart dict = r := ⟨_, rfl⟩
        rw [hinit] at hfail
        cases init with
        | error e' =>
          cases hfail
          exact .inl ⟨hstart, rfl⟩
        | ok setup =>
          simp only [hinit]
          obtain ⟨run, hrun⟩ : ∃ run : SequenceRun B, run = {
            setup := setup
            inp := ⟨dictContent dict, literals, literals.length⟩
            start := w.buffer.blockStart
            hist := w.offsetHist } := ⟨_, rfl⟩
          have hstarted : run.start = w.buffer.blockStart := by rw [hrun]
          have hhist : run.hist = w.offsetHist := by rw [hrun]
          have hfields : runSequences setup.useLongPipeline setup
              ⟨dictContent dict, literals, literals.length⟩ w.buffer.blockStart w.offsetHist =
              runSequences run.setup.useLongPipeline run.setup run.inp run.start run.hist := by
            rw [hrun]
          rw [← hrun]
          simp only [hfields] at hfail
          rcases @SequenceRun.ends _ _ _ _ run (hstarted ▸ hwf) (by rw [hrun]) with
            ⟨e', d, hist, hends, hleaves⟩ | ⟨d, hist, hends, hexecuted, hcontent⟩
          · rw [hends] at hfail
            cases hfail
            rcases hleaves with ⟨hsame, hkept⟩ | hleaves
            · exact .inl ⟨hstart.trans (hstarted ▸ hsame), hkept.trans hhist⟩
            · exact .inr ⟨run, rfl, hleaves⟩
          · rw [hends] at hfail
            simp only at hfail
            split at hfail
            · rename_i hlong
              cases hfail
              have hlen : run.start.len + run.start.blockMaximum < d.len := by
                rw [hstarted]
                change w.buffer.blockStart.content.length + w.buffer.blockMaximum < _
                rw [hstart.content]
                exact Nat.add_lt_of_lt_sub' hlong
              refine .inr ⟨run, rfl, .pastMaximum hexecuted (hcontent.resolve_right ?_) hlen⟩
              intro hempty
              rw [DecodeBuffer.len, DecodeBuffer.len, hempty] at hlen
              exact Nat.not_lt_zero _ hlen
            · cases hfail
      · rename_i hnone
        split at hfail
        · cases hfail
          exact .inl ⟨.refl _, rfl⟩
        · obtain ⟨⟨result, buffer⟩, hwrite⟩ : ∃ r, writeLiteralsOnly w.buffer literals = r :=
            ⟨_, rfl⟩
          rw [hwrite] at hfail
          cases hfail
          rw [writeLiteralsOnly_error hwrite]
          exact .inl ⟨.refl _, rfl⟩

end Rollback

/-- A payload with raw literals and `n` sequences, each of one literal and the byte before the match
three times over. -/
def sequencesSample (literals : List UInt8) (n : UInt8) (bitStream : List UInt8) : List UInt8 :=
  [UInt8.ofNat (8 * literals.length)] ++ literals ++ [n, 0x54, 1, 0, 0] ++ bitStream

def sliceSample : Workspace UserSliceBackend :=
  ⟨.new, .new, .fromBackend (.fromSlice 5) 1024, .initial⟩

def ringSample : Workspace RingBuffer :=
  ⟨.new, .new, (DecodeBuffer.new 1024).setDeclaredContent (some 0), .initial⟩

/-- The literals left over do not fit into the slice; what the sequence wrote stays in it. -/
theorem failed_block_leaves_slice :
    let w' := (decompressBlockInplace sliceSample none (sequencesSample [7, 8, 9] 1 [1])).2
    ∃ run, sequencesOf sliceSample none (sequencesSample [7, 8, 9] 1 [1]) = some run ∧
      run.Leaves w'.buffer w'.offsetHist := by
  intro w'
  have hsound : Wf sliceSample.buffer.buffer := Nat.le_refl 0
  have hfail : decompressBlockInplace sliceSample none (sequencesSample [7, 8, 9] 1 [1]) =
      (.error (.executeSequencesError (.outputBufferOverflow ⟨4, 2, 5⟩)), w') :=
    Prod.ext (by decide +kernel) rfl
  obtain ⟨⟨hsame, -⟩ | hrun, -⟩ := failed_block_leaves sliceSample none _ hsound hfail
  · have hchanged : w'.buffer.content ≠ sliceSample.buffer.content := by decide +kernel
    exact absurd hsame.content hchanged
  · exact hrun

/-- Output that stays: behind sequences the literals left over of which do not fit, in a block that is
too long by one byte, and in a ring that grew before the bit stream proved too long. -/
theorem failed_block_leaves_output :
    (sliceSample.buffer.content = [] ∧ (Workspace.new 5 : Workspace FlatBuf).buffer.content = [] ∧
      ringSample.buffer.content = []) ∧
    (decompressBlockInplace sliceSample none (sequencesSample [7, 8, 9] 1 [1])).1 =
        .error (.executeSequencesError (.outputBufferOverflow ⟨4, 2, 5⟩)) ∧
      (decompressBlockInplace sliceSample none (sequencesSample [7, 8, 9] 1 [1])).2.buffer.content =
        [7, 7, 7, 7] ∧
    (decompressBlockInplace (Workspace.new 5 : Workspace FlatBuf) none
        (sequencesSample [7, 8, 9] 1 [1])).1 = .error (.expandsPastBlockMaximum 6 5) ∧
      (decompressBlockInplace (Workspace.new 5 : Workspace FlatBuf) none
        (sequencesSample [7, 8, 9] 1 [1])).2.buffer.content = [7, 7, 7, 7, 8, 9] ∧
    (decompressBlockInplace ringSample none (sequencesSample [7, 8, 9] 3 [1, 1])).1 =
        .error (.decodeSequenceError (.extraBits 8)) ∧
      (decompressBlockInplace ringSample none (sequencesSample [7, 8, 9] 3 [1, 1])).2.buffer.content =
        [7, 7, 7, 7, 8, 8, 8, 8, 9, 9, 9, 9] := by
  decide +kernel

end Decoding
