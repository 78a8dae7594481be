import StructuredZstd.Decoding.BlockDecoder
import StructuredZstd.Decoding.LawfulBackends

namespace Decoding

open BufferBackend LawfulBackend

variable {B : Type} [BufferBackend B] [SlicedBackend B] [LawfulBackend B]

/-- The storage only grew. -/
structure Grew (b b' : B) : Prop where
  wf : Wf b'
  grew : Extends b b'

theorem Grew.refl {b : B} (h : Wf b) : Grew b b := ⟨h, extends_refl b⟩

theorem Grew.trans {a b c : B} (hab : Grew a b) (hbc : Grew b c) : Grew a c :=
  ⟨hbc.wf, extends_trans hab.grew hbc.grew⟩

section Repeats

theorem extend_grew {b : B} (data : List UInt8) (h : Wf b) : Grew b (extend b data) := by
  obtain ⟨hwf, hext, -, -⟩ := extend_spec data h
  exact ⟨hwf, hext⟩

theorem repeatInChunks_grew {startIdx : Nat} :
    ∀ {fuel remaining : Nat} {b : B}, Wf b → Room b remaining → startIdx ≤ (bytes b).length →
      Grew b (DecodeBuffer.repeatInChunks startIdx fuel remaining b)
  | 0, _, _, h, _, _ => .refl h
  | fuel + 1, remaining, b, h, hroom, hstart => by
    simp only [DecodeBuffer.repeatInChunks]
    split_ifs with hpos
    · have hle : min ((bytes b).length - startIdx) remaining ≤ remaining := Nat.min_le_right _ _
      have hin : startIdx + min ((bytes b).length - startIdx) remaining ≤ (bytes b).length := by
        omega
      obtain ⟨hwf, hext, -, hrest⟩ := extendFromWithin_spec h hin (room_mono hle hroom)
      have hgrown := (extends_bytes hext).length_le
      refine Grew.trans ⟨hwf, hext⟩ (repeatInChunks_grew hwf ?_ (by omega))
      exact hrest _ (by rwa [Nat.add_sub_cancel' hle])
    · exact .refl h

theorem extendByChunk_grew {chunk : List UInt8} :
    ∀ {fuel left : Nat} {b : B}, Wf b → Grew b (DecodeBuffer.extendByChunk chunk fuel left b)
  | 0, _, _, h => .refl h
  | fuel + 1, left, b, h => by
    simp only [DecodeBuffer.extendByChunk]
    split_ifs with hwhole hpos
    · have hgrew := extend_grew chunk h
      exact hgrew.trans (extendByChunk_grew hgrew.wf)
    · exact extend_grew _ h
    · exact .refl h

theorem extendByPhase_grew {base : List UInt8} {offset : Nat} :
    ∀ {fuel phase left : Nat} {b : B}, Wf b →
      Grew b (DecodeBuffer.extendByPhase base offset fuel phase left b)
  | 0, _, _, _, h => .refl h
  | fuel + 1, phase, left, b, h => by
    simp only [DecodeBuffer.extendByPhase]
    split_ifs with hwhole hpos
    · have hgrew := extend_grew ((List.range 8).map fun i => base.getD ((phase + i) % offset) 0) h
      exact hgrew.trans (extendByPhase_grew hgrew.wf)
    · exact extend_grew _ h
    · exact .refl h

theorem repeatOverlapping_grew {b : B} {offset matchLength startIdx : Nat} (h : Wf b)
    (hroom : Room b matchLength) (hstart : startIdx ≤ (bytes b).length) :
    Grew b (DecodeBuffer.repeatOverlapping b offset matchLength startIdx) := by
  simp only [DecodeBuffer.repeatOverlapping, DecodeBuffer.repeatShortOffset]
  split_ifs
  · exact repeatInChunks_grew h hroom hstart
  · exact extendByChunk_grew h
  · exact extendByPhase_grew h

end Repeats

namespace DecodeBuffer

/-- The accounts of what was handed out, which no decode touches. -/
structure SameBooks (d d' : DecodeBuffer B) : Prop where
  windowSize : d'.windowSize = d.windowSize
  hash : d'.hash = d.hash
  computeHash : d'.computeHash = d.computeHash
  delivered : d'.delivered = d.delivered
  blockLimit : d'.blockLimit = d.blockLimit

/-- The buffer only grew. -/
structure Grows (d d' : DecodeBuffer B) : Prop extends Grew d.buffer d'.buffer where
  books : SameBooks d d'

theorem Grows.of_buffer {d : DecodeBuffer B} {b : B} (h : Grew d.buffer b) (counter : Nat) :
    d.Grows { d with buffer := b, totalOutputCounter := counter } :=
  ⟨h, rfl, rfl, rfl, rfl, rfl⟩

theorem Grows.refl {d : DecodeBuffer B} (h : Wf d.buffer) : d.Grows d := .of_buffer (.refl h) _

theorem Grows.trans {a b c : DecodeBuffer B} (hab : a.Grows b) (hbc : b.Grows c) : a.Grows c where
  toGrew := hab.toGrew.trans hbc.toGrew
  books :=
    { windowSize := hbc.books.windowSize.trans hab.books.windowSize
      hash := hbc.books.hash.trans hab.books.hash
      computeHash := hbc.books.computeHash.trans hab.books.computeHash
      delivered := hbc.books.delivered.trans hab.books.delivered
      blockLimit := hbc.books.blockLimit.trans hab.books.blockLimit }

section Writes

variable {d : DecodeBuffer B}

theorem push_grows (data : List UInt8) (h : Wf d.buffer) : d.Grows (d.push data) :=
  .of_buffer (extend_grew data h) _

theorem tryPush_grows (data : List UInt8) (h : Wf d.buffer) : d.Grows (d.tryPush data).2 := by
  simp only [tryPush]
  split
  · exact .refl h
  · rename_i buffer hok
    rw [tryExtend_spec hok]
    exact push_grows data h

/-- Behind some content whatever is granted has room. -/
theorem repeatResident_grows {offset matchLength : Nat} (h : Wf d.buffer) (hne : d.content ≠ []) :
    d.Grows (d.repeatResident offset matchLength).2 := by
  simp only [repeatResident]
  split
  · exact .refl h
  · rename_i b hok
    obtain ⟨-, hwf, hext, hbytes, -, hmade⟩ := tryReserve_spec h hok
    have hroom := hmade (fits_of_content _ h hne)
    have hlen : (bytes b).length = d.len := congrArg List.length hbytes
    refine .of_buffer (Grew.trans ⟨hwf, hext⟩ ?_) _
    split_ifs with hoverlap
    · exact repeatOverlapping_grew hwf hroom (by omega)
    · obtain ⟨hwf', hext', -, -⟩ := extendFromWithin_spec hwf
        (show d.len - offset + matchLength ≤ (bytes b).length by omega) hroom
      exact ⟨hwf', hext'⟩

theorem repeatTailAfterDict_grows {matchLength : Nat} (h : Wf d.buffer) :
    d.Grows (d.repeatTailAfterDict matchLength).2 := by
  simp only [repeatTailAfterDict]
  split_ifs with hzero
  · exact .refl h
  · exact .refl h
  · exact repeatResident_grows h (mt List.length_eq_zero_iff.mpr hzero)

theorem repeatFromDict_grows {dictContent : List UInt8} {offset matchLength : Nat}
    (h : Wf d.buffer) : d.Grows (d.repeatFromDict dictContent offset matchLength).2 := by
  simp only [repeatFromDict]
  split
  · split
    · exact .refl h
    · split
      · exact .refl h
      · rename_i b hok
        obtain ⟨-, hwf, hext, -⟩ := tryReserve_spec h hok
        split
        · -- the dictionary's share first, then the rest out of the buffer
          have hfirst := Grows.of_buffer (d := d) (Grew.trans ⟨hwf, hext⟩ (extend_grew
            (dictContent.drop (dictContent.length - (offset - d.len))) hwf))
            (d.totalOutputCounter + (offset - d.len))
          exact hfirst.trans (repeatTailAfterDict_grows hfirst.wf)
        · exact .of_buffer (Grew.trans ⟨hwf, hext⟩ (extend_grew _ hwf)) _
  · exact .refl h

theorem repeatInner_grows {dictContent : List UInt8} {offset matchLength : Nat}
    (h : Wf d.buffer) : d.Grows (d.repeatInner dictContent offset matchLength).2 := by
  simp only [repeatInner]
  split_ifs with hoffset hmatch hfar
  · exact .refl h
  · exact .refl h
  · exact repeatFromDict_grows h
  · refine repeatResident_grows h fun hempty => ?_
    rw [len, hempty, List.length_nil] at hfar
    omega

end Writes

end DecodeBuffer

section Sequences

open DecodeBuffer

variable {inp : ExecInput}

theorem pushThenRepeat_grows {s : ExecState B} (h : Wf s.buffer.buffer) (lits : List UInt8)
    {offset ml : Nat} : s.buffer.Grows (pushThenRepeat inp lits offset ml s).2.buffer := by
  have hpush := tryPush_grows lits h
  simp only [pushThenRepeat]
  split
  · rename_i o buffer hp
    rw [hp] at hpush
    exact hpush
  · rename_i buffer hp
    rw [hp] at hpush
    have hrepeat := @repeatInner_grows B _ _ _ _ inp.dictContent offset ml hpush.wf
    split
    · rename_i e buffer' hr
      rw [hr] at hrepeat
      exact hpush.trans hrepeat
    · rename_i buffer' hr
      rw [hr] at hrepeat
      exact hpush.trans hrepeat

theorem commitInline_grows {s : ExecState B} {seq : ExecSeq}
    {r : Except ExecuteSequencesError B} (h : Wf s.buffer.buffer)
    (hr : ∀ b, r = .ok b → Grew s.buffer.buffer b) :
    s.buffer.Grows (commitInline seq s r).2.buffer := by
  cases r with
  | error e => exact .refl h
  | ok b =>
    simp only [commitInline]
    split_ifs
    · exact .of_buffer (hr b rfl) _
    · exact .of_buffer (hr b rfl) _

theorem executeOneSequencePipelined_grows {s : ExecState B} {seq : ExecSeq}
    (h : Wf s.buffer.buffer) (hlen : inp.litLen = inp.literals.length) :
    s.buffer.Grows (executeOneSequencePipelined inp seq s).2.buffer := by
  have hchain : ∀ litCur : Nat, s.buffer.Grows (pushThenRepeat inp
      ((inp.literals.drop s.litCur).take seq.ll) seq.actualOffset seq.ml
      { s with litCur := litCur }).2.buffer :=
    fun litCur => pushThenRepeat_grows (s := { s with litCur := litCur }) h _
  simp only [executeOneSequencePipelined]
  split
  · exact .refl h
  · rename_i hhigh
    have hll : ((inp.literals.drop s.litCur).take seq.ll).length = seq.ll := by
      rw [List.length_take, List.length_drop]
      omega
    split
    · exact .refl h
    · rename_i hzero
      split
      · split
        · rename_i dictSrc hsrc
          split
          · rename_i hinline
            refine commitInline_grows (s := ⟨s.buffer, s.litCur + seq.ll⟩) h fun b hb => ?_
            obtain ⟨hwf, hext, -⟩ := inlineDict_spec h (hll.symm ▸ hinline.2) hb
            exact ⟨hwf, hext⟩
          · exact hchain _
        · exact hchain _
      · rename_i hfar
        split
        · rename_i hinline
          refine commitInline_grows (s := ⟨s.buffer, s.litCur + seq.ll⟩) h fun b hb => ?_
          obtain ⟨hwf, hext, -⟩ := inline_spec h (hll.symm ▸ hinline.2) (Nat.pos_of_ne_zero hzero)
            (Nat.le_of_not_lt hfar) hb
          exact ⟨hwf, hext⟩
        · exact hchain _

theorem shortLoop_grows {t : SeqTables} (hlen : inp.litLen = inp.literals.length) :
    ∀ {k : Nat} {s : SeqStates} {br : BitIo.BitReaderReversed} {hist : OffsetHist}
      {exec : ExecState B}, Wf exec.buffer.buffer →
      exec.buffer.Grows (shortLoop inp t k s br hist exec).exec.buffer
  | 0, _, _, _, _, h => .refl h
  | k + 1, s, br, hist, exec, h => by
    have hstep := @executeOneSequencePipelined_grows B _ _ _ inp exec
      (decodeResolved s br hist).1 h hlen
    simp only [shortLoop]
    split
    · rename_i e exec' he
      rw [he] at hstep
      exact hstep
    · rename_i exec' he
      rw [he] at hstep
      exact hstep.trans (shortLoop_grows hlen hstep.wf)

theorem drainRing_grows {ring : List ExecSeq} (hlen : inp.litLen = inp.literals.length) :
    ∀ {k i : Nat} {exec : ExecState B}, Wf exec.buffer.buffer →
      exec.buffer.Grows (drainRing inp ring k i exec).2.buffer
  | 0, _, _, h => .refl h
  | k + 1, i, exec, h => by
    have hstep := @executeOneSequencePipelined_grows B _ _ _ inp exec
      (ring.getD (i &&& advanceMask) {}) h hlen
    simp only [drainRing]
    split
    · rename_i e exec' he
      rw [he] at hstep
      exact hstep
    · rename_i exec' he
      rw [he] at hstep
      exact hstep.trans (drainRing_grows hlen hstep.wf)

theorem longLoop_grows {t : SeqTables} {maxUpdateBits : Nat}
    (hlen : inp.litLen = inp.literals.length) :
    ∀ {k i : Nat} {ring : List ExecSeq} {s : SeqStates} {br : BitIo.BitReaderReversed}
      {hist : OffsetHist} {exec : ExecState B}, Wf exec.buffer.buffer →
      exec.buffer.Grows (longLoop inp t maxUpdateBits k i ring s br hist exec).exec.buffer
  | 0, i, ring, _, _, _, exec, h => by
    have hdrain := @drainRing_grows B _ _ _ inp ring hlen advance i exec h
    simp only [longLoop]
    split
    · rename_i e exec' he
      rw [he] at hdrain
      exact hdrain
    · rename_i exec' he
      rw [he] at hdrain
      exact hdrain
  | k + 1, i, ring, s, br, hist, exec, h => by
    have hstep := @executeOneSequencePipelined_grows B _ _ _ inp exec
      (ring.getD (i &&& advanceMask) {}) h hlen
    simp only [longLoop]
    split
    · rename_i e exec' he
      rw [he] at hstep
      exact hstep
    · rename_i exec' he
      rw [he] at hstep
      exact hstep.trans (longLoop_grows hlen hstep.wf)

end Sequences

namespace DecodeBuffer

/-- The buffer has what it had and possibly more; the books are as they were. -/
structure Appended (d d' : DecodeBuffer B) : Prop where
  wf : Wf d'.buffer
  content : d.content <+: d'.content
  books : SameBooks d d'

theorem Grows.appended {d d' : DecodeBuffer B} (h : d.Grows d') : d.Appended d' :=
  ⟨h.wf, extends_bytes h.grew, h.books⟩

theorem Appended.refl {d : DecodeBuffer B} (h : Wf d.buffer) : d.Appended d :=
  (Grows.refl h).appended

theorem Appended.trans {a b c : DecodeBuffer B} (hab : a.Appended b) (hbc : b.Appended c) :
    a.Appended c where
  wf := hbc.wf
  content := hab.content.trans hbc.content
  books :=
    { windowSize := hbc.books.windowSize.trans hab.books.windowSize
      hash := hbc.books.hash.trans hab.books.hash
      computeHash := hbc.books.computeHash.trans hab.books.computeHash
      delivered := hbc.books.delivered.trans hab.books.delivered
      blockLimit := hbc.books.blockLimit.trans hab.books.blockLimit }

/-- Rolling back to a checkpoint gives back the content at the checkpoint, or nothing. -/
theorem tryRestoreCheckpoint_appended {d d' : DecodeBuffer B} (h : Wf d.buffer) (hg : d.Grows d') :
    d.Appended (d'.tryRestoreCheckpoint d.checkpoint).2 := by
  by_cases hcap : cap d'.buffer = cap d.buffer
  · obtain ⟨hwf, hbytes⟩ := setTail_spec h hg.wf hg.grew hcap
    have hkept : bytes d.buffer <+: bytes (setTail d'.buffer (tail d.buffer)) := by rw [hbytes]
    simp only [tryRestoreCheckpoint, checkpoint, hcap, ne_eq, not_true_eq_false, if_false]
    exact ⟨hwf, hkept, hg.books.windowSize, hg.books.hash, hg.books.computeHash,
      hg.books.delivered, hg.books.blockLimit⟩
  · simp only [tryRestoreCheckpoint, checkpoint, ne_eq, hcap, not_false_eq_true, if_true]
    exact hg.appended

end DecodeBuffer

section Blocks

open DecodeBuffer

variable {inp : ExecInput}

theorem finishSequences_appended {d : DecodeBuffer B} {exec : ExecState B} (h : Wf d.buffer)
    (hg : d.Grows exec.buffer) {saved hist : OffsetHist} {br : BitIo.BitReaderReversed} :
    d.Appended (finishSequences inp d.checkpoint saved hist br exec).2.1 := by
  simp only [finishSequences]
  split
  · split
    · exact tryRestoreCheckpoint_appended h hg
    · exact tryRestoreCheckpoint_appended h hg
  · split
    · have hpush := tryPush_grows ((inp.literals.drop exec.litCur).take (inp.litLen - exec.litCur))
        hg.wf
      split
      · rename_i o buffer hp
        rw [hp] at hpush
        exact (hg.trans hpush).appended
      · rename_i buffer hp
        rw [hp] at hpush
        exact (hg.trans hpush).appended
    · exact hg.appended

theorem runSequences_appended {d : DecodeBuffer B} (h : Wf d.buffer)
    (hlen : inp.litLen = inp.literals.length) {useLong : Bool} {setup : SeqStreamSetup}
    {hist : OffsetHist} : d.Appended (runSequences useLong setup inp d hist).2.1 := by
  have hstart : Wf (ExecState.mk d 0).buffer.buffer := h
  simp only [runSequences, decodeLongSequences]
  split
  · split
    · exact tryRestoreCheckpoint_appended h (longLoop_grows hlen hstart)
    · exact finishSequences_appended h (longLoop_grows hlen hstart)
  · split
    · exact tryRestoreCheckpoint_appended h (shortLoop_grows hlen hstart)
    · exact finishSequences_appended h (shortLoop_grows hlen hstart)

theorem decodeAndExecuteSequences_appended {d : DecodeBuffer B} (h : Wf d.buffer)
    {literals : List UInt8} {header : SequencesHeader} {source : List UInt8} {fse : FSEScratch}
    {hist : OffsetHist} {dict : Option Dictionary} :
    d.Appended (decodeAndExecuteSequences header source fse d hist literals literals.length
      dict).2.2.1 := by
  simp only [decodeAndExecuteSequences]
  split
  · exact .refl h
  · exact runSequences_appended h rfl

theorem push_appended {d : DecodeBuffer B} (h : Wf d.buffer) (data : List UInt8) :
    d.Appended (d.push data) :=
  (push_grows data h).appended

theorem tryPush_appended {d : DecodeBuffer B} (h : Wf d.buffer) (data : List UInt8) :
    d.Appended (d.tryPush data).2 :=
  (tryPush_grows data h).appended

/-- What the sequences of a block start from. -/
theorem blockRoom_appended {d : DecodeBuffer B} (h : Wf d.buffer) (most : Nat) :
    d.Appended ((d.reserveForBlock most).setBlockOutputCeiling most) := by
  obtain ⟨n, hreserve⟩ : ∃ n, (d.reserveForBlock most).buffer = reserveExact d.buffer n := ⟨_, rfl⟩
  obtain ⟨hwf, hext, hbytes⟩ := reserveExact_spec n h
  rw [← hreserve] at hwf hext hbytes
  obtain ⟨hwf', hbytes'⟩ := setMaxCapacity_spec ((d.reserveForBlock most).len + most) hwf
  refine ⟨hwf', ?_, rfl, rfl, rfl, rfl, rfl⟩
  have hcontent : ((d.reserveForBlock most).setBlockOutputCeiling most).content = d.content :=
    hbytes'.trans hbytes
  rw [hcontent]

theorem writeLiteralsOnly_appended {d : DecodeBuffer B} (h : Wf d.buffer) (literals : List UInt8) :
    d.Appended (writeLiteralsOnly d literals).2 := by
  have htry := tryPush_appended h literals
  simp only [writeLiteralsOnly]
  split
  · split
    · rename_i o buffer hp
      rw [hp] at htry
      exact htry
    · rename_i buffer hp
      rw [hp] at htry
      exact htry
  · exact push_appended h literals

theorem executeBlock_appended {w : Workspace B} {dict : Option Dictionary} {most : Nat}
    {sections : BlockSections} {literals : List UInt8} (h : Wf w.buffer.buffer) :
    w.buffer.Appended (executeBlock w dict most sections literals).2.buffer := by
  simp only [executeBlock]
  split
  · have hstart := blockRoom_appended h most
    have hseq := @decodeAndExecuteSequences_appended B _ _ _ _ hstart.wf literals
      sections.sequences sections.sequencesSource w.fse w.offsetHist dict
    split
    · rename_i e fse buffer hist he
      rw [he] at hseq
      exact hstart.trans hseq
    · rename_i fse buffer hist he
      rw [he] at hseq
      split
      · exact hstart.trans hseq
      · exact hstart.trans hseq
  · split
    · exact .refl h
    · exact writeLiteralsOnly_appended h literals

theorem decompressBlockInplace_appended {w : Workspace B} {dict : Option Dictionary}
    {raw : List UInt8} (h : Wf w.buffer.buffer) :
    w.buffer.Appended (decompressBlockInplace w dict raw).2.buffer := by
  simp only [decompressBlockInplace]
  split
  · exact .refl h
  · split
    · exact .refl h
    · rename_i huf _
      exact executeBlock_appended (w := { w with huf := huf }) h

theorem fill_appended {d : DecodeBuffer B} (h : Wf d.buffer) (fill : UInt8) (n : Nat) :
    d.Appended (d.extendAndFill fill n) ∧ d.Appended (d.tryExtendAndFill fill n).2 := by
  have hgrew := extend_grew (List.replicate n fill) h
  constructor
  · rw [DecodeBuffer.extendAndFill, extendAndFill_spec]
    exact (Grows.of_buffer hgrew _).appended
  · simp only [DecodeBuffer.tryExtendAndFill]
    split
    · exact .refl h
    · rename_i buffer hok
      rw [tryExtendAndFill_spec hok]
      exact (Grows.of_buffer hgrew _).appended

theorem extendFromReader_appended {d : DecodeBuffer B} (h : Wf d.buffer)
    (data : Option (List UInt8)) (n : Nat) : d.Appended (d.extendFromReader data n) := by
  obtain ⟨hwf, hext, -⟩ := reserve_spec n h
  have hreserved : d.Appended { d with buffer := BufferBackend.reserve d.buffer n } :=
    (Grows.of_buffer ⟨hwf, hext⟩ d.totalOutputCounter).appended
  cases data with
  | none => exact hreserved
  | some data => exact hreserved.trans (push_appended hreserved.wf data)

/-- A block, decoded or refused, leaves what was in the buffer and what was handed out of it. -/
theorem decodeBlockContentFromSlice_appended {header : BlockHeader} {w : Workspace B}
    {dict : Option Dictionary} {source : List UInt8} (h : Wf w.buffer.buffer) :
    w.buffer.Appended (decodeBlockContentFromSlice header w dict source).2.1.buffer := by
  simp only [decodeBlockContentFromSlice]
  split
  · split
    · exact .refl h
    · split
      · exact .refl h
      · rename_i fill rest _ _ _
        have hfill := (fill_appended h fill header.decompressedSize).2
        split
        · rename_i o buffer hp
          rw [hp] at hfill
          exact hfill
        · rename_i buffer hp
          rw [hp] at hfill
          exact hfill
  · split
    · exact .refl h
    · split
      · exact .refl h
      · have hpush := tryPush_appended h (source.take header.decompressedSize)
        split
        · rename_i o buffer hp
          rw [hp] at hpush
          exact hpush
        · rename_i buffer hp
          rw [hp] at hpush
          exact hpush
  · split
    · exact .refl h
    · split
      · exact .refl h
      · have hblock := @decompressBlockInplace_appended B _ _ _ w dict
          (source.take header.contentSize) h
        split
        · rename_i e w' hp
          rw [hp] at hblock
          exact hblock
        · rename_i w' hp
          rw [hp] at hblock
          exact hblock

theorem decodeBlockContent_appended {header : BlockHeader} {w : Workspace B}
    {dict : Option Dictionary} {source : Reader} (h : Wf w.buffer.buffer) :
    w.buffer.Appended (decodeBlockContent header w dict source).2.1.buffer := by
  simp only [decodeBlockContent]
  split
  · split
    · split
      · exact .refl h
      · exact (fill_appended h _ _).1
    · exact .refl h
  · split
    · exact .refl h
    · split
      · exact extendFromReader_appended h _ _
      · exact extendFromReader_appended h _ _
  · split
    · exact .refl h
    · split
      · exact .refl h
      · rename_i raw source' _
        have hblock := @decompressBlockInplace_appended B _ _ _ w dict raw h
        split
        · rename_i e w' hp
          rw [hp] at hblock
          exact hblock
        · rename_i w' hp
          rw [hp] at hblock
          exact hblock

end Blocks

end Decoding
