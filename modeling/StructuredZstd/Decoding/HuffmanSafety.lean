import StructuredZstd.Decoding.PartialDecode
import StructuredZstd.Decoding.Dictionary
import StructuredZstd.Huff0.DecoderTable

namespace Decoding

open Huff0.Decoder Runs

/-- A table that can be looked up in. One that has a width without its slots is the work of a
build that failed, which `intact` rules out. -/
def SoundTable (t : HuffmanTable) (intact : Bool) : Prop :=
  t.maxNumBits ≠ 0 → t.Filled ∨ (t.packedDecode = [] ∧ intact = false)

theorem SoundTable.weaken {t : HuffmanTable} {b c : Bool} (h : SoundTable t b)
    (hbc : c = true → b = true) : SoundTable t c := by
  intro hm
  rcases h hm with h | ⟨h, hb⟩
  · exact .inl h
  · refine .inr ⟨h, ?_⟩
    cases c with
    | false => rfl
    | true => rw [hbc rfl] at hb; cases hb

theorem soundTable_new (b : Bool) : SoundTable .new b := fun h => absurd rfl h

theorem soundTable_reset (t : HuffmanTable) (b : Bool) : SoundTable t.reset b :=
  fun h => absurd rfl h

theorem SoundTable.reinitFrom {t other : HuffmanTable} {b : Bool} (h : SoundTable other b) :
    SoundTable (t.reinitFrom other) b := by
  intro hm
  rcases h hm with hf | hf
  · exact .inl ⟨hf.length, hf.pos, hf.le⟩
  · exact .inr hf

/-- The tables of a scratch and of the dictionary it may look at. -/
structure HuffmanScratch.Safe (h : HuffmanScratch) (dict : Option Dictionary) (intact : Bool) :
    Prop where
  own : h.tableSource = .local → SoundTable h.table intact
  ofDict : h.tableSource = .dict → ∃ d, dict = some d ∧ SoundTable d.huf.table true

namespace HuffmanScratch

theorem Safe.weaken {h : HuffmanScratch} {dict : Option Dictionary} {b c : Bool}
    (hs : h.Safe dict b) (hbc : c = true → b = true) : h.Safe dict c where
  own hl := (hs.own hl).weaken hbc
  ofDict := hs.ofDict

theorem Safe.and {h : HuffmanScratch} {dict : Option Dictionary} {b : Bool}
    (hs : h.Safe dict b) (c : Bool) : h.Safe dict (b && c) :=
  hs.weaken fun hbc => (Bool.and_eq_true_iff.mp hbc).1

/-- The table in use, whichever it is. -/
theorem Safe.hufTable {h : HuffmanScratch} {dict : Option Dictionary} {b : Bool}
    (hs : h.Safe dict b) : SoundTable (h.hufTable dict) b := by
  match hsrc : h.tableSource with
  | .local =>
    simp only [HuffmanScratch.hufTable, hsrc]
    exact hs.own hsrc
  | .dict =>
    obtain ⟨d, rfl, hd⟩ := hs.ofDict hsrc
    simp only [HuffmanScratch.hufTable, hsrc]
    exact hd.weaken fun _ => rfl

theorem safe_reset (huf : HuffmanScratch) (fse : FSEScratch) (dict : Option Dictionary)
    (b : Bool) : (resetEntropy huf fse).1.Safe dict b where
  own _ := by
    simp only [resetEntropy, detachDict]
    split
    · exact soundTable_reset _ _
    · rename_i h
      exact fun hm => absurd hm h
  ofDict h := by
    simp only [resetEntropy, detachDict] at h
    cases h

end HuffmanScratch

/-- The errors that tell of a table description that was refused. -/
def DecompressLiteralsError.refusedTable : DecompressLiteralsError → Bool
  | .huffmanTableError _ => true
  | _ => false

def DecompressBlockError.refusedTable : DecompressBlockError → Bool
  | .decompressLiteralsError e => e.refusedTable
  | _ => false

def DecodeBlockContentError.refusedTable : DecodeBlockContentError → Bool
  | .decompressBlockError e => e.refusedTable
  | _ => false

def FrameDecoderError.refusedTable : FrameDecoderError → Bool
  | .failedToReadBlockBodyAt e _ _ _ => e.refusedTable
  | _ => false

/-- Whether a result tells of one. -/
def refused {ε α : Type} (p : ε → Bool) : Except ε α → Bool
  | .error e => p e
  | .ok _ => false

theorem prepareTable_safe (ls : LiteralsSection) {h : HuffmanScratch} {dict : Option Dictionary}
    (source : List UInt8) {b : Bool} (hs : h.Safe dict b) :
    (prepareTable ls h dict source).2.Safe dict
      (b && !refused (·.refusedTable) (prepareTable ls h dict source).1) := by
  unfold prepareTable
  cases hls : ls.lsType with
  | compressed =>
    cases hb : h.table.buildDecoder source with
    | mk result table =>
      cases result with
      | ok n =>
        exact ⟨fun _ _ => .inl (HuffmanTable.buildDecoder_ok hb), fun h => by cases h⟩
      | error e =>
        refine ⟨fun _ _ => .inr ⟨HuffmanTable.buildDecoder_error hb, ?_⟩, hs.ofDict⟩
        simp [refused, DecompressLiteralsError.refusedTable]
  | treeless =>
    simp only
    split
    · exact hs.and _
    · exact hs.and _
  | raw => exact hs.and _
  | rle => exact hs.and _

theorem decompressLiterals_safe (ls : LiteralsSection) {h : HuffmanScratch}
    {dict : Option Dictionary} (source : List UInt8) {b : Bool} (hs : h.Safe dict b) :
    (decompressLiterals ls h dict source).2.Safe dict
      (b && !refused (·.refusedTable) (decompressLiterals ls h dict source).1) := by
  unfold decompressLiterals
  split
  · exact hs.and _
  · exact hs.and _
  · rename_i compressedSize numStreams _ _
    split
    · exact hs.and _
    · have hprep := prepareTable_safe ls (source.take compressedSize) hs
      simp only
      split
      · rename_i e h' he
        rw [he] at hprep
        exact hprep
      · rename_i n h' he
        rw [he] at hprep
        have hb : h'.Safe dict b := by simpa [refused] using hprep
        split
        · exact hb.and _
        · exact hb.and _

theorem decodeLiteralsZerocopy_safe (ls : LiteralsSection) {h : HuffmanScratch}
    {dict : Option Dictionary} (source : List UInt8) (payloadLen : Nat) {b : Bool}
    (hs : h.Safe dict b) :
    (decodeLiteralsZerocopy ls h dict source payloadLen).2.Safe dict
      (b && !refused (·.refusedTable) (decodeLiteralsZerocopy ls h dict source payloadLen).1) := by
  unfold decodeLiteralsZerocopy
  split
  · split <;> exact hs.and _
  · split <;> exact hs.and _
  · exact decompressLiterals_safe ls _ hs
  · exact decompressLiterals_safe ls _ hs

section Blocks

variable {B : Type} [BufferBackend B]

@[simp] theorem executeBlock_huf (w : Workspace B) (dict : Option Dictionary) (blockMaximum : Nat)
    (sections : BlockSections) (literals : List UInt8) :
    (executeBlock w dict blockMaximum sections literals).2.huf = w.huf := by
  simp only [executeBlock]
  repeat' split
  all_goals rfl

theorem decompressBlockInplace_safe {w : Workspace B} {dict : Option Dictionary}
    (raw : List UInt8) {b : Bool} (hs : w.huf.Safe dict b) :
    (decompressBlockInplace w dict raw).2.huf.Safe dict
      (b && !refused (·.refusedTable) (decompressBlockInplace w dict raw).1) := by
  simp only [decompressBlockInplace]
  split
  · exact hs.and _
  · rename_i sections hsec
    have hlit := decodeLiteralsZerocopy_safe sections.literals sections.literalsSource
      sections.literals.payloadLen hs
    split
    · rename_i e huf he
      rw [he] at hlit
      exact hlit
    · rename_i literals n huf he
      rw [he] at hlit
      rw [executeBlock_huf]
      have hb : huf.Safe dict b := by simpa [refused] using hlit
      exact hb.and _

theorem decodeBlockContent_safe (header : BlockHeader) {w : Workspace B}
    {dict : Option Dictionary} (source : Reader) {b : Bool} (hs : w.huf.Safe dict b) :
    (decodeBlockContent header w dict source).2.1.huf.Safe dict
      (b && !refused (·.refusedTable) (decodeBlockContent header w dict source).1) := by
  unfold decodeBlockContent
  split
  · repeat' split
    all_goals exact hs.and _
  · simp only
    repeat' split
    all_goals exact hs.and _
  · split
    · exact hs.and _
    · split
      · exact hs.and _
      · rename_i raw source' _
        have hblock := decompressBlockInplace_safe raw hs
        split
        · rename_i e w' he
          rw [he] at hblock
          exact hblock
        · rename_i w' he
          rw [he] at hblock
          exact hblock

theorem decodeBlockContentFromSlice_safe (header : BlockHeader) {w : Workspace B}
    {dict : Option Dictionary} (source : List UInt8) {b : Bool} (hs : w.huf.Safe dict b) :
    (decodeBlockContentFromSlice header w dict source).2.1.huf.Safe dict
      (b && !refused (·.refusedTable) (decodeBlockContentFromSlice header w dict source).1) := by
  unfold decodeBlockContentFromSlice
  split
  · repeat' split
    all_goals exact hs.and _
  · simp only
    repeat' split
    all_goals exact hs.and _
  · split
    · exact hs.and _
    · simp only
      split
      · exact hs.and _
      · have hblock := decompressBlockInplace_safe (source.take header.contentSize) hs
        split
        · rename_i e w' he
          rw [he] at hblock
          exact hblock
        · rename_i w' he
          rw [he] at hblock
          exact hblock

end Blocks

/-- The tables a frame decodes with. -/
def FrameDecoderState.Safe (s : FrameDecoderState) (intact : Bool) : Prop :=
  s.decoderScratch.huf.Safe s.dictRef intact

namespace DecoderScratchKind

@[simp] theorem mapBuffer_huf (k : DecoderScratchKind)
    (f : ∀ {B : Type} [BufferBackend B], DecodeBuffer B → DecodeBuffer B) :
    (k.mapBuffer f).huf = k.huf := by
  cases k <;> rfl

@[simp] theorem runBuffer_huf {α : Type} (k : DecoderScratchKind)
    (f : ∀ {B : Type} [BufferBackend B], DecodeBuffer B → α × DecodeBuffer B) :
    (k.runBuffer f).2.huf = k.huf := by
  cases k <;> rfl

@[simp] theorem reserveBuffer_huf (k : DecoderScratchKind) (target growthLimit : Nat) :
    (k.reserveBuffer target growthLimit).huf = k.huf := by
  cases k <;> rfl

theorem decodeBlockContent_safe (k : DecoderScratchKind) (header : BlockHeader)
    {dict : Option Dictionary} (source : Reader) {b : Bool} (hs : k.huf.Safe dict b) :
    (k.decodeBlockContent header dict source).2.1.huf.Safe dict
      (b && !refused (·.refusedTable) (k.decodeBlockContent header dict source).1) := by
  cases k with
  | ring w => exact Decoding.decodeBlockContent_safe header source hs
  | flat w => exact Decoding.decodeBlockContent_safe header source hs

theorem decodeBlockContentFromSlice_safe (k : DecoderScratchKind) (header : BlockHeader)
    {dict : Option Dictionary} (source : List UInt8) {b : Bool} (hs : k.huf.Safe dict b) :
    (k.decodeBlockContentFromSlice header dict source).2.1.huf.Safe dict
      (b && !refused (·.refusedTable) (k.decodeBlockContentFromSlice header dict source).1) := by
  cases k with
  | ring w => exact Decoding.decodeBlockContentFromSlice_safe header source hs
  | flat w => exact Decoding.decodeBlockContentFromSlice_safe header source hs

theorem reset_safe (k : DecoderScratchKind) (frame : FrameHeader) (windowSize : Nat)
    (dict : Option Dictionary) (b : Bool) : (k.reset frame windowSize).huf.Safe dict b := by
  have hnew : HuffmanScratch.new.Safe dict b :=
    ⟨fun _ => soundTable_new b, fun h => by cases h⟩
  simp only [reset]
  split
  · cases k with
    | ring w => exact hnew
    | flat w => exact HuffmanScratch.safe_reset w.huf w.fse dict b
  · cases k with
    | ring w => exact HuffmanScratch.safe_reset w.huf w.fse dict b
    | flat w => exact hnew

end DecoderScratchKind

namespace FrameDecoderState

theorem Safe.weaken {s : FrameDecoderState} {b c : Bool} (h : s.Safe b)
    (hbc : c = true → b = true) : s.Safe c :=
  HuffmanScratch.Safe.weaken h hbc

theorem Safe.and {s : FrameDecoderState} {b : Bool} (h : s.Safe b) (c : Bool) : s.Safe (b && c) :=
  HuffmanScratch.Safe.and h c

/-- Whatever keeps the tables and the dictionary keeps them safe. -/
theorem Safe.of_eq {s s' : FrameDecoderState} {b : Bool} (h : s.Safe b)
    (hhuf : s'.decoderScratch.huf = s.decoderScratch.huf) (hdict : s'.dictRef = s.dictRef) :
    s'.Safe b := by
  rw [FrameDecoderState.Safe, hhuf, hdict]
  exact h

theorem Safe.setComputeHash {s : FrameDecoderState} {b : Bool} (h : s.Safe b)
    (mode : ContentChecksum) : (s.setComputeHash mode).Safe b :=
  h.of_eq (by simp [FrameDecoderState.setComputeHash, DecoderScratchKind.setComputeHash]) rfl

theorem Safe.reserveDecodingBuffer {s : FrameDecoderState} {b : Bool} (h : s.Safe b) :
    s.reserveDecodingBuffer.Safe b :=
  h.of_eq (by simp [FrameDecoderState.reserveDecodingBuffer,
    DecoderScratchKind.setDeclaredContent]) rfl

theorem Safe.attachDict (s : FrameDecoderState) {dict : Dictionary} {b : Bool}
    (h : SoundTable dict.huf.table true) : (s.attachDict dict).Safe b := by
  have hsrc : (s.decoderScratch.initFromDict dict).huf.tableSource = .dict := by
    cases s.decoderScratch <;> rfl
  refine ⟨fun hl => ?_, fun _ => ⟨dict, rfl, h⟩⟩
  rw [FrameDecoderState.attachDict, hsrc] at hl
  cases hl

theorem Safe.finishFrame {s : FrameDecoderState} {b : Bool} (h : s.Safe b) (source : Reader) :
    (s.finishFrame source).2.1.Safe b := by
  simp only [FrameDecoderState.finishFrame]
  repeat' split
  all_goals exact h

theorem Safe.readBlock {s s' : FrameDecoderState} {b : Bool} (h : s.Safe b)
    {source source' : Reader} {result : Except FrameDecoderError BlockHeader}
    (he : s.readBlock source = (result, s', source')) :
    s'.Safe (b && !refused (·.refusedTable) result) := by
  simp only [FrameDecoderState.readBlock] at he
  split at he
  · cases he
    exact h.and _
  · rename_i header source1 _
    have hblock := s.decoderScratch.decodeBlockContent_safe header source1 h
    have hdict : ({ s with bytesReadCounter := s.bytesReadCounter + 3 }).dictRef = s.dictRef := rfl
    rw [hdict] at he
    split at he
    · rename_i hc
      rw [hc] at hblock
      cases he
      exact hblock
    · rename_i hc
      rw [hc] at hblock
      cases he
      exact hblock

theorem Safe.enterBlock {s : FrameDecoderState} {b : Bool} (h : s.Safe b) (reserveWindow : Bool) :
    (s.enterBlock reserveWindow).Safe b := by
  have hcount : ({ s with bytesReadCounter := s.bytesReadCounter + 3 }).Safe b := h
  simp only [FrameDecoderState.enterBlock]
  split
  · exact hcount.reserveDecodingBuffer
  · exact hcount

theorem Safe.readAvailableBlock {s s' : FrameDecoderState} {b : Bool} (h : s.Safe b)
    {reserveWindow : Bool} {header : BlockHeader} {source source' : List UInt8}
    {result : Except FrameDecoderError Unit}
    (he : s.readAvailableBlock reserveWindow header source = (result, s', source')) :
    s'.Safe (b && !refused (·.refusedTable) result) := by
  simp only [FrameDecoderState.readAvailableBlock] at he
  have hblock := (s.enterBlock reserveWindow).decoderScratch.decodeBlockContentFromSlice_safe
    header source (h.enterBlock reserveWindow)
  split at he
  · rename_i hc
    rw [hc] at hblock
    cases he
    exact hblock
  · rename_i hc
    rw [hc] at hblock
    cases he
    exact hblock

theorem decodeBlocksBody_safe (strat : BlockDecodingStrategy) (blocksBefore bytesBefore : Nat)
    {b : Bool} :
    (∀ x y, x.1.Safe b → decodeBlocksBody strat blocksBefore bytesBefore x = .again y →
      y.1.Safe b) ∧
    (∀ x r, x.1.Safe b → decodeBlocksBody strat blocksBefore bytesBefore x = .done r →
      r.2.1.Safe (b && !refused (·.refusedTable) r.1)) := by
  constructor
  · rintro ⟨s, source⟩ y h hy
    simp only [decodeBlocksBody] at hy
    split at hy
    · cases hy
    · rename_i he
      repeat' split at hy
      all_goals cases hy
      simpa [refused] using h.readBlock he
  · rintro ⟨s, source⟩ r h hr
    simp only [decodeBlocksBody] at hr
    split at hr
    · rename_i he
      cases hr
      exact h.readBlock he
    · rename_i s' source' he
      have hs' : s'.Safe b := by simpa [refused] using h.readBlock he
      repeat' split at hr
      all_goals cases hr
      · exact (hs'.finishFrame source').and _
      · exact hs'.and _

theorem Safe.drainInto {s : FrameDecoderState} {b : Bool} (h : s.Safe b) (room : Nat) :
    (s.drainInto room).2.2.Safe b :=
  h.of_eq (by simp [FrameDecoderState.drainInto]) rfl

theorem Safe.finishFrameFromSlice {s : FrameDecoderState} {b : Bool} (h : s.Safe b)
    (source : List UInt8) : (s.finishFrameFromSlice source).Safe b := by
  simp only [FrameDecoderState.finishFrameFromSlice]
  split <;> exact h

theorem Safe.lateChecksum {s : FrameDecoderState} {b : Bool} (h : s.Safe b)
    (source : List UInt8) : (s.lateChecksum source).1.Safe b := by
  simp only [FrameDecoderState.lateChecksum]
  split <;> exact h

theorem availableBody_safe (reserveWindow : Bool) (targetLen : Nat) {b : Bool} :
    (∀ x y, x.state.Safe b → availableBody reserveWindow targetLen x = .again y →
      y.state.Safe b) ∧
    (∀ x r, x.state.Safe b → availableBody reserveWindow targetLen x = .done r →
      r.2.Safe (b && !refused (·.refusedTable) r.1)) := by
  constructor
  · intro x y h hy
    simp only [availableBody] at hy
    repeat' split at hy
    all_goals cases hy
    rename_i he _
    simpa [refused] using (h.drainInto _).readAvailableBlock he
  · intro x r h hr
    have hd := h.drainInto (targetLen - x.written.length)
    simp only [availableBody] at hr
    repeat' split at hr
    all_goals cases hr
    · exact h.and _
    · exact hd.and _
    · exact hd.and _
    · exact hd.and _
    · rename_i he
      exact hd.readAvailableBlock he
    · rename_i s' rest' he _
      have hs' : s'.Safe b := by simpa [refused] using hd.readAvailableBlock he
      exact (hs'.finishFrameFromSlice rest').and _
    · exact hd.and _

/-- Whether a range stopped at a table description that was refused. -/
def stoppedRefused (stoppedAt : Option (Nat × FrameDecoderError)) : Bool :=
  stoppedAt.any (·.2.refusedTable)

theorem partialBody_safe (start endBlock : Nat) {b : Bool} :
    (∀ x y, x.state.Safe b → partialBody start endBlock x = .again y → y.state.Safe b) ∧
    (∀ x r, x.state.Safe b → partialBody start endBlock x = .done r →
      r.state.Safe (b && !stoppedRefused r.progress.stoppedAt)) := by
  constructor
  · intro x y h hy
    simp only [partialBody] at hy
    split at hy
    · cases hy
    · split at hy
      · cases hy
      · rename_i s' source' he
        have hs' : s'.Safe b := by simpa [refused] using h.readBlock he
        split at hy
        · split at hy <;> cases hy
        · cases hy
          dsimp only
          split
          · exact hs'
          · exact hs'.of_eq (by simp) rfl
  · intro x r h hr
    simp only [partialBody] at hr
    split at hr
    · cases hr
      exact h.and _
    · split at hr
      · rename_i he
        cases hr
        exact h.readBlock he
      · rename_i s' source' he
        have hs' : s'.Safe b := by simpa [refused] using h.readBlock he
        have hf := hs'.finishFrame source'
        split at hr
        · split at hr
          · rename_i hfin
            rw [hfin] at hf
            cases hr
            exact hf.and _
          · rename_i hfin
            rw [hfin] at hf
            cases hr
            exact hf.and _
        · cases hr

/-- Restored tables are copies of the ones in the state, and local. -/
theorem Safe.resumeFrom (s : FrameDecoderState) {state : ResumeState} {b : Bool}
    (h : state.huf.Safe none b) (prime : List UInt8) : (s.resumeFrom state prime).Safe b := by
  have hhuf : ∀ k : DecoderScratchKind,
      (k.restoreEntropy state).huf = k.huf.reinitResolvedFrom state.huf none := by
    intro k
    cases k <;> rfl
  have hsafe : ∀ huf : HuffmanScratch, ∀ dict,
      (huf.reinitResolvedFrom state.huf none).Safe dict b :=
    fun huf dict => ⟨fun _ => h.hufTable.reinitFrom, fun hd => by cases hd⟩
  rw [FrameDecoderState.Safe, FrameDecoderState.resumeFrom,
    DecoderScratchKind.mapBuffer_huf, hhuf]
  exact hsafe _ _

theorem checkResume_safe {xxh64 : List UInt8 → Nat} {s s' : FrameDecoderState}
    {magicless : Bool} {endBlock : Nat} {r : ResumeInput} {b : Bool}
    (h : r.state.huf.Safe none b)
    (he : s.checkResume xxh64 magicless endBlock r = .ok s') : s'.Safe b := by
  simp only [checkResume] at he
  repeat' split at he
  all_goals cases he
  exact Safe.resumeFrom s h _

theorem finishPartial_safe (xxh64 : List UInt8 → Nat) {s : FrameDecoderState} {b : Bool}
    (h : s.Safe b) (magicless emitResume : Bool) (start : Nat) (p : PartialProgress) :
    (s.finishPartial xxh64 magicless emitResume start p).2.Safe b ∧
    ∀ state, (s.finishPartial xxh64 magicless emitResume start p).1.resumeState = some state →
      state.huf.Safe none b := by
  constructor
  · exact h.of_eq (by simp [FrameDecoderState.finishPartial, DecoderScratchKind.bufferReadAll]) rfl
  · intro state hstate
    simp only [FrameDecoderState.finishPartial] at hstate
    split at hstate
    · cases hstate
      exact ⟨fun _ => h.hufTable.reinitFrom, fun hd => by cases hd⟩
    · cases hstate

end FrameDecoderState

theorem Dictionary.decodeTables_sound {id : Nat} {raw : List UInt8} {d : Dictionary}
    (h : Dictionary.decodeTables id raw = .ok d) : SoundTable d.huf.table true := by
  simp only [Dictionary.decodeTables, bind, Except.bind] at h
  split at h
  · cases h
  · rename_i built hbuilt
    have hsound : SoundTable built.1.table true := by
      simp only [Dictionary.buildHuf] at hbuilt
      split at hbuilt
      · cases hbuilt
      · rename_i hb
        cases hbuilt
        exact fun _ => .inl (HuffmanTable.buildDecoder_ok hb)
    repeat' split at h
    all_goals cases h
    exact hsound

/-- A dictionary's table is empty or was built. -/
theorem Dictionary.Made.sound {d : Dictionary} (h : d.Made) : SoundTable d.huf.table true := by
  cases h with
  | raw id content => exact soundTable_new true
  | decoded hdec =>
    simp only [Dictionary.decodeDict] at hdec
    split at hdec
    · cases hdec
    · split at hdec
      · cases hdec
      · split at hdec
        · cases hdec
        · exact Dictionary.decodeTables_sound hdec

end Decoding
