import StructuredZstd.Decoding.HuffmanSafety

namespace Decoding

open Huff0.Decoder Runs

namespace FrameDecoder

/-- The tables of a decoder's frame and of the dictionaries it has. -/
structure Safe (d : FrameDecoder) (intact : Bool) : Prop where
  state : ∀ s, d.state = some s → s.Safe intact
  dicts : ∀ dictId dict, d.registeredDict dictId = some dict → SoundTable dict.huf.table true

theorem Safe.weaken {d : FrameDecoder} {b c : Bool} (h : d.Safe b) (hbc : c = true → b = true) :
    d.Safe c where
  state s hs := (h.state s hs).weaken hbc
  dicts := h.dicts

theorem Safe.and {d : FrameDecoder} {b : Bool} (h : d.Safe b) (c : Bool) : d.Safe (b && c) :=
  h.weaken fun hbc => (Bool.and_eq_true_iff.mp hbc).1

theorem Safe.withState {d : FrameDecoder} {b c : Bool} (h : d.Safe b) {s : FrameDecoderState}
    (hs : s.Safe c) : ({ d with state := some s }).Safe c where
  state s' he := by
    cases he
    exact hs
  dicts := h.dicts

theorem stateForHeader_safe {d : FrameDecoder} {frame : FrameHeader} {headerSize maxWindow : Nat}
    {s : FrameDecoderState} (h : d.stateForHeader frame headerSize maxWindow = .ok s) (b : Bool) :
    s.Safe b := by
  simp only [stateForHeader] at h
  split at h
  · simp only [FrameDecoderState.resetWithParsedHeader, bind, Except.bind] at h
    split at h
    · cases h
    · cases h
      simp only [FrameDecoderState.Safe, DecoderScratchKind.setBlockLimit,
        DecoderScratchKind.mapBuffer_huf]
      exact DecoderScratchKind.reset_safe _ _ _ _ b
  · simp only [FrameDecoderState.newWithParsedHeader, bind, Except.bind] at h
    split at h
    · cases h
    · cases h
      simp only [FrameDecoderState.Safe, DecoderScratchKind.setBlockLimit,
        DecoderScratchKind.mapBuffer_huf]
      split
      · exact ⟨fun _ => soundTable_new b, fun h => by cases h⟩
      · exact ⟨fun _ => soundTable_new b, fun h => by cases h⟩

theorem Safe.attachNamedDict {d : FrameDecoder} {b c : Bool} (h : d.Safe b)
    {s : FrameDecoderState} (hs : s.Safe c) : (d.attachNamedDict s).2.Safe c := by
  simp only [FrameDecoder.attachNamedDict]
  split
  · exact h.withState hs
  · split
    · exact h.withState hs
    · split
      · exact h.withState hs
      · rename_i hdict
        exact h.withState (FrameDecoderState.Safe.attachDict s (h.dicts _ _ hdict))

theorem dictionaryForFrame_mem {dicts : List Dictionary} {dictId : Option Nat}
    {dict : Dictionary} (h : dictionaryForFrame dicts dictId = some dict) : dict ∈ dicts := by
  simp only [dictionaryForFrame] at h
  split at h
  · rename_i dict' hfind
    cases h
    obtain ⟨id, _, hid⟩ := Option.bind_eq_some_iff.mp hfind
    exact List.mem_reverse.mp (List.mem_of_find?_eq_some hid)
  · exact List.mem_of_getLast? h

theorem Safe.attachGivenDict {d : FrameDecoder} {b c : Bool} (h : d.Safe b)
    {s : FrameDecoderState} (hs : s.Safe c) {dicts : List Dictionary}
    (hd : ∀ dict ∈ dicts, dict.Made) : (d.attachGivenDict s dicts).2.Safe c := by
  simp only [FrameDecoder.attachGivenDict]
  split
  · exact h.withState hs
  · split
    · exact h.withState hs
    · rename_i dict hdict
      split
      · exact h.withState hs
      · exact h.withState
          (FrameDecoderState.Safe.attachDict s (hd dict (dictionaryForFrame_mem hdict)).sound)

/-- A reset that succeeds leaves nothing of the tables there were. -/
theorem Safe.reset {d : FrameDecoder} {b : Bool} (h : d.Safe b) (source : Reader) :
    (d.reset source).2.1.Safe (b || (d.reset source).1.isOk) := by
  simp only [FrameDecoder.reset]
  split
  · simpa [Except.isOk, Except.toBool] using h
  · split
    · simpa [Except.isOk, Except.toBool] using h
    · rename_i hs
      exact h.attachNamedDict (stateForHeader_safe hs _)

theorem Safe.resetWithDictHandles {d : FrameDecoder} {b : Bool} (h : d.Safe b) (source : Reader)
    {dicts : List Dictionary} (hd : ∀ dict ∈ dicts, dict.Made) :
    (d.resetWithDictHandles source dicts).2.1.Safe
      (b || (d.resetWithDictHandles source dicts).1.isOk) := by
  simp only [FrameDecoder.resetWithDictHandles]
  split
  · exact h.reset source
  · split
    · simpa [Except.isOk, Except.toBool] using h
    · split
      · simpa [Except.isOk, Except.toBool] using h
      · split
        · simpa [Except.isOk, Except.toBool] using h
        · rename_i hs
          exact h.attachGivenDict (stateForHeader_safe hs _) hd

theorem Safe.forceDict {d : FrameDecoder} {b : Bool} (h : d.Safe b) (dictId : Nat) :
    (d.forceDict dictId).2.Safe (b || (d.forceDict dictId).1.isOk) := by
  simp only [FrameDecoder.forceDict]
  split
  · simpa [Except.isOk, Except.toBool] using h
  · split
    · simpa [Except.isOk, Except.toBool] using h
    · rename_i hdict
      exact h.withState (FrameDecoderState.Safe.attachDict _ (h.dicts _ _ hdict))

theorem Safe.addDict {d : FrameDecoder} {b : Bool} (h : d.Safe b) {dict : Dictionary}
    (hd : dict.Made) : (d.addDict dict).2.Safe b ∧ (d.addDictHandle dict).2.Safe b := by
  have hfind : ∀ (dicts : List Dictionary) (dictId : Nat) (x : Dictionary),
      (dicts ++ [dict]).find? (·.id = dictId) = some x →
        dicts.find? (·.id = dictId) = some x ∨ x = dict := by
    intro dicts dictId x hx
    rw [List.find?_append, Option.or_eq_some_iff] at hx
    rcases hx with hx | ⟨_, hx⟩
    · exact .inl hx
    · exact .inr (by simpa using List.mem_of_find?_eq_some hx)
  constructor
  · simp only [FrameDecoder.addDict]
    repeat' split
    · exact h
    · exact h
    · refine ⟨h.state, fun dictId x hx => ?_⟩
      simp only [registeredDict] at hx
      split at hx
      · rename_i hown
        cases hx
        rcases hfind _ _ _ hown with hx | rfl
        · exact h.dicts dictId x (by simp only [registeredDict, hx])
        · exact hd.sound
      · rename_i hown
        rw [List.find?_append, Option.or_eq_none_iff] at hown
        exact h.dicts dictId x (by simp only [registeredDict, hown.1, hx])
  · simp only [addDictHandle]
    repeat' split
    · exact h
    · exact h
    · refine ⟨h.state, fun dictId x hx => ?_⟩
      simp only [registeredDict] at hx
      split at hx
      · rename_i hown
        exact h.dicts dictId x (by simp only [registeredDict, hown, hx])
      · rename_i hown
        rcases hfind _ _ _ hx with hx | rfl
        · exact h.dicts dictId x (by simp only [registeredDict, hown, hx])
        · exact hd.sound

theorem Safe.read {d : FrameDecoder} {b : Bool} (h : d.Safe b) (targetLen : Nat) :
    (d.read targetLen).2.Safe b := by
  simp only [FrameDecoder.read]
  split
  · exact h
  · rename_i s hs
    refine h.withState ((h.state s hs).of_eq ?_ rfl)
    dsimp only
    split
    · exact DecoderScratchKind.runBuffer_huf _ _
    · exact DecoderScratchKind.runBuffer_huf _ _

theorem Safe.collect {d : FrameDecoder} {b : Bool} (h : d.Safe b) : d.collect.2.Safe b := by
  simp only [FrameDecoder.collect]
  split
  · exact h
  · rename_i s hs
    refine h.withState ((h.state s hs).of_eq ?_ rfl)
    dsimp only
    split
    · exact DecoderScratchKind.runBuffer_huf _ _
    · exact DecoderScratchKind.runBuffer_huf _ _

theorem Safe.setMaxWindowSize {d : FrameDecoder} {b : Bool} (h : d.Safe b) (size : Nat) :
    (d.setMaxWindowSize size).Safe b := by
  simp only [FrameDecoder.setMaxWindowSize]
  split
  · exact h
  · refine ⟨fun s hs => ?_, h.dicts⟩
    obtain ⟨s0, hs0, rfl⟩ := Option.map_eq_some_iff.mp hs
    split
    · exact h.state s0 hs0
    · exact h.state s0 hs0

theorem Safe.beginBlocks {d : FrameDecoder} {s : FrameDecoderState} {b : Bool} (h : s.Safe b) :
    (d.beginBlocks s).Safe b :=
  (h.setComputeHash _).reserveDecodingBuffer

theorem Safe.decodeBlocks {d : FrameDecoder} {b : Bool} (h : d.Safe b) (source : Reader)
    (strat : BlockDecodingStrategy) :
    (d.decodeBlocks source strat).2.1.Safe
      (b && !refused (·.refusedTable) (d.decodeBlocks source strat).1) := by
  simp only [FrameDecoder.decodeBlocks]
  split
  · exact h.and _
  · split
    · exact h.and _
    · rename_i s hs
      have hbegin : (d.beginBlocks s).Safe b := Safe.beginBlocks (h.state s hs)
      have hbody := FrameDecoderState.decodeBlocksBody_safe strat (d.beginBlocks s).blockCounter
        (d.beginBlocks s).decoderScratch.bufferLen (b := b)
      have hloop := loop_getD_post hbody.1 hbody.2 (source.bytes.length + 1)
        (s := (d.beginBlocks s, source)) (r := (.ok (), d.beginBlocks s, source)) hbegin
        (hbegin.and _)
      rw [FrameDecoderState.decodeBlocksLoop]
      split
      · rename_i he
        rw [he] at hloop
        exact h.withState hloop
      · rename_i he
        rw [he] at hloop
        exact h.withState hloop

theorem availableBlocks_safe (d : FrameDecoder) {s : FrameDecoderState} {b : Bool} (hs : s.Safe b)
    (source : List UInt8) (targetLen : Nat) (reserveWindow : Bool) :
    (d.availableBlocks s source targetLen reserveWindow).2.Safe
      (b && !refused (·.refusedTable)
        (d.availableBlocks s source targetLen reserveWindow).1) := by
  have hlate := (hs.setComputeHash d.contentChecksum).lateChecksum source
  have hbody := FrameDecoderState.availableBody_safe reserveWindow targetLen (b := b)
  simp only [availableBlocks]
  split
  · exact hs.and _
  · rw [FrameDecoderState.availableLoop]
    apply loop_getD_post (P := fun r => r.2.Safe (b && !refused (·.refusedTable) r.1))
      hbody.1 hbody.2
    · exact hlate
    · exact hlate.and _

theorem Safe.decodeAvailableFrom {d : FrameDecoder} {b : Bool} (h : d.Safe b)
    {s : FrameDecoderState} (hs : s.Safe b) (start : Nat) (source : List UInt8) (targetLen : Nat)
    (reserveWindow : Bool) :
    (d.decodeAvailableFrom s start source targetLen reserveWindow).2.Safe
      (b && !refused (·.refusedTable)
        (d.decodeAvailableFrom s start source targetLen reserveWindow).1) := by
  have hblocks := availableBlocks_safe d hs source targetLen reserveWindow
  simp only [FrameDecoder.decodeAvailableFrom]
  split
  · rename_i he
    rw [he] at hblocks
    exact h.withState hblocks
  · rename_i he
    rw [he] at hblocks
    exact (h.withState hblocks).read _

theorem Safe.decodeAvailable {d : FrameDecoder} {b : Bool} (h : d.Safe b) (source : List UInt8)
    (targetLen : Nat) (reserveWindow : Bool) :
    (d.decodeAvailable source targetLen reserveWindow).2.Safe
      (b && !refused (·.refusedTable) (d.decodeAvailable source targetLen reserveWindow).1) := by
  simp only [FrameDecoder.decodeAvailable]
  split
  · exact h.and _
  · split
    · rename_i s hs
      exact h.decodeAvailableFrom (h.state s hs) _ _ _ _
    · have hreset := h.reset ⟨source, source.length⟩
      split
      · rename_i he
        rw [he] at hreset
        exact (hreset.weaken (by simp +contextual)).and _
      · rename_i he
        rw [he] at hreset
        have hb := hreset.weaken (c := b) (by simp [Except.isOk, Except.toBool])
        split
        · rename_i s hs
          exact hb.decodeAvailableFrom (hb.state s hs) _ _ _ _
        · exact hb.and _

/-- The checks behind `decode_available` refuse no table. -/
theorem Safe.decodeFromTo {d : FrameDecoder} {b : Bool} (h : d.Safe b)
    (xxh64 : List UInt8 → Nat) (source : List UInt8) (targetLen : Nat) :
    (d.decodeFromTo xxh64 source targetLen).2.Safe
      (b && !refused (·.refusedTable) (d.decodeFromTo xxh64 source targetLen).1) := by
  have hav := h.decodeAvailable source targetLen false
  simp only [FrameDecoder.decodeFromTo]
  split
  · rename_i he
    rw [he] at hav
    exact hav
  · rename_i d' he
    rw [he] at hav
    have hb : d'.Safe b := by simpa [refused] using hav
    repeat' split
    all_goals exact hb.and _

theorem partialStart_safe {xxh64 : List UInt8 → Nat} {d : FrameDecoder}
    {s s' : FrameDecoderState} {startBlock endBlock start : Nat} {resume : Option ResumeInput}
    {b c : Bool} (hs : s.Safe b) (hr : ∀ r, resume = some r → r.state.huf.Safe none c)
    (he : d.partialStart xxh64 s startBlock endBlock resume = .ok (start, s')) :
    s'.Safe (b && c) := by
  cases resume with
  | none =>
    simp only [partialStart] at he
    split at he
    · cases he
    · cases he
      exact hs.and _
  | some r =>
    simp only [partialStart, bind, Except.bind] at he
    split at he
    · cases he
    · rename_i hcheck
      cases he
      exact (FrameDecoderState.checkResume_safe (hr r rfl) hcheck).weaken
        fun h => (Bool.and_eq_true_iff.mp h).2

/-- How a call of `decode_blocks_partial` ended. -/
def partialRefused : Except FrameDecoderError PartialDecode → Bool
  | .error _ => false
  | .ok p => FrameDecoderState.stoppedRefused p.stoppedAt

theorem Safe.decodeBlocksPartial {d : FrameDecoder} {b c : Bool} (h : d.Safe b)
    (xxh64 : List UInt8 → Nat) (source : Reader) (startBlock endBlock : Nat)
    {resume : Option ResumeInput} (hr : ∀ r, resume = some r → r.state.huf.Safe none c)
    (emitResume : Bool) :
    let call := d.decodeBlocksPartial xxh64 source startBlock endBlock resume emitResume
    call.2.1.Safe (b && c && !partialRefused call.1) ∧
      ∀ p state, call.1 = .ok p → p.resumeState = some state →
        state.huf.Safe none (b && c && !partialRefused call.1) := by
  have hb : d.Safe (b && c) := h.and c
  simp only [FrameDecoder.decodeBlocksPartial]
  split
  · exact ⟨hb.and _, fun _ _ hp => by cases hp⟩
  · split
    · exact ⟨hb.and _, fun _ _ hp => by cases hp⟩
    · rename_i s hs
      have hset := (h.state s hs).setComputeHash d.contentChecksum
      have hres := hset.reserveDecodingBuffer
      split
      · exact ⟨(h.withState (hset.and c)).and _, fun _ _ hp => by cases hp⟩
      · split
        · exact ⟨(h.withState (hres.and c)).and _, fun _ _ hp => by cases hp⟩
        · rename_i start s' hstart
          have hs' := partialStart_safe hres hr hstart
          have hbody := FrameDecoderState.partialBody_safe start endBlock (b := b && c)
          have hloop := loop_getD_post (P := fun r : PartialState =>
            r.state.Safe (b && c && !FrameDecoderState.stoppedRefused r.progress.stoppedAt))
            hbody.1 hbody.2 (source.bytes.length + 1) (s := ⟨s', source, {}⟩)
            (r := ⟨s', source, {}⟩) hs' (hs'.and _)
          have hfin := FrameDecoderState.finishPartial_safe xxh64 hloop d.magicless emitResume
            start (s'.partialLoop start endBlock source).progress
          refine ⟨h.withState hfin.1, fun p state hp hstate => ?_⟩
          cases hp
          exact hfin.2 state hstate

end FrameDecoder

/-- What calls leave behind: a decoder, or a state to resume a frame from. -/
inductive Artefact where
  | decoder (d : FrameDecoder)
  | resume (state : ResumeState)

/-- What any calls on decoders lead to, in any order and after any errors. The flag says that no
table description was refused since the tables were last reset or replaced. -/
inductive Reached (xxh64 : List UInt8 → Nat) : Artefact → Bool → Prop where
  | new : Reached xxh64 (.decoder .new) true
  | decodeBlocks {d : FrameDecoder} {b : Bool} (source : Reader) (strat : BlockDecodingStrategy) :
      Reached xxh64 (.decoder d) b →
      Reached xxh64 (.decoder (d.decodeBlocks source strat).2.1)
        (b && !refused (·.refusedTable) (d.decodeBlocks source strat).1)
  | decodeAvailable {d : FrameDecoder} {b : Bool} (source : List UInt8) (targetLen : Nat)
      (reserveWindow : Bool) :
      Reached xxh64 (.decoder d) b →
      Reached xxh64 (.decoder (d.decodeAvailable source targetLen reserveWindow).2)
        (b && !refused (·.refusedTable) (d.decodeAvailable source targetLen reserveWindow).1)
  | decodeFromTo {d : FrameDecoder} {b : Bool} (source : List UInt8) (targetLen : Nat) :
      Reached xxh64 (.decoder d) b →
      Reached xxh64 (.decoder (d.decodeFromTo xxh64 source targetLen).2)
        (b && !refused (·.refusedTable) (d.decodeFromTo xxh64 source targetLen).1)
  | decodeBlocksPartial {d : FrameDecoder} {b c : Bool} (source : Reader)
      (startBlock endBlock : Nat) (resume : Option ResumeInput) (emitResume : Bool) :
      Reached xxh64 (.decoder d) b →
      (∀ r, resume = some r → Reached xxh64 (.resume r.state) c) →
      Reached xxh64
        (.decoder (d.decodeBlocksPartial xxh64 source startBlock endBlock resume emitResume).2.1)
        (b && c && !FrameDecoder.partialRefused
          (d.decodeBlocksPartial xxh64 source startBlock endBlock resume emitResume).1)
  | emitted {d : FrameDecoder} {b c : Bool} (source : Reader) (startBlock endBlock : Nat)
      (resume : Option ResumeInput) (emitResume : Bool) {p : PartialDecode}
      {state : ResumeState} :
      Reached xxh64 (.decoder d) b →
      (∀ r, resume = some r → Reached xxh64 (.resume r.state) c) →
      (d.decodeBlocksPartial xxh64 source startBlock endBlock resume emitResume).1 = .ok p →
      p.resumeState = some state →
      Reached xxh64 (.resume state) (b && c && !FrameDecoder.partialRefused
        (d.decodeBlocksPartial xxh64 source startBlock endBlock resume emitResume).1)
  | reset {d : FrameDecoder} {b : Bool} (source : Reader) :
      Reached xxh64 (.decoder d) b →
      Reached xxh64 (.decoder (d.reset source).2.1) (b || (d.reset source).1.isOk)
  | resetWithDictHandles {d : FrameDecoder} {b : Bool} (source : Reader)
      (dicts : List Dictionary) :
      (∀ dict ∈ dicts, dict.Made) → Reached xxh64 (.decoder d) b →
      Reached xxh64 (.decoder (d.resetWithDictHandles source dicts).2.1)
        (b || (d.resetWithDictHandles source dicts).1.isOk)
  | forceDict {d : FrameDecoder} {b : Bool} (dictId : Nat) :
      Reached xxh64 (.decoder d) b →
      Reached xxh64 (.decoder (d.forceDict dictId).2) (b || (d.forceDict dictId).1.isOk)
  | addDict {d : FrameDecoder} {b : Bool} (dict : Dictionary) :
      dict.Made → Reached xxh64 (.decoder d) b → Reached xxh64 (.decoder (d.addDict dict).2) b
  | addDictHandle {d : FrameDecoder} {b : Bool} (dict : Dictionary) :
      dict.Made → Reached xxh64 (.decoder d) b →
      Reached xxh64 (.decoder (d.addDictHandle dict).2) b
  | read {d : FrameDecoder} {b : Bool} (targetLen : Nat) :
      Reached xxh64 (.decoder d) b → Reached xxh64 (.decoder (d.read targetLen).2) b
  | collect {d : FrameDecoder} {b : Bool} :
      Reached xxh64 (.decoder d) b → Reached xxh64 (.decoder d.collect.2) b
  | setMaxWindowSize {d : FrameDecoder} {b : Bool} (size : Nat) :
      Reached xxh64 (.decoder d) b → Reached xxh64 (.decoder (d.setMaxWindowSize size)) b

/-- The invariant of a run. -/
def Artefact.Safe : Artefact → Bool → Prop
  | .decoder d, b => d.Safe b
  | .resume state, b => state.huf.Safe none b

theorem Reached.safe {xxh64 : List UInt8 → Nat} {x : Artefact} {b : Bool}
    (h : Reached xxh64 x b) : x.Safe b := by
  induction h with
  | new => exact ⟨fun s hs => (by cases hs), fun dictId dict hd => (by cases hd)⟩
  | decodeBlocks source strat _ ih => exact ih.decodeBlocks source strat
  | decodeAvailable source targetLen reserveWindow _ ih =>
    exact ih.decodeAvailable source targetLen reserveWindow
  | decodeFromTo source targetLen _ ih => exact ih.decodeFromTo xxh64 source targetLen
  | decodeBlocksPartial source startBlock endBlock resume emitResume _ _ ih ihr =>
    exact (ih.decodeBlocksPartial xxh64 source startBlock endBlock ihr emitResume).1
  | emitted source startBlock endBlock resume emitResume _ _ hp hstate ih ihr =>
    exact (ih.decodeBlocksPartial xxh64 source startBlock endBlock ihr emitResume).2 _ _ hp hstate
  | reset source _ ih => exact ih.reset source
  | resetWithDictHandles source dicts hd _ ih => exact ih.resetWithDictHandles source hd
  | forceDict dictId _ ih => exact ih.forceDict dictId
  | addDict dict hd _ ih => exact (ih.addDict hd).1
  | addDictHandle dict hd _ ih => exact (ih.addDict hd).2
  | read targetLen _ ih => exact ih.read targetLen
  | collect _ ih => exact ih.collect
  | setMaxWindowSize size _ ih => exact ih.setMaxWindowSize size

/-- The states blocks are decoded in along a run, through any of the three entry points. -/
inductive DecodesIn (xxh64 : List UInt8 → Nat) : FrameDecoderState → Bool → Prop where
  | blocks {d : FrameDecoder} {b : Bool} {source : Reader} {strat : BlockDecodingStrategy}
      {x : FrameDecoderState × Reader} :
      Reached xxh64 (.decoder d) b → x ∈ d.blockStates source strat → DecodesIn xxh64 x.1 b
  | available {d : FrameDecoder} {b : Bool} {source : List UInt8} {targetLen : Nat}
      {reserveWindow : Bool} {x : FrameDecoderState.AvailableState} :
      Reached xxh64 (.decoder d) b → x ∈ d.availableStates source targetLen reserveWindow →
      DecodesIn xxh64 x.state b
  | range {d : FrameDecoder} {b c : Bool} {source : Reader} {startBlock endBlock : Nat}
      {resume : Option ResumeInput} {emitResume : Bool} {x : PartialState} :
      Reached xxh64 (.decoder d) b →
      (∀ r, resume = some r → Reached xxh64 (.resume r.state) c) →
      x ∈ d.partialStates xxh64 source startBlock endBlock resume emitResume →
      DecodesIn xxh64 x.state (b && c)

theorem FrameDecoder.Safe.blockStates {d : FrameDecoder} {b : Bool} (h : d.Safe b)
    {source : Reader} {strat : BlockDecodingStrategy} {x : FrameDecoderState × Reader}
    (hx : x ∈ d.blockStates source strat) : x.1.Safe b := by
  simp only [FrameDecoder.blockStates] at hx
  split at hx
  · rename_i s _ hs
    exact visits_inv (FrameDecoderState.decodeBlocksBody_safe _ _ _).1 _
      (FrameDecoder.Safe.beginBlocks (h.state s hs)) x hx
  · cases hx

theorem FrameDecoder.Safe.availableStates {d : FrameDecoder} {b : Bool} (h : d.Safe b)
    {source : List UInt8} {targetLen : Nat} {reserveWindow : Bool}
    {x : FrameDecoderState.AvailableState}
    (hx : x ∈ d.availableStates source targetLen reserveWindow) : x.state.Safe b := by
  simp only [FrameDecoder.availableStates] at hx
  split at hx
  · rename_i s _ hs
    split at hx
    · cases hx
    · refine visits_inv (FrameDecoderState.availableBody_safe _ _).1 _ ?_ x hx
      exact ((h.state s hs).setComputeHash _).lateChecksum source
  · cases hx

theorem FrameDecoder.Safe.partialStates {d : FrameDecoder} {b c : Bool} (h : d.Safe b)
    {xxh64 : List UInt8 → Nat} {source : Reader} {startBlock endBlock : Nat}
    {resume : Option ResumeInput} (hr : ∀ r, resume = some r → r.state.huf.Safe none c)
    {emitResume : Bool} {x : PartialState}
    (hx : x ∈ d.partialStates xxh64 source startBlock endBlock resume emitResume) :
    x.state.Safe (b && c) := by
  simp only [FrameDecoder.partialStates] at hx
  split at hx
  · rename_i s _ hs
    split at hx
    · cases hx
    · split at hx
      · cases hx
      · rename_i hstart
        refine visits_inv (FrameDecoderState.partialBody_safe _ _).1 _ ?_ x hx
        exact FrameDecoder.partialStart_safe
          ((h.state s hs).setComputeHash _).reserveDecodingBuffer hr hstart
  · cases hx

theorem DecodesIn.safe {xxh64 : List UInt8 → Nat} {s : FrameDecoderState} {b : Bool}
    (h : DecodesIn xxh64 s b) : s.Safe b := by
  cases h with
  | blocks hd hx => exact FrameDecoder.Safe.blockStates hd.safe hx
  | available hd hx => exact FrameDecoder.Safe.availableStates hd.safe hx
  | range hd hr hx =>
    exact FrameDecoder.Safe.partialStates hd.safe (fun r he => (hr r he).safe) hx

/-- A treeless section that is let through finds a slot for every value of the table's width,
unless a build that failed has emptied the table. -/
theorem treeless_table_filled {xxh64 : List UInt8 → Nat} {s : FrameDecoderState} {intact : Bool}
    (h : DecodesIn xxh64 s intact) (ls : LiteralsSection) (hls : ls.lsType = .treeless)
    {source : List UInt8} {n : Nat} {huf : HuffmanScratch}
    (hok : prepareTable ls s.decoderScratch.huf s.dictRef source = (.ok n, huf))
    (hkept : intact = true ∨ (huf.hufTable s.dictRef).packedDecode ≠ []) :
    (huf.hufTable s.dictRef).packedDecode.length = 2 ^ (huf.hufTable s.dictRef).maxNumBits ∧
      1 ≤ (huf.hufTable s.dictRef).maxNumBits ∧ (huf.hufTable s.dictRef).maxNumBits ≤ 12 := by
  simp only [prepareTable, hls] at hok
  split at hok
  · cases hok
  · rename_i hm
    cases hok
    rcases h.safe.hufTable hm with hf | ⟨hempty, hintact⟩
    · exact ⟨hf.length, hf.pos, hf.le⟩
    · rcases hkept with hk | hk
      · rw [hk] at hintact
        cases hintact
      · exact absurd hempty hk

/-- A decoder with a frame under way. -/
def sampleDecoder : FrameDecoder :=
  (FrameDecoder.new.reset ⟨[0x28, 0xB5, 0x2F, 0xFD, 0, 0], 0⟩).2.1

/-- The state the next block is decoded in, after a first one. -/
def nextState? (block : List UInt8) : Option FrameDecoderState :=
  let d := (sampleDecoder.decodeBlocks ⟨block, 0⟩ (.uptoBlocks 1)).2.1
  (d.blockStates ⟨[], 0⟩ .all).head?.map (·.1)

theorem decodesIn_next {block : List UInt8} {s : FrameDecoderState}
    (h : nextState? block = some s) :
    DecodesIn (fun _ => 0) s
      (!refused (·.refusedTable) (sampleDecoder.decodeBlocks ⟨block, 0⟩ (.uptoBlocks 1)).1) := by
  obtain ⟨x, hx, rfl⟩ := Option.map_eq_some_iff.mp h
  exact .blocks (.decodeBlocks _ _ (.reset _ .new)) (List.mem_of_head? hx)

/-- A block without output whose table is one bit wide. -/
def oneBitBlock : List UInt8 := [0x3C, 0, 0, 0x02, 0xC0, 0, 0x80, 0x10, 0x01, 0]

/-- A block without output whose weights are twelve down to one. -/
def twelveBitBlock : List UInt8 :=
  [0x64, 0, 0, 0x02, 0, 0x02, 0x8B, 0xCB, 0xA9, 0x87, 0x65, 0x43, 0x21, 0x01, 0]

def treelessSection : LiteralsSection := ⟨0, some 1, some 1, .treeless⟩

theorem treeless_accepted {s : FrameDecoderState}
    (h : (s.decoderScratch.huf.hufTable s.dictRef).maxNumBits ≠ 0) :
    prepareTable treelessSection s.decoderScratch.huf s.dictRef [1] =
      (.ok 0, s.decoderScratch.huf) := by
  simp only [prepareTable, treelessSection, if_neg h]

theorem treeless_table_filled_one_bit :
    (nextState? oneBitBlock).isSome ∧ ∀ s, nextState? oneBitBlock = some s →
      (s.decoderScratch.huf.hufTable s.dictRef).packedDecode.length =
        2 ^ (s.decoderScratch.huf.hufTable s.dictRef).maxNumBits := by
  refine ⟨by decide +kernel, fun s hs => ?_⟩
  have hbits : (nextState? oneBitBlock).map
      (fun s => (s.decoderScratch.huf.hufTable s.dictRef).maxNumBits) = some 1 := by
    decide +kernel
  rw [hs, Option.map_some, Option.some.injEq] at hbits
  exact (treeless_table_filled (decodesIn_next hs) treelessSection rfl
    (treeless_accepted (by rw [hbits]; decide)) (.inl (by decide +kernel))).1

/-- Tables of twelve bits are let through, as the limit of the decoder has it. -/
theorem treeless_table_may_take_twelve_bits :
    ¬ ∀ (s : FrameDecoderState) (intact : Bool) (ls : LiteralsSection) (source : List UInt8)
      (n : Nat) (huf : HuffmanScratch), DecodesIn (fun _ => 0) s intact →
      ls.lsType = .treeless →
      prepareTable ls s.decoderScratch.huf s.dictRef source = (.ok n, huf) →
      (huf.hufTable s.dictRef).packedDecode.length = 2 ^ (huf.hufTable s.dictRef).maxNumBits ∧
        1 ≤ (huf.hufTable s.dictRef).maxNumBits ∧
        (huf.hufTable s.dictRef).maxNumBits ≤ 11 := by
  intro h
  have hbits : (nextState? twelveBitBlock).map
      (fun s => (s.decoderScratch.huf.hufTable s.dictRef).maxNumBits) = some 12 := by
    decide +kernel
  obtain ⟨s, hs, hm⟩ := Option.map_eq_some_iff.mp hbits
  have hle := (h s _ treelessSection [1] 0 _ (decodesIn_next hs) rfl
    (treeless_accepted (by rw [hm]; decide))).2.2
  rw [hm] at hle
  exact absurd hle (by decide)

end Decoding
