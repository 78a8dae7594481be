import StructuredZstd.Decoding.MatchCopies
import StructuredZstd.Decoding.UserSlice
import StructuredZstd.Ring.InlineExec

namespace Decoding

open BufferBackend DecodeBuffer Lz

section Plain

variable {B : Type} [BufferBackend B]

/-- The plain path takes a sequence, and this is what the buffer then holds. -/
def PlainGives (inp : ExecInput) (s : ExecState B) (lits : List UInt8) (offset matchLength : Nat)
    (content : List UInt8) : Prop :=
  ∃ s', pushThenRepeat inp lits offset matchLength s = (.ok (), s') ∧
    s'.buffer.content = content ∧ s'.buffer.len = content.length

def PlainFails (inp : ExecInput) (s : ExecState B) (lits : List UInt8)
    (offset matchLength : Nat) : Prop :=
  ∃ e s', pushThenRepeat inp lits offset matchLength s = (.error e, s')

/-- The buffer with literals pushed that it took. -/
def pushed (d : DecodeBuffer B) (lits : List UInt8) : DecodeBuffer B :=
  { d with
    buffer := extend d.buffer lits
    totalOutputCounter := d.totalOutputCounter + lits.length }

theorem length_dictMatchSource {d : DecodeBuffer B} {dictContent dictSrc : List UInt8}
    {litLength offset matchLength : Nat}
    (h : d.dictMatchSource dictContent litLength offset matchLength = some dictSrc) :
    matchLength ≤ dictSrc.length := by
  simp only [DecodeBuffer.dictMatchSource] at h
  split_ifs at h with hnear hpast hout
  cases h
  rw [List.length_drop]
  omega

/-- A source is given only for a match the dictionary path takes, unless it is refused the room;
the bytes are then the first of the source. -/
theorem dictMatchSource_spec {d d₁ : DecodeBuffer B} {dictContent dictSrc : List UInt8}
    {litLength offset matchLength : Nat} (hlen : d₁.len = d.len + litLength)
    (hcounter : d₁.totalOutputCounter = d.totalOutputCounter + litLength)
    (hwindow : d₁.windowSize = d.windowSize)
    (h : d.dictMatchSource dictContent litLength offset matchLength = some dictSrc) :
    d₁.len < offset ∧ matchLength ≤ dictSrc.length ∧ dictSrc <:+ dictContent ∧
      d₁.repeatFromDict dictContent offset matchLength =
        match tryReserve d₁.buffer matchLength with
        | .error o => (.error (.outputBufferOverflow o), d₁)
        | .ok buffer => (.ok (), { d₁ with
            buffer := extend buffer (dictSrc.take matchLength)
            totalOutputCounter := d₁.totalOutputCounter + matchLength }) := by
  have hlong := length_dictMatchSource h
  simp only [DecodeBuffer.dictMatchSource] at h
  split_ifs at h with hnear hpast hout
  cases h
  have hfar : d₁.len < offset := by omega
  have hinside : max d₁.totalOutputCounter d₁.len ≤ d₁.windowSize := by omega
  refine ⟨hfar, hlong, List.drop_suffix _ _, ?_⟩
  simp only [DecodeBuffer.repeatFromDict, if_pos hinside]
  rw [hlen, if_neg (by omega)]
  cases tryReserve d₁.buffer matchLength with
  | error o => rfl
  | ok buffer =>
    simp only
    rw [if_neg (by omega)]

variable [CopyBackend B] {inp : ExecInput} {s : ExecState B} {lits : List UInt8}
  {offset matchLength : Nat}

/-- Where there is room and the match reaches back to something, the plain path goes through. -/
theorem pushThenRepeat_ok (hb : CopyBackend.Sound s.buffer.buffer)
    (hroom : CopyBackend.Room s.buffer.buffer (lits.length + matchLength))
    (hpush : tryExtend s.buffer.buffer lits = .ok (extend s.buffer.buffer lits))
    (hpos : 0 < offset) (hmatch : 0 < matchLength)
    (hreach : (pushed s.buffer lits).Reaches inp.dictContent offset)
    (hceiling : s.buffer.len + lits.length + matchLength ≤ CopyBackend.ceiling s.buffer.buffer) :
    ∃ s', pushThenRepeat inp lits offset matchLength s = (.ok (), s') ∧
      inp.dictContent ++ s'.buffer.content =
        copyMatch offset matchLength (inp.dictContent ++ (s.buffer.content ++ lits)) := by
  obtain ⟨hb₁, hbytes, hceiling₁, -⟩ :=
    CopyBackend.extend_spec hb (CopyBackend.room_fits hb (Nat.le_add_right _ _) hroom)
  have hcontent : (pushed s.buffer lits).content = s.buffer.content ++ lits := hbytes
  have hlen : (pushed s.buffer lits).len = s.buffer.len + lits.length := by
    rw [DecodeBuffer.len, hcontent, List.length_append]
    rfl
  obtain ⟨hok, -⟩ := @repeatInner_spec _ _ _ offset (pushed s.buffer lits) inp.dictContent
    matchLength hb₁ hpos hmatch
  obtain ⟨d', hrun, hmatched⟩ :=
    hok ⟨hreach, by rw [hlen]; exact hceiling.trans_eq hceiling₁.symm⟩
  refine ⟨{ s with buffer := d' }, ?_, ?_⟩
  · have hd₁ : s.buffer.tryPush lits = (.ok (), pushed s.buffer lits) := by
      rw [DecodeBuffer.tryPush, hpush]
      rfl
    simp only [pushThenRepeat, hd₁, hrun]
  · rw [← hcontent]
    exact hmatched.copied

theorem PlainGives.resident (hb : CopyBackend.Sound s.buffer.buffer)
    (hroom : CopyBackend.Room s.buffer.buffer (lits.length + matchLength))
    (hpush : tryExtend s.buffer.buffer lits = .ok (extend s.buffer.buffer lits))
    (hpos : 0 < offset) (hmatch : 0 < matchLength) (hle : offset ≤ s.buffer.len + lits.length)
    (hceiling : s.buffer.len + lits.length + matchLength ≤ CopyBackend.ceiling s.buffer.buffer) :
    PlainGives inp s lits offset matchLength
      (copyMatch offset matchLength (s.buffer.content ++ lits)) := by
  have hreach : (pushed s.buffer lits).Reaches inp.dictContent offset := by
    obtain ⟨-, hbytes, -, -⟩ :=
      CopyBackend.extend_spec hb (CopyBackend.room_fits hb (Nat.le_add_right _ _) hroom)
    left
    change offset ≤ (bytes (extend s.buffer.buffer lits)).length
    rw [hbytes, List.length_append]
    exact hle
  obtain ⟨s', hrun, hcopied⟩ := pushThenRepeat_ok hb hroom hpush hpos hmatch hreach hceiling
  have hin : offset ≤ (s.buffer.content ++ lits).length := by
    rw [List.length_append]
    exact hle
  rw [copyMatch_append hpos hin] at hcopied
  have hcontent := List.append_cancel_left hcopied
  exact ⟨s', hrun, hcontent, congrArg List.length hcontent⟩

theorem PlainGives.dictionary {dictSrc : List UInt8} (hb : CopyBackend.Sound s.buffer.buffer)
    (hroom : CopyBackend.Room s.buffer.buffer (lits.length + matchLength))
    (hpush : tryExtend s.buffer.buffer lits = .ok (extend s.buffer.buffer lits))
    (hmatch : 0 < matchLength)
    (hsource : s.buffer.dictMatchSource inp.dictContent lits.length offset matchLength =
      some dictSrc)
    (hceiling : s.buffer.len + lits.length + matchLength ≤ CopyBackend.ceiling s.buffer.buffer) :
    PlainGives inp s lits offset matchLength
      (s.buffer.content ++ lits ++ dictSrc.take matchLength) := by
  obtain ⟨-, hbytes, -, -⟩ :=
    CopyBackend.extend_spec hb (CopyBackend.room_fits hb (Nat.le_add_right _ _) hroom)
  have hcontent : (pushed s.buffer lits).content = s.buffer.content ++ lits := hbytes
  have hlen : (pushed s.buffer lits).len = s.buffer.len + lits.length := by
    rw [DecodeBuffer.len, hcontent, List.length_append]
    rfl
  simp only [DecodeBuffer.dictMatchSource] at hsource
  split_ifs at hsource with hnear hpast hout
  cases hsource
  have hwindow : max (pushed s.buffer lits).totalOutputCounter (pushed s.buffer lits).len ≤
      (pushed s.buffer lits).windowSize := by
    rw [hlen]
    change max (s.buffer.totalOutputCounter + lits.length) _ ≤ s.buffer.windowSize
    omega
  have hreach : (pushed s.buffer lits).Reaches inp.dictContent offset :=
    .inr ⟨hwindow, by rw [hlen]; omega⟩
  obtain ⟨s', hrun, hcopied⟩ := pushThenRepeat_ok hb hroom hpush (by omega) hmatch hreach hceiling
  have hback : (s.buffer.content ++ lits).length +
      (offset - (s.buffer.len + lits.length)) = offset := by
    rw [List.length_append]
    change s.buffer.len + lits.length + _ = offset
    omega
  rw [copyMatch_dict hback (by omega) (by omega), if_neg (by omega)] at hcopied
  have hall := List.append_cancel_left hcopied
  exact ⟨s', hrun, hall, congrArg List.length hall⟩

end Plain

/-- The slots of the content are as they were. -/
def RingKept (r r' : Ring.RingBuffer) : Prop :=
  ∀ slot, r.Live slot → r'.buf.getD slot default = r.buf.getD slot default

section Backends

variable {inp : ExecInput} {litSrc dictSrc : List UInt8} {litLength offset matchLength : Nat}

theorem readable_length (hread : LiteralsReadable litSrc litLength) :
    (litSrc.take litLength).length = litLength := by
  obtain ⟨hrounded, -, -⟩ := rounds_mul (show 0 < 16 by decide) litLength
  exact List.length_take_of_le (hrounded.trans hread)

/-- What the ring's gate grants the plain path as well. -/
theorem ring_room {r : Ring.RingBuffer} (h : r.Wf)
    (hok : r.inlineExecDictOk litLength matchLength = true) :
    litLength + matchLength ≤ r.queue.free ∧ r.len + litLength + matchLength ≤ r.maxCapacity := by
  have hqueue := RingBuffer.inlineExecDictOk_room h.queue
    ((h.queue_inlineExecDictOk litLength matchLength).trans hok)
  have hlive : r.queue.live.length = r.len := Ring.RingBuffer.length_content r
  simp only [Ring.RingBuffer.inlineExecDictOk, decide_eq_true_eq] at hok
  refine ⟨?_, hok.2⟩
  rw [RingBuffer.free]
  rw [hlive] at hqueue ⊢
  omega

theorem ring_inline (wide : Bool) {r : Ring.RingBuffer} {s : ExecState RingBuffer} (h : r.Wf)
    (hs : s.buffer.buffer = r.queue) (hread : LiteralsReadable litSrc litLength)
    (hpos : 0 < offset) (hmatch : 0 < matchLength)
    (hok : r.inlineExecOk litLength matchLength offset = true) (hle : offset ≤ r.len + litLength) :
    ∃ r', r.execSequenceInline wide litSrc litLength offset matchLength = some (.ok r') ∧ r'.Wf ∧
      PlainGives inp s (litSrc.take litLength) offset matchLength r'.content ∧ RingKept r r' := by
  obtain ⟨r', hrun, hwf, hcontent, hkept⟩ :=
    h.execSequenceInline wide hread hpos hle hmatch hok
  have hlits := readable_length hread
  have hbuffer : s.buffer.content = r.content := congrArg RingBuffer.live hs
  have hlen : s.buffer.len = r.len := by
    rw [DecodeBuffer.len, hbuffer, Ring.RingBuffer.length_content]
  simp only [Ring.RingBuffer.inlineExecOk, decide_eq_true_eq] at hok
  obtain ⟨hroom, hceiling⟩ := ring_room h hok.1
  refine ⟨r', hrun, hwf, ?_, hkept⟩
  rw [hcontent, ← hbuffer]
  apply PlainGives.resident
  · rw [hs]
    exact h.queue
  · rw [hs, hlits]
    exact hroom
  · rfl
  · exact hpos
  · exact hmatch
  · rwa [hlen, hlits]
  · rw [hs, hlen, hlits]
    exact hceiling

theorem ring_inlineDict (wide : Bool) {r : Ring.RingBuffer} {s : ExecState RingBuffer} (h : r.Wf)
    (hs : s.buffer.buffer = r.queue) (hread : LiteralsReadable litSrc litLength)
    (hmatch : 0 < matchLength) (hok : r.inlineExecDictOk litLength matchLength = true)
    (hsource : s.buffer.dictMatchSource inp.dictContent litLength offset matchLength =
      some dictSrc) :
    ∃ r', r.execSequenceInlineDict wide litSrc litLength dictSrc matchLength = some (.ok r') ∧
      r'.Wf ∧ PlainGives inp s (litSrc.take litLength) offset matchLength r'.content ∧
      RingKept r r' := by
  obtain ⟨r', hrun, hwf, hcontent, hkept⟩ :=
    h.execSequenceInlineDict wide hread (length_dictMatchSource hsource) hmatch hok
  have hlits := readable_length hread
  have hbuffer : s.buffer.content = r.content := congrArg RingBuffer.live hs
  have hlen : s.buffer.len = r.len := by
    rw [DecodeBuffer.len, hbuffer, Ring.RingBuffer.length_content]
  obtain ⟨hroom, hceiling⟩ := ring_room h hok
  refine ⟨r', hrun, hwf, ?_, hkept⟩
  rw [hcontent, ← hbuffer]
  apply PlainGives.dictionary
  · rw [hs]
    exact h.queue
  · rw [hs, hlits]
    exact hroom
  · rfl
  · exact hmatch
  · rwa [hlits]
  · rw [hs, hlen, hlits]
    exact hceiling

/-- The caller's slice: what is below the tail and what is past the cap are as they were. -/
def SliceKept (b b' : UserSlice) : Prop :=
  ∀ slot, slot < b.tail ∨ b.sequenceCap ≤ slot → b'.slice[slot]? = b.slice[slot]?

theorem slice_len {b : UserSlice} (h : b.Wf) {s : ExecState UserSliceBackend}
    (hs : s.buffer.buffer = b.view) : s.buffer.len = b.tail - b.head := by
  have hwritten := h.view_bytes
  have hlen : s.buffer.len = (b.view.written.drop b.head).length :=
    congrArg (fun x => (bytes x).length) hs
  rw [hlen, List.length_drop, hwritten]

/-- What does not fit below the cap the plain path refuses, too. -/
theorem slice_refuses {b : UserSlice} (h : b.Wf) {s : ExecState UserSliceBackend}
    (hs : s.buffer.buffer = b.view) (hpos : 0 < offset) (hmatch : 0 < matchLength)
    {lits : List UInt8} (hover : b.sequenceCap < b.tail + (lits.length + matchLength)) :
    PlainFails inp s lits offset matchLength := by
  have hwritten := h.view_bytes
  have hhead := h.head_le
  have htail := h.tail_le
  cases hpush : tryExtend s.buffer.buffer lits with
  | error o =>
    refine ⟨.executeSequencesError (.outputBufferOverflow o), s, ?_⟩
    simp only [pushThenRepeat, DecodeBuffer.tryPush, hpush]
  | ok buffer =>
    have hextend : buffer = extend s.buffer.buffer lits := LawfulBackend.tryExtend_spec hpush
    have hbuffer : (pushed s.buffer lits).buffer = b.view.append lits :=
      congrArg (extend · lits) hs
    have hsound : b.view.head ≤ b.view.written.length := by
      rw [hwritten]
      exact hhead
    obtain ⟨hsound₁, -, hbytes, -⟩ := UserSliceBackend.append_lawful hsound lits
    have hlen : (pushed s.buffer lits).len = b.tail - b.head + lits.length := by
      rw [DecodeBuffer.len, DecodeBuffer.content, hbuffer, hbytes, List.length_append]
      change (b.view.written.drop b.head).length + _ = _
      rw [List.length_drop, hwritten]
    obtain ⟨-, herr⟩ := @repeatInner_spec _ _ _ offset (pushed s.buffer lits) inp.dictContent
      matchLength (by rw [hbuffer]; exact hsound₁) hpos hmatch
    have hnoroom : ¬(pushed s.buffer lits).len + matchLength ≤
        CopyBackend.ceiling (pushed s.buffer lits).buffer := by
      rw [hlen, hbuffer]
      change ¬_ ≤ b.sequenceCap - b.head
      omega
    obtain ⟨e, hrun⟩ := herr fun hroom => hnoroom hroom.2
    have hd₁ : s.buffer.tryPush lits = (.ok (), pushed s.buffer lits) := by
      rw [DecodeBuffer.tryPush, hpush, hextend]
      rfl
    refine ⟨.executeSequencesError (.decodebufferError e),
      { s with buffer := pushed s.buffer lits }, ?_⟩
    simp only [pushThenRepeat, hd₁, hrun]

/-- The room the slice has is room for the plain path. -/
theorem slice_plain {b : UserSlice} (h : b.Wf) {s : ExecState UserSliceBackend}
    (hs : s.buffer.buffer = b.view) {lits : List UInt8}
    (hfit : b.tail + (lits.length + matchLength) ≤ b.sequenceCap) :
    CopyBackend.Sound s.buffer.buffer ∧
      CopyBackend.Room s.buffer.buffer (lits.length + matchLength) ∧
      tryExtend s.buffer.buffer lits = .ok (extend s.buffer.buffer lits) ∧
      s.buffer.len + lits.length + matchLength ≤ CopyBackend.ceiling s.buffer.buffer := by
  have hwritten := h.view_bytes
  have hhead := h.head_le
  have hcap := h.cap_le
  refine ⟨?_, ?_, ?_, ?_⟩
  · rw [hs]
    change b.head ≤ b.view.written.length
    rwa [hwritten]
  · rw [hs]
    change b.view.written.length + (lits.length + matchLength) ≤ b.sequenceCap
    rwa [hwritten]
  · rw [hs]
    refine if_neg ?_
    change ¬b.slice.length < b.view.written.length + lits.length
    rw [hwritten]
    omega
  · rw [slice_len h hs, hs]
    change _ ≤ b.sequenceCap - b.head
    omega

/-- Behind the slice up to its tail a match is what it is behind the content. -/
theorem slice_copied {b : UserSlice} (h : b.Wf) (hpos : 0 < offset) {lits new : List UInt8}
    (hle : offset ≤ b.tail - b.head + lits.length)
    (hnew : b.slice.take b.tail ++ lits ++ new =
      copyMatch offset matchLength (b.slice.take b.tail ++ lits)) :
    bytes b.view ++ lits ++ new = copyMatch offset matchLength (bytes b.view ++ lits) := by
  have hwritten := h.view_bytes
  have hsplit : b.slice.take b.tail = (b.slice.take b.tail).take b.head ++ bytes b.view :=
    (List.take_append_drop b.head (b.slice.take b.tail)).symm
  have hreach : offset ≤ (bytes b.view ++ lits).length := by
    rw [List.length_append]
    change offset ≤ (b.view.written.drop b.head).length + _
    rwa [List.length_drop, hwritten]
  have hall := copyMatch_append (n := matchLength) hpos hreach ((b.slice.take b.tail).take b.head)
  rw [← List.append_assoc, ← hsplit] at hall
  rw [hall] at hnew
  conv_lhs at hnew => rw [hsplit]
  simp only [List.append_assoc] at hnew ⊢
  exact List.append_cancel_left hnew

theorem took_bytes {b b' : UserSlice} (h : b.Wf) {data : List UInt8} (htook : b.Took data b') :
    bytes b'.view = bytes b.view ++ data := by
  have hwritten := h.view_bytes
  have hsound : b.view.head ≤ b.view.written.length := by
    rw [hwritten]
    exact h.head_le
  obtain ⟨-, -, hbytes, -⟩ := UserSliceBackend.append_lawful hsound data
  rw [htook.view_eq, hbytes]

theorem slice_inline (wide : Bool) {b : UserSlice} {s : ExecState UserSliceBackend} (h : b.Wf)
    (hs : s.buffer.buffer = b.view) (hread : LiteralsReadable litSrc litLength)
    (hpos : 0 < offset) (hmatch : 0 < matchLength) (hle : offset ≤ b.tail - b.head + litLength) :
    (b.tail + (litLength + matchLength) ≤ b.sequenceCap →
      ∃ b', b.execInline wide litSrc litLength offset matchLength = some (.ok b') ∧ b'.Wf ∧
        PlainGives inp s (litSrc.take litLength) offset matchLength (bytes b'.view) ∧
        SliceKept b b') ∧
    (¬b.tail + (litLength + matchLength) ≤ b.sequenceCap →
      (∃ e, b.execInline wide litSrc litLength offset matchLength = some (.error e)) ∧
        PlainFails inp s (litSrc.take litLength) offset matchLength) := by
  have hlits := readable_length hread
  have hhead := h.head_le
  obtain ⟨new, hnew⟩ := Lz.prefix_copyMatch offset matchLength
    (b.slice.take b.tail ++ litSrc.take litLength)
  obtain ⟨hok, herr⟩ := h.execInline wide hread hpos (by omega) hmatch hnew
  constructor
  · intro hfit
    obtain ⟨b', hrun, htook⟩ := hok hfit
    obtain ⟨hsound, hroom, hpush, hceiling⟩ := slice_plain h hs (by rwa [hlits])
    have hplain : PlainGives inp s (litSrc.take litLength) offset matchLength
        (copyMatch offset matchLength (s.buffer.content ++ litSrc.take litLength)) :=
      .resident hsound hroom hpush hpos hmatch (by rwa [slice_len h hs, hlits]) hceiling
    refine ⟨b', hrun, htook.wf, ?_, htook.kept⟩
    have hcontent : s.buffer.content = bytes b.view := congrArg bytes hs
    rw [took_bytes h htook, ← List.append_assoc,
      slice_copied h hpos (by rwa [hlits]) hnew, ← hcontent]
    exact hplain
  · intro hover
    exact ⟨herr hover, slice_refuses h hs hpos hmatch (by rw [hlits]; omega)⟩

theorem slice_inlineDict (wide : Bool) {b : UserSlice} {s : ExecState UserSliceBackend}
    (h : b.Wf) (hs : s.buffer.buffer = b.view) (hread : LiteralsReadable litSrc litLength)
    (hpos : 0 < offset) (hmatch : 0 < matchLength)
    (hsource : s.buffer.dictMatchSource inp.dictContent litLength offset matchLength =
      some dictSrc) :
    (b.tail + (litLength + matchLength) ≤ b.sequenceCap →
      ∃ b', b.execSequenceInlineDict wide litSrc litLength dictSrc matchLength = some (.ok b') ∧
        b'.Wf ∧ PlainGives inp s (litSrc.take litLength) offset matchLength (bytes b'.view) ∧
        SliceKept b b') ∧
    (¬b.tail + (litLength + matchLength) ≤ b.sequenceCap →
      (∃ e, b.execSequenceInlineDict wide litSrc litLength dictSrc matchLength =
        some (.error e)) ∧ PlainFails inp s (litSrc.take litLength) offset matchLength) := by
  have hlits := readable_length hread
  obtain ⟨hok, herr⟩ := h.execInlineDict wide hread (length_dictMatchSource hsource) hmatch
  constructor
  · intro hfit
    obtain ⟨b', hrun, htook⟩ := hok hfit
    obtain ⟨hsound, hroom, hpush, hceiling⟩ := slice_plain h hs (by rwa [hlits])
    have hplain := PlainGives.dictionary hsound hroom hpush hmatch (by rwa [hlits]) hceiling
    refine ⟨b', hrun, htook.wf, ?_, htook.kept⟩
    have hcontent : s.buffer.content = bytes b.view := congrArg bytes hs
    rw [took_bytes h htook, ← List.append_assoc, ← hcontent]
    exact hplain
  · intro hover
    exact ⟨herr hover, slice_refuses h hs hpos hmatch (by rw [hlits]; omega)⟩

end Backends

/-- Executed inline, a sequence leaves what the plain path leaves, whatever the tier: on the ring
whenever its gate lets it by, on the caller's slice when it fits below the cap, and else both refuse
it. The content stays where it is, and a dictionary source is what the dictionary path copies when it
is given the room. -/
theorem inline_equals_plain (wide : Bool) (inp : ExecInput) (litSrc : List UInt8)
    (litLength offset matchLength : Nat) (hread : LiteralsReadable litSrc litLength)
    (hpos : 0 < offset) (hmatch : 0 < matchLength) :
    (∀ (r : Ring.RingBuffer) (s : ExecState RingBuffer), r.Wf → s.buffer.buffer = r.queue →
      (r.inlineExecOk litLength matchLength offset = true → offset ≤ r.len + litLength →
        ∃ r', r.execSequenceInline wide litSrc litLength offset matchLength = some (.ok r') ∧
          r'.Wf ∧ PlainGives inp s (litSrc.take litLength) offset matchLength r'.content ∧
          RingKept r r') ∧
      ∀ dictSrc, r.inlineExecDictOk litLength matchLength = true →
        s.buffer.dictMatchSource inp.dictContent litLength offset matchLength = some dictSrc →
        ∃ r', r.execSequenceInlineDict wide litSrc litLength dictSrc matchLength =
            some (.ok r') ∧
          r'.Wf ∧ PlainGives inp s (litSrc.take litLength) offset matchLength r'.content ∧
          RingKept r r') ∧
    (∀ (b : UserSlice) (s : ExecState UserSliceBackend), b.Wf → s.buffer.buffer = b.view →
      (offset ≤ b.tail - b.head + litLength →
        (b.tail + (litLength + matchLength) ≤ b.sequenceCap →
          ∃ b', b.execInline wide litSrc litLength offset matchLength = some (.ok b') ∧ b'.Wf ∧
            PlainGives inp s (litSrc.take litLength) offset matchLength (bytes b'.view) ∧
            SliceKept b b') ∧
        (¬b.tail + (litLength + matchLength) ≤ b.sequenceCap →
          (∃ e, b.execInline wide litSrc litLength offset matchLength = some (.error e)) ∧
            PlainFails inp s (litSrc.take litLength) offset matchLength)) ∧
      ∀ dictSrc,
        s.buffer.dictMatchSource inp.dictContent litLength offset matchLength = some dictSrc →
        (b.tail + (litLength + matchLength) ≤ b.sequenceCap →
          ∃ b', b.execSequenceInlineDict wide litSrc litLength dictSrc matchLength =
              some (.ok b') ∧
            b'.Wf ∧ PlainGives inp s (litSrc.take litLength) offset matchLength (bytes b'.view) ∧
            SliceKept b b') ∧
        (¬b.tail + (litLength + matchLength) ≤ b.sequenceCap →
          (∃ e, b.execSequenceInlineDict wide litSrc litLength dictSrc matchLength =
            some (.error e)) ∧ PlainFails inp s (litSrc.take litLength) offset matchLength)) ∧
    ∀ (B : Type) [BufferBackend B] (d d₁ : DecodeBuffer B) (dictSrc : List UInt8),
      d₁.len = d.len + litLength → d₁.totalOutputCounter = d.totalOutputCounter + litLength →
      d₁.windowSize = d.windowSize →
      d.dictMatchSource inp.dictContent litLength offset matchLength = some dictSrc →
      d₁.len < offset ∧ matchLength ≤ dictSrc.length ∧ dictSrc <:+ inp.dictContent ∧
        d₁.repeatFromDict inp.dictContent offset matchLength =
          match tryReserve d₁.buffer matchLength with
          | .error o => (.error (.outputBufferOverflow o), d₁)
          | .ok buffer => (.ok (), { d₁ with
              buffer := extend buffer (dictSrc.take matchLength)
              totalOutputCounter := d₁.totalOutputCounter + matchLength }) := by
  refine ⟨?_, ?_, ?_⟩
  · intro r s h hs
    refine ⟨fun hok hle => ring_inline wide h hs hread hpos hmatch hok hle, ?_⟩
    intro dictSrc hok hsource
    exact ring_inlineDict wide h hs hread hmatch hok hsource
  · intro b s h hs
    refine ⟨fun hle => slice_inline wide h hs hread hpos hmatch hle, ?_⟩
    intro dictSrc hsource
    exact slice_inlineDict wide h hs hread hpos hmatch hsource
  · intro B _ d d₁ dictSrc hlen hcounter hwindow hsource
    exact dictMatchSource_spec hlen hcounter hwindow hsource

/-- A ring that has gone round, with room before its head. -/
def wrappedRing : Ring.RingBuffer :=
  ⟨List.replicate 2 5 ++ List.replicate 58 0 ++ List.replicate 4 9 ++ List.replicate 32 0, 64, 60, 2,
    usizeMax, usizeMax, false⟩

def wrappedState : ExecState RingBuffer :=
  ⟨{ (DecodeBuffer.new 1024 : DecodeBuffer RingBuffer) with buffer := wrappedRing.queue }, 0⟩

/-- A match over the ring's own literals, without a wrap of the write. -/
theorem inline_equals_plain_wrapped :
    ∃ r', wrappedRing.execSequenceInline true (List.replicate 16 7) 2 3 5 = some (.ok r') ∧
      PlainGives ⟨[], [], 0⟩ wrappedState ((List.replicate 16 7).take 2) 3 5 r'.content ∧
      RingKept wrappedRing r' := by
  have hwf : wrappedRing.Wf := ⟨fun _ => by decide, by decide, by decide, fun _ => by decide⟩
  obtain ⟨hring, -, -⟩ := inline_equals_plain true ⟨[], [], 0⟩ (List.replicate 16 7) 2 3 5
    (by unfold LiteralsReadable; decide) (by decide) (by decide)
  obtain ⟨r', hrun, -, hplain, hkept⟩ :=
    (hring wrappedRing wrappedState hwf rfl).1 (by decide) (by decide)
  exact ⟨r', hrun, hplain, hkept⟩

/-- A slice of four bytes, nothing written yet. -/
def fourBytes : UserSlice := ⟨[0, 0, 0, 0], 0, 0, 4⟩

def fourBytesState : ExecState UserSliceBackend :=
  ⟨{ (DecodeBuffer.new 1024 : DecodeBuffer UserSliceBackend) with buffer := fourBytes.view }, 0⟩

/-- What the gate of the slice lets by it may still refuse, with nothing written, where the plain
path refuses it after the literals; and a dictionary source is found for a match that path has no
room for. -/
theorem inline_differs_where_full :
    inlineExecOk fourBytes.view 2 3 1 = true ∧
      (∃ e, fourBytes.execInline false (List.replicate 16 7) 2 1 3 = some (.error e)) ∧
      bytes fourBytes.view = [] ∧
      (pushThenRepeat ⟨[], [], 0⟩ [7, 7] 1 3 fourBytesState).2.buffer.content = [7, 7] ∧
      fourBytesState.buffer.dictMatchSource [1, 2, 3, 4, 5, 6] 2 8 3 = some [1, 2, 3, 4, 5, 6] ∧
      ((pushed fourBytesState.buffer [7, 7]).repeatFromDict [1, 2, 3, 4, 5, 6] 8 3).1 =
        .error (.outputBufferOverflow ⟨2, 3, 4⟩) := by
  refine ⟨rfl, ⟨_, rfl⟩, rfl, rfl, by decide, rfl⟩

end Decoding
