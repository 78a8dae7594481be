import StructuredZstd.Decoding.FrameRuns

namespace Decoding

open Bits Runs BufferBackend

namespace FrameDecoder

/-- `input_needed`: how many bytes from the start of `pending` the next step needs in hand. -/
def inputNeeded (d : FrameDecoder) (pending : List UInt8) : Nat :=
  match d.state with
  | none => 0
  | some s =>
    if s.frameFinished then
      if s.frameHeader.descriptor.contentChecksumFlag ∧ s.checkSum = none then 4 else 0
    else match pending with
      | b0 :: b1 :: b2 :: _ =>
        let header := le [b0, b1, b2, 0]
        let blockType := (header >>> 1) &&& 3
        if blockType = 3 then 3
        else
          let size := header >>> 3
          if s.blockMaximum < size then 3 else 3 + if blockType = 1 then 1 else size
      | _ => 3

end FrameDecoder

/-- What a streaming caller asks of a call that had its input: an error, or bytes read, or bytes
handed out, or the frame finished. -/
def Progressed (call : Except FrameDecoderError (Nat × List UInt8) × FrameDecoder) : Prop :=
  ∀ read out, call.1 = .ok (read, out) → 0 < read ∨ out ≠ [] ∨ call.2.isFinished = true

/-- The start of a block of more than the block maximum that its header alone is not refused for:
one whose content is not all in hand. -/
def FrameDecoderState.heldBack (s : FrameDecoderState) : List UInt8 → Bool
  | b0 :: b1 :: b2 :: rest =>
    match BlockHeader.parse b0 b1 b2 with
    | .error _ => false
    | .ok header =>
      s.blockMaximum < BlockHeader.contentSizeUnchecked b0 b1 b2 ∧ rest.length < header.contentSize
  | _ => false

/-- Where a call with its input in hand does nothing: at a block that is held back, with no output
to hand out, or with output and no room for any of it. -/
def FrameDecoder.stalls (d : FrameDecoder) (pending : List UInt8) (targetLen : Nat) : Bool :=
  match d.checkWindowStillAdmitted, d.state with
  | .ok _, some s =>
    !s.frameFinished && if d.canCollect = 0 then s.heldBack pending else targetLen = 0
  | _, _ => false

namespace BlockHeader

theorem le_header (b0 b1 b2 : UInt8) :
    le [b0, b1, b2, 0] = b0.toNat + 256 * (b1.toNat + 256 * b2.toNat) := by
  simp [le]

/-- The three bytes as one number hold the size the block decoder puts together. -/
theorem le_header_size (b0 b1 b2 : UInt8) :
    le [b0, b1, b2, 0] >>> 3 = contentSizeUnchecked b0 b1 b2 := by
  have h0 : b0.toNat < 256 := b0.toNat_lt
  have h1 : b1.toNat < 256 := b1.toNat_lt
  have hlow : b0.toNat >>> 3 < 2 ^ 5 := by
    rw [Nat.shiftRight_eq_div_pow]
    omega
  have hmid : b1.toNat <<< 5 + b0.toNat >>> 3 < 2 ^ 13 := by
    rw [Nat.shiftLeft_eq]
    omega
  rw [contentSizeUnchecked, Nat.or_comm (b0.toNat >>> 3), ← Nat.shiftLeft_add_eq_or_of_lt hlow,
    Nat.or_comm, ← Nat.shiftLeft_add_eq_or_of_lt hmid, le_header]
  simp only [Nat.shiftRight_eq_div_pow, Nat.shiftLeft_eq]
  omega

theorem le_header_type (b0 b1 b2 : UInt8) :
    (le [b0, b1, b2, 0] >>> 1) &&& 3 = (b0.toNat >>> 1) &&& 3 := by
  have hmask (n : Nat) : n &&& 3 = n % 4 := Nat.and_two_pow_sub_one_eq_mod n 2
  rw [hmask, hmask, le_header, Nat.shiftRight_eq_div_pow, Nat.shiftRight_eq_div_pow]
  omega

/-- The content of a block is the size in its header, but for the one byte of a run. -/
theorem parse_contentSize {b0 b1 b2 : UInt8} {header : BlockHeader}
    (h : parse b0 b1 b2 = .ok header) :
    (b0.toNat >>> 1) &&& 3 ≠ 3 ∧
      header.contentSize =
        if (b0.toNat >>> 1) &&& 3 = 1 then 1 else contentSizeUnchecked b0 b1 b2 := by
  simp only [parse, blockType?] at h
  split at h
  · cases h
  · rename_i type htype
    split at h
    · cases h
    · cases h
      split at htype
      · rename_i hbits
        cases htype
        simp [hbits]
      · rename_i hbits
        cases htype
        simp [hbits]
      · rename_i hbits
        cases htype
        simp [hbits]
      · cases htype

end BlockHeader

namespace FrameDecoder

variable {d : FrameDecoder} {s : FrameDecoderState}

theorem three_le_of_inputNeeded {pending : List UInt8} (hs : d.state = some s)
    (hfin : s.frameFinished = false) (hneed : d.inputNeeded pending ≤ pending.length) :
    ∃ b0 b1 b2 rest, pending = b0 :: b1 :: b2 :: rest := by
  simp only [inputNeeded, hs, hfin] at hneed
  match pending, hneed with
  | b0 :: b1 :: b2 :: rest, _ => exact ⟨b0, b1, b2, rest, rfl⟩

/-- With the bytes asked for in hand, a block that is not held back has its content there. -/
theorem content_in_hand {b0 b1 b2 : UInt8} {rest : List UInt8} {header : BlockHeader}
    (hs : d.state = some s) (hfin : s.frameFinished = false)
    (hneed : d.inputNeeded (b0 :: b1 :: b2 :: rest) ≤ (b0 :: b1 :: b2 :: rest).length)
    (hparse : BlockHeader.parse b0 b1 b2 = .ok header)
    (hheld : s.heldBack (b0 :: b1 :: b2 :: rest) = false) : header.contentSize ≤ rest.length := by
  obtain ⟨htype, hsize⟩ := BlockHeader.parse_contentSize hparse
  simp only [FrameDecoderState.heldBack, hparse, decide_eq_false_iff_not, not_and, not_lt] at hheld
  simp only [inputNeeded, hs, hfin, BlockHeader.le_header_type, BlockHeader.le_header_size, htype,
    Bool.false_eq_true, if_false, List.length_cons] at hneed
  split at hneed
  · rename_i hover
    exact hheld hover
  · rw [← hsize] at hneed
    omega

end FrameDecoder

namespace DecodeBuffer

variable {B : Type} [BufferBackend B]

theorem length_deliverTo (d : DecodeBuffer B) (amount : Nat) (keepWindow : Bool) :
    (d.deliverTo amount keepWindow).1.length = min amount d.undelivered := by
  simp only [deliverTo, List.length_take, List.length_drop, undelivered, len]
  omega

/-- Letting go of what was handed out leaves what was not. -/
theorem releaseDelivered_undelivered
    (hdrop : ∀ (b : B) (n : Nat), bytes (dropFirstN b n) = (bytes b).drop n) (d : DecodeBuffer B)
    (keepWindow : Bool) : (d.releaseDelivered keepWindow).undelivered = d.undelivered := by
  simp only [releaseDelivered]
  generalize (if keepWindow = true then d.windowSize else 0) = keep
  split
  · rfl
  · split
    · simp only [undelivered, len, content, hdrop, List.length_drop]
      omega
    · rfl

theorem deliverTo_undelivered
    (hdrop : ∀ (b : B) (n : Nat), bytes (dropFirstN b n) = (bytes b).drop n) (d : DecodeBuffer B)
    (amount : Nat) (keepWindow : Bool) :
    (d.deliverTo amount keepWindow).2.undelivered = d.undelivered - min amount d.undelivered := by
  simp only [deliverTo, releaseDelivered_undelivered hdrop]
  split
  · simp only [undelivered, len, content]
    omega
  · simp only [undelivered, len, content]
    omega

end DecodeBuffer

theorem bytes_dropFirstN_ring (b : RingBuffer) (n : Nat) :
    bytes (dropFirstN b n) = (bytes b).drop n := rfl

theorem bytes_dropFirstN_flat (b : FlatBuf) (n : Nat) :
    bytes (dropFirstN b n) = (bytes b).drop n := by
  change b.buf.drop (b.head + n) = (b.buf.drop b.head).drop n
  rw [List.drop_drop]

namespace FrameDecoderState

variable {s t : FrameDecoderState}

/-- A drain hands out what there is room for, and touches nothing but the workspace. -/
theorem drainInto_spec {room pending : Nat} {taken : List UInt8}
    (h : s.drainInto room = (taken, pending, t)) :
    taken.length = min s.decoderScratch.bufferUndelivered room ∧
      pending = s.decoderScratch.bufferUndelivered - room ∧
      t.decoderScratch.bufferUndelivered = pending ∧
      t = { s with decoderScratch := t.decoderScratch } := by
  cases h
  cases hk : s.decoderScratch with
  | ring w =>
    simp only [DecodeBuffer.readReportingPending,
      DecoderScratchKind.bufferUndelivered, DecoderScratchKind.onBuffer,
      DecodeBuffer.length_deliverTo, DecodeBuffer.deliverTo_undelivered bytes_dropFirstN_ring]
    refine ⟨by omega, by omega, by omega, trivial⟩
  | flat w =>
    simp only [DecodeBuffer.readReportingPending,
      DecoderScratchKind.bufferUndelivered, DecoderScratchKind.onBuffer,
      DecodeBuffer.length_deliverTo, DecodeBuffer.deliverTo_undelivered bytes_dropFirstN_flat]
    refine ⟨by omega, by omega, by omega, trivial⟩

/-- Whether a source ends before the block it starts with does. -/
def shortOfBlock : List UInt8 → Bool
  | b0 :: b1 :: b2 :: rest =>
    match BlockHeader.parse b0 b1 b2 with
    | .error _ => false
    | .ok header => rest.length < header.contentSize
  | _ => true

theorem shortOfBlock_of_heldBack {source : List UInt8} (h : s.heldBack source = true) :
    shortOfBlock source = true := by
  match source, h with
  | b0 :: b1 :: b2 :: rest, h =>
    simp only [heldBack] at h
    simp only [shortOfBlock]
    split at h
    · cases h
    · simp only [decide_eq_true_eq] at h ⊢
      exact h.2

/-- A block read off a slice is counted whole, and the slice moves on past it. -/
theorem readAvailableBlock_counted {b0 b1 b2 : UInt8} {header : BlockHeader} {reserveWindow : Bool}
    {source rest : List UInt8} {u : Unit} (hparse : BlockHeader.parse b0 b1 b2 = .ok header)
    (h : s.readAvailableBlock reserveWindow header source = (.ok u, t, rest)) :
    s.bytesReadCounter + 3 ≤ t.bytesReadCounter ∧ rest.length ≤ source.length := by
  have hheader : headerAt [b0, b1, b2] 0 = some header :=
    headerAt_of_prefix List.prefix_rfl hparse
  obtain ⟨hread, _, _, _, _, rfl⟩ := readAvailableBlock_ok hheader h
  rw [hread, List.length_drop]
  omega

theorem finishFrameFromSlice_counter (s : FrameDecoderState) (source : List UInt8) :
    s.bytesReadCounter ≤ (s.finishFrameFromSlice source).bytesReadCounter := by
  simp only [finishFrameFromSlice]
  split
  · exact Nat.le_add_right _ _
  · exact Nat.le_refl _

section Round

variable (reserveWindow : Bool) {targetLen pending : Nat} {x : AvailableState} {taken : List UInt8}

/-- What a round comes to in a frame under way: an error, a stop behind the drain, or a block. -/
theorem availableBody_round (hfin : x.state.frameFinished = false)
    (hd : x.state.drainInto (targetLen - x.written.length) = (taken, pending, s)) :
    (∃ e t, availableBody reserveWindow targetLen x = .done (.error e, t)) ∨
    ((0 < pending ∨ (targetLen ≠ 0 ∧ (x.written ++ taken).length = targetLen) ∨
        shortOfBlock x.source = true) ∧
      availableBody reserveWindow targetLen x = .done (.ok (x.written ++ taken), s)) ∨
    (∃ t, s.bytesReadCounter + 3 ≤ t.bytesReadCounter ∧
      availableBody reserveWindow targetLen x = .done (.ok (x.written ++ taken), t)) ∨
    (∃ t rest, s.bytesReadCounter + 3 ≤ t.bytesReadCounter ∧ rest.length < x.source.length ∧
      availableBody reserveWindow targetLen x = .again ⟨t, rest, x.written ++ taken⟩) := by
  simp only [availableBody, hfin, hd, Bool.false_eq_true, if_false]
  split
  · rename_i hstop
    refine .inr (.inl ⟨?_, rfl⟩)
    rcases hstop with hpending | hfull
    · exact .inl hpending
    · exact .inr (.inl hfull)
  · split
    · rename_i b0 b1 b2 rest hsource
      cases hparse : BlockHeader.parse b0 b1 b2 with
      | error e => exact .inl ⟨_, _, rfl⟩
      | ok header =>
        dsimp only
        split
        · rename_i hshort
          refine .inr (.inl ⟨.inr (.inr ?_), rfl⟩)
          simpa [shortOfBlock, hsource, hparse] using hshort
        · cases hblock : s.readAvailableBlock reserveWindow header rest with
          | mk result left =>
            obtain ⟨t, left⟩ := left
            cases result with
            | error e => exact .inl ⟨_, _, rfl⟩
            | ok u =>
              obtain ⟨hcount, hleft⟩ := readAvailableBlock_counted hparse hblock
              dsimp only
              split
              · refine .inr (.inr (.inl ⟨_, ?_, rfl⟩))
                exact hcount.trans (finishFrameFromSlice_counter t left)
              · refine .inr (.inr (.inr ⟨t, left, hcount, ?_, rfl⟩))
                simp only [hsource, List.length_cons]
                omega
    · rename_i hshort
      refine .inr (.inl ⟨.inr (.inr ?_), rfl⟩)
      rcases hsource : x.source with _ | ⟨b0, _ | ⟨b1, _ | ⟨b2, rest⟩⟩⟩
      · rfl
      · rfl
      · rfl
      · exact absurd hsource (hshort b0 b1 b2 rest)

/-- A round with output left behind, or with less than a block, ends with the drain. -/
theorem availableBody_waits (hfin : x.state.frameFinished = false)
    (hd : x.state.drainInto (targetLen - x.written.length) = (taken, pending, s))
    (hwait : 0 < pending ∨ shortOfBlock x.source = true) :
    availableBody reserveWindow targetLen x = .done (.ok (x.written ++ taken), s) := by
  simp only [availableBody, hfin, hd, Bool.false_eq_true, if_false]
  split
  · rfl
  · rename_i hgo
    have hshort := hwait.resolve_left fun hpending => hgo (.inl hpending)
    split
    · rename_i b0 b1 b2 rest hsource
      cases hparse : BlockHeader.parse b0 b1 b2 with
      | error e => simp [hsource, shortOfBlock, hparse] at hshort
      | ok header =>
        have hlt : rest.length < header.contentSize := by
          simpa [hsource, shortOfBlock, hparse] using hshort
        exact if_pos hlt
    · rfl

/-- Calls that end without an error have read and written so much at least. -/
def Ahead (n k : Nat) (r : Except FrameDecoderError (List UInt8) × FrameDecoderState) : Prop :=
  ∀ written, r.1 = .ok written → n ≤ r.2.bytesReadCounter ∧ k ≤ written.length

theorem availableBody_ahead {n k : Nat} (hx : n ≤ x.state.bytesReadCounter ∧ k ≤ x.written.length) :
    (∃ y, availableBody reserveWindow targetLen x = .again y ∧
      (n ≤ y.state.bytesReadCounter ∧ k ≤ y.written.length) ∧
        y.source.length < x.source.length) ∨
    ∃ r, availableBody reserveWindow targetLen x = .done r ∧ Ahead n k r := by
  cases hfin : x.state.frameFinished with
  | true =>
    refine .inr ⟨(.ok x.written, x.state), by simp only [availableBody, hfin, if_true], ?_⟩
    rintro written ⟨⟩
    exact hx
  | false =>
    cases hd : x.state.drainInto (targetLen - x.written.length) with
    | mk taken left =>
      obtain ⟨pending, s⟩ := left
      obtain ⟨_, _, _, hs⟩ := drainInto_spec hd
      have hcount : s.bytesReadCounter = x.state.bytesReadCounter := by rw [hs]
      have hlen : k ≤ (x.written ++ taken).length := by
        rw [List.length_append]
        omega
      rcases availableBody_round reserveWindow hfin hd with
        ⟨e, t, hb⟩ | ⟨_, hb⟩ | ⟨t, ht, hb⟩ | ⟨t, rest, ht, hrest, hb⟩
      · refine .inr ⟨_, hb, ?_⟩
        intro written h
        cases h
      · refine .inr ⟨_, hb, ?_⟩
        rintro written ⟨⟩
        exact ⟨hcount ▸ hx.1, hlen⟩
      · refine .inr ⟨_, hb, ?_⟩
        rintro written ⟨⟩
        exact ⟨by dsimp only; omega, hlen⟩
      · exact .inl ⟨_, hb, ⟨by dsimp only; omega, hlen⟩, hrest⟩

/-- The rounds only ever add to what was read and written. -/
theorem loop_ahead {n k fuel : Nat} {r : Except FrameDecoderError (List UInt8) × FrameDecoderState}
    (hx : n ≤ x.state.bytesReadCounter ∧ k ≤ x.written.length) (hfuel : x.source.length < fuel) :
    Ahead n k ((loop (availableBody reserveWindow targetLen) fuel x).getD r) := by
  obtain ⟨result, hresult, hloop⟩ := loop_total (fun y : AvailableState => y.source.length)
    (fun y hy => availableBody_ahead reserveWindow hy) hx
  rw [hloop fuel hfuel]
  exact hresult

theorem availableLoop_ahead (source : List UInt8) :
    Ahead s.bytesReadCounter 0 (s.availableLoop reserveWindow targetLen source) :=
  loop_ahead reserveWindow ⟨Nat.le_refl _, Nat.le_refl _⟩ (Nat.lt_succ_self _)

/-- The first round hands out a byte or reads a block, where a block is at hand and output that
waits finds room. -/
theorem availableLoop_moves {source : List UInt8} (hfin : s.frameFinished = false)
    (hroom : s.decoderScratch.bufferUndelivered ≠ 0 → targetLen ≠ 0)
    (hblock : s.decoderScratch.bufferUndelivered = 0 → shortOfBlock source = false)
    {written : List UInt8} (h : (s.availableLoop reserveWindow targetLen source).1 = .ok written) :
    s.bytesReadCounter < (s.availableLoop reserveWindow targetLen source).2.bytesReadCounter ∨
      written ≠ [] := by
  cases hd : s.drainInto (targetLen - 0) with
  | mk taken left =>
    obtain ⟨pending, t⟩ := left
    obtain ⟨htaken, hpending, _, ht⟩ := drainInto_spec hd
    have hcount : t.bytesReadCounter = s.bytesReadCounter := by rw [ht]
    simp only [availableLoop, loop] at h ⊢
    rcases availableBody_round reserveWindow (x := ⟨s, source, []⟩) hfin hd with
      ⟨e, u, hb⟩ | ⟨hwait, hb⟩ | ⟨u, hu, hb⟩ | ⟨u, rest, hu, hrest, hb⟩
    · rw [hb] at h
      cases h
    · rw [hb] at h
      cases h
      refine .inr ?_
      apply List.ne_nil_of_length_pos
      rw [List.nil_append, htaken]
      rcases hwait with hp | ⟨hne, hfull⟩ | hshort
      · omega
      · rw [List.nil_append] at hfull
        omega
      · have hsome : s.decoderScratch.bufferUndelivered ≠ 0 := by
          intro hzero
          rw [hblock hzero] at hshort
          cases hshort
        have := hroom hsome
        omega
    · rw [hb] at h ⊢
      refine .inl ?_
      dsimp only [Option.getD]
      omega
    · rw [hb] at h ⊢
      have hstart : s.bytesReadCounter + 3 ≤ u.bytesReadCounter := hcount ▸ hu
      have hend := (loop_ahead reserveWindow (k := 0) ⟨hstart, Nat.zero_le _⟩ hrest written h).1
      exact .inl (Nat.lt_of_lt_of_le (by omega) hend)

/-- Where it does neither, the call ends with the drain. -/
theorem availableLoop_waits {source : List UInt8} (hfin : s.frameFinished = false)
    (hd : s.drainInto targetLen = (taken, pending, t))
    (hwait : 0 < pending ∨ shortOfBlock source = true) :
    s.availableLoop reserveWindow targetLen source = (.ok taken, t) := by
  have hb := availableBody_waits reserveWindow (x := ⟨s, source, []⟩) hfin hd hwait
  simp only [availableLoop, loop, hb]
  rfl

end Round

@[simp] theorem setComputeHash_undelivered (s : FrameDecoderState) (mode : ContentChecksum) :
    (s.setComputeHash mode).decoderScratch.bufferUndelivered =
      s.decoderScratch.bufferUndelivered := by
  cases hk : s.decoderScratch with
  | ring w => simp only [setComputeHash, hk]; rfl
  | flat w => simp only [setComputeHash, hk]; rfl

theorem lateChecksum_underWay {source : List UInt8} (hfin : s.frameFinished = false) :
    s.lateChecksum source = (s, source) := by
  simp [lateChecksum, hfin]

theorem lateChecksum_due {source : List UInt8} (hfin : s.frameFinished = true)
    (hflag : s.frameHeader.descriptor.contentChecksumFlag = true) (hsum : s.checkSum = none)
    (hlen : 4 ≤ source.length) :
    ∃ t, s.lateChecksum source = (t, source.drop 4) ∧
      t.bytesReadCounter = s.bytesReadCounter + 4 :=
  ⟨_, if_pos ⟨hflag, hfin, hsum, hlen⟩, rfl⟩

end FrameDecoderState

namespace FrameDecoder

variable {d : FrameDecoder} {s : FrameDecoderState} {pending : List UInt8} {targetLen : Nat}

theorem read_spec (hs : d.state = some s) (room : Nat) :
    (d.read room).1.length = min room s.decoderScratch.bufferUndelivered ∧
      ∃ k, (d.read room).2.state = some { s with decoderScratch := k } := by
  simp only [read, hs]
  cases hk : s.decoderScratch with
  | ring w =>
    constructor
    · split <;>
        simp only [DecoderScratchKind.bufferReadAll, DecoderScratchKind.bufferRead,
          DecoderScratchKind.runBuffer, DecodeBuffer.readAll, DecodeBuffer.read,
          DecodeBuffer.readReportingPending, DecodeBuffer.length_deliverTo,
          DecoderScratchKind.bufferUndelivered, DecoderScratchKind.onBuffer] <;> omega
    · exact ⟨_, rfl⟩
  | flat w =>
    constructor
    · split <;>
        simp only [DecoderScratchKind.bufferReadAll, DecoderScratchKind.bufferRead,
          DecoderScratchKind.runBuffer, DecodeBuffer.readAll, DecodeBuffer.read,
          DecodeBuffer.readReportingPending, DecodeBuffer.length_deliverTo,
          DecoderScratchKind.bufferUndelivered, DecoderScratchKind.onBuffer] <;> omega
    · exact ⟨_, rfl⟩

theorem isFinished_state {k : DecoderScratchKind}
    (hs : d.state = some { s with decoderScratch := k }) : d.isFinished = s.isFinished := by
  simp [isFinished, hs, FrameDecoderState.isFinished]

/-- The blocks of a call are followed by one more delivery. -/
theorem decodeAvailableFrom_ok {t : FrameDecoderState} (start : Nat) {reserveWindow : Bool}
    {written : List UInt8}
    (h : d.availableBlocks s pending targetLen reserveWindow = (.ok written, t)) :
    ∃ rest k,
      rest.length = min (targetLen - written.length) t.decoderScratch.bufferUndelivered ∧
      (d.decodeAvailableFrom s start pending targetLen reserveWindow).1 =
        .ok (t.bytesReadCounter - start, written ++ rest) ∧
      (d.decodeAvailableFrom s start pending targetLen reserveWindow).2.state =
        some { t with decoderScratch := k } := by
  have hread := read_spec (d := { d with state := some t }) rfl (targetLen - written.length)
  simp only [decodeAvailableFrom, h]
  obtain ⟨hlen, k, hk⟩ := hread
  cases hr : FrameDecoder.read { d with state := some t } (targetLen - written.length) with
  | mk rest d' =>
    rw [hr] at hlen hk
    refine ⟨rest, k, hlen, ?_, hk⟩
    simp

/-- The checks at the finish point only ever turn a call into an error. -/
theorem decodeFromTo_cases (xxh64 : List UInt8 → Nat) (d : FrameDecoder) (pending : List UInt8)
    (targetLen : Nat) :
    (∃ e, (d.decodeFromTo xxh64 pending targetLen).1 = .error e) ∨
      d.decodeFromTo xxh64 pending targetLen = d.decodeAvailable pending targetLen false := by
  simp only [decodeFromTo]
  split
  · exact .inl ⟨_, rfl⟩
  · rename_i hcall
    split
    · split
      · exact .inl ⟨_, rfl⟩
      · split
        · exact .inl ⟨_, rfl⟩
        · exact .inr hcall.symm
    · exact .inr hcall.symm

/-- They are made of a finished frame. -/
theorem decodeFromTo_underWay {progress : Nat × List UInt8} {d' : FrameDecoder}
    (xxh64 : List UInt8 → Nat)
    (h : d.decodeAvailable pending targetLen false = (.ok progress, d'))
    (hfin : d'.isFinished = false) :
    d.decodeFromTo xxh64 pending targetLen = (.ok progress, d') := by
  simp [decodeFromTo, h, hfin]

/-- What the blocks of a call must come to for the call to have moved. -/
theorem progressed_of_blocks (xxh64 : List UInt8 → Nat) (hs : d.state = some s)
    (h : ∀ u, d.checkWindowStillAdmitted = .ok u → ∀ t written,
      d.availableBlocks s pending targetLen false = (.ok written, t) →
        s.bytesReadCounter < t.bytesReadCounter ∨ written ≠ []) :
    Progressed (d.decodeFromTo xxh64 pending targetLen) := by
  intro read out hcall
  rcases decodeFromTo_cases xxh64 d pending targetLen with ⟨e, he⟩ | hsame
  · rw [he] at hcall
    cases hcall
  · rw [hsame, decodeAvailable, hs] at hcall
    split at hcall
    · cases hcall
    · rename_i u hwindow
      cases hb : d.availableBlocks s pending targetLen false with
      | mk result t =>
        cases result with
        | error e =>
          simp only [decodeAvailableFrom, hb] at hcall
          cases hcall
        | ok written =>
          obtain ⟨rest, k, _, hok, _⟩ := decodeAvailableFrom_ok s.bytesReadCounter hb
          dsimp only at hcall
          rw [hok] at hcall
          cases hcall
          rcases h u hwindow t written hb with hcount | hne
          · exact .inl (Nat.sub_pos_of_lt hcount)
          · exact .inr (.inl (List.append_ne_nil_of_left_ne_nil hne rest))

theorem availableBlocks_underWay {reserveWindow : Bool} (hfin : s.frameFinished = false) :
    d.availableBlocks s pending targetLen reserveWindow =
      (s.setComputeHash d.contentChecksum).availableLoop reserveWindow targetLen pending := by
  have hlate : (s.setComputeHash d.contentChecksum).lateChecksum pending =
      (s.setComputeHash d.contentChecksum, pending) :=
    FrameDecoderState.lateChecksum_underWay hfin
  have hopen : s.isFinished = false := by simp [FrameDecoderState.isFinished, hfin]
  simp [availableBlocks, hopen, hlate]

/-- A checksum that is due and in hand is read. -/
theorem availableBlocks_checksum {t : FrameDecoderState} {written : List UInt8}
    (hfin : s.frameFinished = true) (hflag : s.frameHeader.descriptor.contentChecksumFlag = true)
    (hsum : s.checkSum = none) (hlen : 4 ≤ pending.length)
    (h : d.availableBlocks s pending targetLen false = (.ok written, t)) :
    s.bytesReadCounter < t.bytesReadCounter := by
  have hopen : s.isFinished = false := by simp [FrameDecoderState.isFinished, hflag, hsum]
  obtain ⟨u, hlate, hcount⟩ := FrameDecoderState.lateChecksum_due
    (s := s.setComputeHash d.contentChecksum) hfin hflag hsum hlen
  simp only [availableBlocks, hopen, Bool.false_eq_true, if_false, hlate] at h
  have hend := (FrameDecoderState.availableLoop_ahead false (pending.drop 4) written
    (congrArg Prod.fst h)).1
  rw [h, hcount] at hend
  exact Nat.lt_of_lt_of_le (Nat.lt_add_of_pos_right (by decide)) hend

theorem progressed_of_not_stalls (xxh64 : List UInt8 → Nat)
    (hpos : 0 < d.inputNeeded pending) (hneed : d.inputNeeded pending ≤ pending.length)
    (h : d.stalls pending targetLen = false) :
    Progressed (d.decodeFromTo xxh64 pending targetLen) := by
  cases hs : d.state with
  | none =>
    simp only [inputNeeded, hs] at hpos
    cases hpos
  | some s =>
    apply progressed_of_blocks xxh64 hs
    intro u hwindow t written hb
    cases hfin : s.frameFinished with
    | true =>
      simp only [inputNeeded, hs, hfin, if_true] at hpos hneed
      split at hpos
      · rename_i hdue
        rw [if_pos hdue] at hneed
        exact .inl (availableBlocks_checksum hfin hdue.1 hdue.2 hneed hb)
      · cases hpos
    | false =>
      have hcollect : d.canCollect = s.decoderScratch.bufferUndelivered := by
        simp [canCollect, hs]
      simp only [stalls, hwindow, hs, hfin, Bool.not_false, Bool.true_and, hcollect] at h
      rw [availableBlocks_underWay hfin] at hb
      have hok : ((s.setComputeHash d.contentChecksum).availableLoop false targetLen pending).1 =
          .ok written := by rw [hb]
      have hunder : (s.setComputeHash d.contentChecksum).frameFinished = false := hfin
      have hmoves := fun hroom hblock =>
        FrameDecoderState.availableLoop_moves false hunder hroom hblock hok
      rw [hb, FrameDecoderState.setComputeHash_undelivered] at hmoves
      refine hmoves ?_ ?_
      · intro hwaits
        rw [if_neg hwaits] at h
        exact of_decide_eq_false h
      · intro hnone
        rw [if_pos hnone] at h
        obtain ⟨b0, b1, b2, rest, rfl⟩ := three_le_of_inputNeeded hs hfin hneed
        simp only [FrameDecoderState.shortOfBlock]
        split
        · rfl
        · rename_i hparse
          exact decide_eq_false (Nat.not_lt.mpr (content_in_hand hs hfin hneed hparse h))

theorem not_progressed_of_stalls (xxh64 : List UInt8 → Nat)
    (h : d.stalls pending targetLen = true) :
    ¬ Progressed (d.decodeFromTo xxh64 pending targetLen) := by
  simp only [stalls] at h
  split at h
  · rename_i u s hwindow hs
    have hcollect : d.canCollect = s.decoderScratch.bufferUndelivered := by simp [canCollect, hs]
    rw [Bool.and_eq_true, Bool.not_eq_true'] at h
    obtain ⟨hfin, hstall⟩ := h
    cases hd : (s.setComputeHash d.contentChecksum).drainInto targetLen with
    | mk taken left =>
      obtain ⟨rest, t⟩ := left
      obtain ⟨htaken, hrest, hleft, ht⟩ := FrameDecoderState.drainInto_spec hd
      rw [FrameDecoderState.setComputeHash_undelivered] at htaken hrest
      rw [hcollect] at hstall
      have hwait : 0 < rest ∨ FrameDecoderState.shortOfBlock pending = true := by
        split at hstall
        · exact .inr (FrameDecoderState.shortOfBlock_of_heldBack hstall)
        · rename_i hwaits
          have := of_decide_eq_true hstall
          exact .inl (by omega)
      have hnone : min s.decoderScratch.bufferUndelivered targetLen = 0 := by
        split at hstall
        · rename_i hzero
          rw [hzero, Nat.zero_min]
        · rw [of_decide_eq_true hstall, Nat.min_zero]
      have hb : d.availableBlocks s pending targetLen false = (.ok taken, t) := by
        rw [availableBlocks_underWay hfin]
        exact FrameDecoderState.availableLoop_waits false hfin hd hwait
      obtain ⟨out, k, hlen, hok, hstate⟩ := decodeAvailableFrom_ok s.bytesReadCounter hb
      have hempty : taken = [] := List.eq_nil_of_length_eq_zero (htaken.trans hnone)
      have hout : out = [] := by
        apply List.eq_nil_of_length_eq_zero
        rw [hlen, hleft, hempty, List.length_nil]
        omega
      have hcount : t.bytesReadCounter = s.bytesReadCounter := by rw [ht]; rfl
      have hopen : (d.decodeAvailableFrom s s.bytesReadCounter pending targetLen false).2.isFinished =
          false := by
        rw [isFinished_state hstate, ht]
        simp [FrameDecoderState.isFinished, FrameDecoderState.setComputeHash, hfin]
      have hcall : d.decodeAvailable pending targetLen false =
          (.ok (0, []), (d.decodeAvailableFrom s s.bytesReadCounter pending targetLen false).2) := by
        simp only [decodeAvailable, hwindow, hs]
        refine Prod.ext (hok.trans ?_) rfl
        rw [hcount, Nat.sub_self, hempty, hout]
        rfl
      intro hmoved
      rw [decodeFromTo_underWay xxh64 hcall hopen] at hmoved
      rcases hmoved 0 [] rfl with hread | hne | hdone
      · cases hread
      · exact hne rfl
      · rw [hopen] at hdone
        cases hdone
  · cases h

end FrameDecoder

namespace Session

/-- Whether a call has the bytes that are asked for, and room for a block. -/
def Supplied (input : List UInt8) (x : Session) (avail targetLen : Nat) : Prop :=
  0 < x.decoder.inputNeeded (x.source input avail) ∧
    x.decoder.inputNeeded (x.source input avail) ≤ (x.source input avail).length ∧
    ∀ s, x.decoder.state = some s → s.blockMaximum ≤ targetLen

/-- A call of `decode_from_to` that is supplied moves on. -/
def MovesOn (xxh64 : List UInt8 → Nat) (input : List UInt8) (x : Session) : Call → Prop
  | .decodeFromTo avail targetLen =>
    x.Supplied input avail targetLen →
      Progressed (x.decoder.decodeFromTo xxh64 (x.source input avail) targetLen)
  | _ => True

/-- A call of `decode_from_to` that is supplied is not made where it stalls. -/
def Clear (input : List UInt8) (x : Session) : Call → Prop
  | .decodeFromTo avail targetLen =>
    x.Supplied input avail targetLen →
      x.decoder.stalls (x.source input avail) targetLen = false
  | _ => True

/-- What holds of every call of a run, in the state it is made in. -/
def Every (xxh64 : List UInt8 → Nat) (input : List UInt8) (P : Session → Call → Prop) :
    Session → List Call → Prop
  | _, [] => True
  | x, c :: calls => P x c ∧ Every xxh64 input P (x.call xxh64 input c) calls

variable {xxh64 : List UInt8 → Nat} {input : List UInt8} {x : Session}

theorem Every.mono {P Q : Session → Call → Prop} (hstep : ∀ x c, P x c → Q x c)
    {calls : List Call} (h : Every xxh64 input P x calls) : Every xxh64 input Q x calls := by
  induction calls generalizing x with
  | nil => trivial
  | cons c calls ih => exact ⟨hstep x c h.1, ih h.2⟩

theorem Clear.movesOn (xxh64 : List UInt8 → Nat) {c : Call} (h : x.Clear input c) :
    x.MovesOn xxh64 input c := by
  cases c with
  | decodeFromTo avail targetLen =>
    intro hs
    exact FrameDecoder.progressed_of_not_stalls xxh64 hs.1 hs.2.1 (h hs)
  | _ => trivial

theorem MovesOn.clear {c : Call} (h : x.MovesOn xxh64 input c) : x.Clear input c := by
  cases c with
  | decodeFromTo avail targetLen =>
    intro hs
    by_contra hstall
    exact FrameDecoder.not_progressed_of_stalls xxh64 (Bool.eq_true_of_not_eq_false hstall) (h hs)
  | _ => trivial

/-- The bytes a call reads and hands out. -/
def gain (call : Except FrameDecoderError (Nat × List UInt8) × FrameDecoder) : Nat :=
  match call.1 with
  | .error _ => 0
  | .ok (read, out) => read + out.length

/-- What a run of `decode_from_to` reads and hands out. -/
def totalGain (xxh64 : List UInt8 → Nat) (input : List UInt8) : Session → List (Nat × Nat) → Nat
  | _, [] => 0
  | x, (avail, targetLen) :: calls =>
    gain (x.decoder.decodeFromTo xxh64 (x.source input avail) targetLen) +
      totalGain xxh64 input (x.call xxh64 input (.decodeFromTo avail targetLen)) calls

/-- A supplied call that neither fails nor finishes its frame. -/
def KeepsOn (xxh64 : List UInt8 → Nat) (input : List UInt8) (x : Session) : Call → Prop
  | .decodeFromTo avail targetLen =>
    x.Supplied input avail targetLen ∧
      x.decoder.stalls (x.source input avail) targetLen = false ∧
      (x.decoder.decodeFromTo xxh64 (x.source input avail) targetLen).1.isOk = true ∧
      (x.decoder.decodeFromTo xxh64 (x.source input avail) targetLen).2.isFinished = false
  | _ => True

/-- Supplied calls that do not stall are no more than the bytes they move. -/
theorem calls_le_totalGain {calls : List (Nat × Nat)}
    (h : Every xxh64 input (KeepsOn xxh64 input) x
      (calls.map fun c => .decodeFromTo c.1 c.2)) :
    calls.length ≤ totalGain xxh64 input x calls := by
  induction calls generalizing x with
  | nil => exact Nat.le_refl 0
  | cons c calls ih =>
    obtain ⟨avail, targetLen⟩ := c
    obtain ⟨⟨hsupplied, hclear, hok, hopen⟩, hrest⟩ := h
    have hmoved := FrameDecoder.progressed_of_not_stalls xxh64 hsupplied.1 hsupplied.2.1 hclear
    have hgain : 1 ≤ gain (x.decoder.decodeFromTo xxh64 (x.source input avail) targetLen) := by
      simp only [gain]
      split
      · rename_i herr
        rw [herr] at hok
        cases hok
      · rename_i read out hcall
        rcases hmoved read out hcall with hread | hout | hdone
        · omega
        · have := List.length_pos_iff.mpr hout
          omega
        · rw [hopen] at hdone
          cases hdone
    rw [List.length_cons, totalGain, Nat.add_comm]
    exact Nat.add_le_add hgain (ih hrest)

end Session

/-- Over any calls on a frame, the supplied ones all move on exactly when none of them stalls. -/
theorem supplied_calls_move_on_iff (xxh64 : List UInt8 → Nat) (input : List UInt8) (x : Session)
    (calls : List Call) :
    Session.Every xxh64 input (Session.MovesOn xxh64 input) x calls ↔
      Session.Every xxh64 input (Session.Clear input) x calls :=
  ⟨fun h => h.mono fun _ _ => Session.MovesOn.clear,
    fun h => h.mono fun _ _ => Session.Clear.movesOn xxh64⟩

/-- The decoder of a frame with a window of 1 KiB, its header just read. -/
def smallWindowDecoder : FrameDecoder :=
  (FrameDecoder.new.resetWithDictHandles ⟨[0x28, 0xB5, 0x2F, 0xFD, 0, 0], 0⟩ []).2.1

/-- The header of a raw block of 2000 bytes is all that is asked for, and nothing comes of it. -/
theorem block_past_maximum_livelocks :
    FrameDecoder.new.resetWithDictHandles ⟨[0x28, 0xB5, 0x2F, 0xFD, 0, 0], 0⟩ [] =
        (.ok (), smallWindowDecoder, ⟨[], 0⟩) ∧
      smallWindowDecoder.inputNeeded [0x81, 0x3E, 0] = 3 ∧
      ¬ Session.Every (fun _ => 0) [0x81, 0x3E, 0]
        (Session.MovesOn (fun _ => 0) [0x81, 0x3E, 0]) { decoder := smallWindowDecoder }
        [.decodeFromTo 3 1024] := by
  refine ⟨rfl, by decide +kernel, ?_⟩
  rintro ⟨hmoves, -⟩
  refine FrameDecoder.not_progressed_of_stalls _ (by decide +kernel) (hmoves ⟨?_, ?_, ?_⟩)
  · decide +kernel
  · decide +kernel
  · intro s hs
    cases hs
    decide +kernel

end Decoding
