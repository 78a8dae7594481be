import StructuredZstd.Decoding.BlockReads

namespace Decoding

open Bits Runs

/-- A frame under way, and how far into its blocks its caller is. `broken` says that a call has
reported a block it could not decode. -/
structure Session where
  decoder : FrameDecoder
  pos : Nat := 0
  broken : Bool := false

/-- The calls on a frame: `avail` bytes of the input are at hand. -/
inductive Call where
  | decodeBlocks (avail kept : Nat) (strat : BlockDecodingStrategy)
  | decodeAvailable (avail targetLen : Nat) (reserveWindow : Bool)
  | decodeFromTo (avail targetLen : Nat)
  | isFinished
  | read (targetLen : Nat)
  | collect

/-- The error of a block that was given up behind its header. -/
def FrameDecoderError.isBlockBody : FrameDecoderError → Bool
  | .failedToReadBlockBodyAt .. => true
  | _ => false

def brokeOff {α : Type} : Except FrameDecoderError α → Bool
  | .error e => e.isBlockBody
  | .ok _ => false

namespace Session

/-- What a call is given: the input where the last call left it. -/
def source (input : List UInt8) (x : Session) (avail : Nat) : List UInt8 :=
  (input.drop x.pos).take avail

/-- A slice has lost what the call says. A call that fails says nothing, and its caller goes by
`bytes_read_from_source`. -/
def advance (x : Session) (call : Except FrameDecoderError (Nat × List UInt8) × FrameDecoder) :
    Session where
  decoder := call.2
  pos := match call.1 with
    | .ok (read, _) => x.pos + read
    | .error _ => x.pos + (call.2.bytesReadFromSource - x.decoder.bytesReadFromSource)
  broken := x.broken || brokeOff call.1

/-- One call. A reader has lost what it gave up. -/
def call (xxh64 : List UInt8 → Nat) (input : List UInt8) (x : Session) : Call → Session
  | .decodeBlocks avail kept strat =>
    let source := x.source input avail
    let (result, decoder, rest) := x.decoder.decodeBlocks ⟨source, kept⟩ strat
    { decoder := decoder
      pos := x.pos + (source.length - rest.bytes.length)
      broken := x.broken || brokeOff result }
  | .decodeAvailable avail targetLen reserveWindow =>
    x.advance (x.decoder.decodeAvailable (x.source input avail) targetLen reserveWindow)
  | .decodeFromTo avail targetLen =>
    x.advance (x.decoder.decodeFromTo xxh64 (x.source input avail) targetLen)
  | .isFinished => x
  | .read targetLen => { x with decoder := (x.decoder.read targetLen).2 }
  | .collect => { x with decoder := x.decoder.collect.2 }

/-- The states a call parses a block header in, with the place of the header. -/
def headerReads (input : List UInt8) (x : Session) : Call → List (FrameDecoderState × Nat)
  | .decodeBlocks avail kept strat =>
    let source := x.source input avail
    ((x.decoder.blockStates ⟨source, kept⟩ strat).filter (3 ≤ ·.2.bytes.length)).map
      fun y => (y.1, x.pos + (source.length - y.2.bytes.length))
  | .decodeAvailable avail targetLen reserveWindow =>
    let source := x.source input avail
    ((x.decoder.availableStates source targetLen reserveWindow).filter
      fun y => ¬ y.state.frameFinished ∧ 3 ≤ y.source.length).map
        fun y => (y.state, x.pos + (source.length - y.source.length))
  | .decodeFromTo avail targetLen =>
    let source := x.source input avail
    ((x.decoder.availableStates source targetLen false).filter
      fun y => ¬ y.state.frameFinished ∧ 3 ≤ y.source.length).map
        fun y => (y.state, x.pos + (source.length - y.source.length))
  | .isFinished | .read _ | .collect => []

/-- What the calls on a frame of `headerLen` bytes of header should keep to: no header is parsed
behind the last block, no block is decoded after it, and the bytes taken are the bytes counted. -/
def StaysInFrame (xxh64 : List UInt8 → Nat) (input : List UInt8) (headerLen : Nat) :
    Session → List Call → Prop
  | x, [] => x.decoder.bytesReadFromSource = headerLen + x.pos
  | x, c :: calls =>
    x.decoder.bytesReadFromSource = headerLen + x.pos ∧
      (∀ y ∈ x.headerReads input c,
        y.1.frameFinished = false ∧ ∀ e, BlocksEnd input e → y.2 + 3 ≤ e) ∧
      StaysInFrame xxh64 input headerLen (x.call xxh64 input c) calls

end Session

namespace FrameDecoderState

/-- What a round of `decode_blocks` does not count is not taken: a read that fails leaves the
reader where it was. -/
def countsWhatItTakes (s : FrameDecoderState) (r : Reader) : Bool :=
  match readBlockHeader r with
  | (.error _, r') => r' = r
  | (.ok header, r') =>
    match s.decoderScratch.decodeBlockContent header s.dictRef r' with
    | (.error _, _, r'') => r'' = r'
    | (.ok _, _, r'') =>
      !(header.lastBlock && s.frameHeader.descriptor.contentChecksumFlag) ||
        (r''.readExact 4).1.isSome || (r''.readExact 4).2 = r''

end FrameDecoderState

namespace Session

/-- The calls that keep to their frame: none is offered bytes after a block that could not be
decoded, `decode_blocks` none after the last block, and its reader gives up nothing in a read
that fails. -/
def orderly (input : List UInt8) (x : Session) : Call → Bool
  | .decodeBlocks avail kept strat =>
    (!(x.broken || x.decoder.state.any (·.frameFinished)) || (x.source input avail).isEmpty) &&
      (x.decoder.blockStates ⟨x.source input avail, kept⟩ strat).all
        fun y => y.1.countsWhatItTakes y.2
  | .decodeAvailable avail _ _ | .decodeFromTo avail _ =>
    !x.broken || (x.source input avail).isEmpty
  | .isFinished | .read _ | .collect => true

def orderlyRun (xxh64 : List UInt8 → Nat) (input : List UInt8) : Session → List Call → Bool
  | _, [] => true
  | x, c :: calls => x.orderly input c && orderlyRun xxh64 input (x.call xxh64 input c) calls

end Session

/-- A decoder stands where its counters say. -/
structure FrameDecoderState.InFrame (input : List UInt8) (headerLen : Nat)
    (s : FrameDecoderState) (pos : Nat) (broken : Bool) : Prop where
  counted : s.bytesReadCounter = headerLen + pos
  underWay : s.frameFinished = false → s.checkSum = none
  next : s.frameFinished = false → broken = false → blockStart input s.blockCounter = some pos
  finished : s.frameFinished = true →
    ∃ e, BlocksEnd input e ∧ pos = e + if s.checkSum.isSome then 4 else 0

namespace FrameDecoderState

/-- Only the counters and the flags matter. -/
theorem InFrame.of_eq {input : List UInt8} {headerLen pos : Nat} {s t : FrameDecoderState}
    {b : Bool} (h : s.InFrame input headerLen pos b)
    (hread : t.bytesReadCounter = s.bytesReadCounter) (hblock : t.blockCounter = s.blockCounter)
    (hfin : t.frameFinished = s.frameFinished) (hsum : t.checkSum = s.checkSum) :
    t.InFrame input headerLen pos b where
  counted := hread.trans h.counted
  underWay hf := hsum.trans (h.underWay (hfin.symm.trans hf))
  next hf hb := by
    rw [hblock]
    exact h.next (hfin.symm.trans hf) hb
  finished hf := by
    rw [hsum]
    exact h.finished (hfin.symm.trans hf)

/-- A header counted, with its block refused. -/
theorem InFrame.header {input : List UInt8} {headerLen pos : Nat} {s : FrameDecoderState}
    {b : Bool} (h : s.InFrame input headerLen pos b) (hfin : s.frameFinished = false)
    (scratch : DecoderScratchKind) :
    ({ s with
      bytesReadCounter := s.bytesReadCounter + 3
      decoderScratch := scratch }).InFrame input headerLen (pos + 3) true where
  counted := by rw [h.counted, Nat.add_assoc]
  underWay := h.underWay
  next _ hb := by cases hb
  finished hf := by
    rw [hfin] at hf
    cases hf

/-- A block counted that was not the last. -/
theorem InFrame.block {input : List UInt8} {headerLen pos : Nat} {s s' : FrameDecoderState}
    {header : BlockHeader} (h : s.InFrame input headerLen pos false)
    (hfin : s.frameFinished = false) (hh : headerAt input pos = some header)
    (hlast : header.lastBlock = false)
    (hread : s'.bytesReadCounter = s.bytesReadCounter + 3 + header.contentSize)
    (hblock : s'.blockCounter = s.blockCounter + 1) (hfin' : s'.frameFinished = false)
    (hsum : s'.checkSum = s.checkSum) :
    s'.InFrame input headerLen (pos + 3 + header.contentSize) false where
  counted := by rw [hread, h.counted, Nat.add_assoc, Nat.add_assoc, Nat.add_assoc]
  underWay _ := hsum.trans (h.underWay hfin)
  next _ _ := by
    rw [hblock]
    exact blockStart_succ (h.next hfin rfl) hh hlast
  finished hf := by
    rw [hfin'] at hf
    cases hf

/-- The last block counted, and `sumLen` bytes of checksum. -/
theorem InFrame.lastBlock {input : List UInt8} {headerLen pos : Nat} {s t : FrameDecoderState}
    {header : BlockHeader} (h : s.InFrame input headerLen pos false)
    (hfin : s.frameFinished = false) (hh : headerAt input pos = some header)
    (hlast : header.lastBlock = true) (hfin' : t.frameFinished = true)
    (hread : t.bytesReadCounter = s.bytesReadCounter + 3 + header.contentSize +
      if t.checkSum.isSome then 4 else 0) :
    t.InFrame input headerLen
      (pos + 3 + header.contentSize + if t.checkSum.isSome then 4 else 0) false where
  counted := by rw [hread, h.counted]; omega
  underWay hf := by
    rw [hfin'] at hf
    cases hf
  next hf := by
    rw [hfin'] at hf
    cases hf
  finished _ := ⟨_, ⟨_, _, header, h.next hfin rfl, hh, hlast, rfl⟩, rfl⟩

/-- Where a round of `decode_blocks` begins, on a reader that `total` is the end of. -/
def AtBlock (input : List UInt8) (headerLen start total : Nat) (b : Bool)
    (x : FrameDecoderState × Reader) : Prop :=
  ∃ pos, start ≤ pos ∧ x.2.At input pos ∧ pos + x.2.bytes.length = total ∧
    x.1.InFrame input headerLen pos b ∧ (x.1.frameFinished = true ∨ b = true → x.2.bytes = [])

/-- Where the rounds of `decode_blocks` end. -/
def LeftAt (input : List UInt8) (headerLen start total : Nat) (b : Bool)
    (r : Except FrameDecoderError Unit × FrameDecoderState × Reader) : Prop :=
  ∃ pos, start ≤ pos ∧ pos + r.2.2.bytes.length = total ∧
    r.2.1.InFrame input headerLen pos (b || brokeOff r.1)

section

variable {input : List UInt8} {headerLen start total : Nat} {b : Bool} {s t : FrameDecoderState}
  {r r' : Reader}

theorem readBlock_error {e : FrameDecoderError} (hs : AtBlock input headerLen start total b (s, r))
    (hc : s.countsWhatItTakes r) (h : s.readBlock r = (.error e, t, r')) :
    LeftAt input headerLen start total b (.error e, t, r') := by
  obtain ⟨pos, hstart, hat, htotal, hin, hempty⟩ := hs
  dsimp only at hat htotal hin hempty
  simp only [countsWhatItTakes] at hc
  simp only [readBlock] at h
  split at h
  · rename_i hread
    cases h
    simp only [hread, decide_eq_true_eq] at hc
    subst hc
    exact ⟨pos, hstart, htotal, by simpa [brokeOff, FrameDecoderError.isBlockBody] using hin⟩
  · rename_i header r1 hread
    obtain ⟨hlen, hheader, rfl⟩ := readBlockHeader_ok hread hat
    simp only [hread] at hc
    split at h
    · rename_i hcontent
      cases h
      simp only [dictRef] at hcontent
      simp only [dictRef, hcontent, decide_eq_true_eq] at hc
      subst hc
      have hfin : s.frameFinished = false := by
        cases hf : s.frameFinished with
        | false => rfl
        | true => simp [hempty (.inl hf)] at hlen
      refine ⟨pos + 3, by omega, ?_, ?_⟩
      · dsimp only
        rw [List.length_drop]
        omega
      · rw [brokeOff, blockBodyDecodeError, FrameDecoderError.isBlockBody, Bool.or_true]
        exact hin.header hfin _
    · cases h

theorem readBlock_ok {header : BlockHeader} (hs : AtBlock input headerLen start total b (s, r))
    (h : s.readBlock r = (.ok header, t, r')) :
    b = false ∧ s.frameFinished = false ∧ ∃ pos, start ≤ pos ∧
      s.InFrame input headerLen pos false ∧ headerAt input pos = some header ∧
      t.bytesReadCounter = s.bytesReadCounter + 3 + header.contentSize ∧
      t.blockCounter = s.blockCounter + 1 ∧ t.frameFinished = false ∧
      t.checkSum = s.checkSum ∧ r'.At input (pos + 3 + header.contentSize) ∧
      pos + 3 + header.contentSize + r'.bytes.length = total := by
  obtain ⟨pos, hstart, hat, htotal, hin, hempty⟩ := hs
  dsimp only at hat htotal hin hempty
  simp only [readBlock] at h
  split at h
  · cases h
  · rename_i header' r1 hread
    obtain ⟨hlen, hheader, rfl⟩ := readBlockHeader_ok hread hat
    have hwhole : ¬ (s.frameFinished = true ∨ b = true) := fun hf => by
      simp [hempty hf] at hlen
    have hfin : s.frameFinished = false := by simpa using fun hf => hwhole (.inl hf)
    have hb : b = false := by simpa using fun hf => hwhole (.inr hf)
    subst hb
    split at h
    · cases h
    · rename_i hcontent
      cases h
      obtain ⟨rfl, hn, rfl⟩ := DecoderScratchKind.decodeBlockContent_ok hheader hcontent
      refine ⟨rfl, hfin, pos, hstart, hin, hheader, rfl, rfl, hfin, rfl, hat.drop.drop, ?_⟩
      dsimp only at hn ⊢
      rw [List.length_drop] at hn
      rw [List.length_drop, List.length_drop]
      omega

theorem readBlock_checksum {header : BlockHeader} (hc : s.countsWhatItTakes r)
    (h : s.readBlock r = (.ok header, t, r')) :
    t.frameHeader = s.frameHeader ∧
      (header.lastBlock = true → s.frameHeader.descriptor.contentChecksumFlag = true →
        (r'.readExact 4).1.isSome ∨ (r'.readExact 4).2 = r') := by
  simp only [countsWhatItTakes] at hc
  simp only [readBlock] at h
  split at h
  · cases h
  · rename_i hread
    simp only [hread] at hc
    split at h
    · cases h
    · rename_i hcontent
      cases h
      simp only [dictRef] at hcontent
      simp only [dictRef, hcontent] at hc
      refine ⟨rfl, fun hlast hflag => ?_⟩
      simpa [hlast, hflag] using hc

/-- The checksum behind the last block. -/
theorem finishFrame_leftAt {pos : Nat} {header : BlockHeader} (hstart : start ≤ pos)
    (hin : s.InFrame input headerLen pos false) (hfin : s.frameFinished = false)
    (hheader : headerAt input pos = some header) (hlast : header.lastBlock = true)
    (hread : t.bytesReadCounter = s.bytesReadCounter + 3 + header.contentSize)
    (hsum : t.checkSum = s.checkSum)
    (htotal : pos + 3 + header.contentSize + r.bytes.length = total)
    (hc : t.frameHeader.descriptor.contentChecksumFlag = true →
      (r.readExact 4).1.isSome ∨ (r.readExact 4).2 = r) :
    LeftAt input headerLen start total false (t.finishFrame r) := by
  have hnone : t.checkSum = none := hsum.trans (hin.underWay hfin)
  simp only [finishFrame]
  split
  · rename_i hflag
    split
    · rename_i r' hshort
      rw [hshort] at hc
      have hr : r' = r := by simpa using hc hflag
      subst hr
      refine ⟨_, by omega, htotal, ?_⟩
      have := hin.lastBlock (t := { t with frameFinished := true }) hfin hheader hlast rfl
        (by simp [hnone, hread])
      simpa [hnone, brokeOff, FrameDecoderError.isBlockBody] using this
    · rename_i chksum r' hfour
      obtain ⟨hlen, _, rfl⟩ := Reader.readExact_some hfour
      refine ⟨pos + 3 + header.contentSize + 4, by omega, ?_, ?_⟩
      · simp only [List.length_drop]
        omega
      · exact hin.lastBlock (t := { t with
          frameFinished := true
          bytesReadCounter := t.bytesReadCounter + 4
          checkSum := some (le chksum) }) hfin hheader hlast rfl (by simp [hread])
  · refine ⟨_, by omega, htotal, ?_⟩
    have := hin.lastBlock (t := { t with frameFinished := true }) hfin hheader hlast rfl
      (by simp [hnone, hread])
    simpa [hnone, brokeOff] using this

theorem decodeBlocksBody_again {strat : BlockDecodingStrategy} {m n : Nat}
    {x x' : FrameDecoderState × Reader} (hx : AtBlock input headerLen start total b x)
    (h : decodeBlocksBody strat m n x = .again x') : AtBlock input headerLen start total b x' := by
  obtain ⟨s, r⟩ := x
  simp only [decodeBlocksBody] at h
  split at h
  · cases h
  · rename_i header s1 r1 hblock
    obtain ⟨rfl, hfin, pos, hstart, hin, hheader, hread, hcount, hfin', hsum, hat, htotal⟩ :=
      readBlock_ok hx hblock
    split at h
    · cases h
    · rename_i hlast
      split at h
      · cases h
      · cases h
        refine ⟨_, by omega, hat, htotal, ?_, ?_⟩
        · exact hin.block hfin hheader (by simpa using hlast) hread hcount hfin' hsum
        · simp [hfin']

theorem decodeBlocksBody_done {strat : BlockDecodingStrategy} {m n : Nat}
    {x : FrameDecoderState × Reader}
    {result : Except FrameDecoderError Unit × FrameDecoderState × Reader}
    (hx : AtBlock input headerLen start total b x) (hc : x.1.countsWhatItTakes x.2)
    (h : decodeBlocksBody strat m n x = .done result) :
    LeftAt input headerLen start total b result := by
  obtain ⟨s, r⟩ := x
  simp only [decodeBlocksBody] at h
  split at h
  · rename_i hblock
    cases h
    exact readBlock_error hx hc hblock
  · rename_i header s1 r1 hblock
    obtain ⟨rfl, hfin, pos, hstart, hin, hheader, hread, hcount, hfin', hsum, hat, htotal⟩ :=
      readBlock_ok hx hblock
    split at h
    · rename_i hlast
      cases h
      obtain ⟨hframe, hkeeps⟩ := readBlock_checksum hc hblock
      rw [← hframe] at hkeeps
      exact finishFrame_leftAt hstart hin hfin hheader hlast hread hsum htotal (hkeeps hlast)
    · rename_i hlast
      split at h
      · cases h
        exact ⟨_, by omega, htotal,
          hin.block hfin hheader (by simpa using hlast) hread hcount hfin' hsum⟩
      · cases h

/-- Where a round of `decode_available` begins, on a slice that `total` is the end of. -/
def AtAvailable (input : List UInt8) (headerLen start total : Nat) (b : Bool) (x : AvailableState) :
    Prop :=
  ∃ pos, start ≤ pos ∧ x.source <+: input.drop pos ∧ pos + x.source.length = total ∧
    x.state.InFrame input headerLen pos b ∧ (b = true → x.source = [])

/-- Where the rounds of `decode_available` end: the counter tells. -/
def LeftAvailable (input : List UInt8) (headerLen start : Nat) (b : Bool)
    (r : Except FrameDecoderError (List UInt8) × FrameDecoderState) : Prop :=
  ∃ pos, start ≤ pos ∧ r.2.InFrame input headerLen pos (b || brokeOff r.1)

theorem drainInto_inFrame {room pending pos : Nat} {taken : List UInt8}
    (hin : s.InFrame input headerLen pos b) (h : s.drainInto room = (taken, pending, t)) :
    t.InFrame input headerLen pos b ∧ t.frameFinished = s.frameFinished := by
  cases h
  exact ⟨hin.of_eq rfl rfl rfl rfl, rfl⟩

theorem enterBlock_counters (s : FrameDecoderState) (reserveWindow : Bool) :
    (s.enterBlock reserveWindow).bytesReadCounter = s.bytesReadCounter + 3 ∧
      (s.enterBlock reserveWindow).blockCounter = s.blockCounter ∧
      (s.enterBlock reserveWindow).frameFinished = s.frameFinished ∧
      (s.enterBlock reserveWindow).checkSum = s.checkSum := by
  simp only [enterBlock]
  split
  · exact ⟨rfl, rfl, rfl, rfl⟩
  · exact ⟨rfl, rfl, rfl, rfl⟩

theorem readAvailableBlock_error {reserveWindow : Bool} {header : BlockHeader}
    {source rest : List UInt8} {e : FrameDecoderError} {pos : Nat}
    (hin : s.InFrame input headerLen pos b) (hfin : s.frameFinished = false)
    (h : s.readAvailableBlock reserveWindow header source = (.error e, t, rest)) :
    t.InFrame input headerLen (pos + 3) true ∧ brokeOff (α := List UInt8) (.error e) = true := by
  obtain ⟨hread, hblock, hfin', hsum⟩ := enterBlock_counters s reserveWindow
  simp only [readAvailableBlock] at h
  split at h
  · cases h
    exact ⟨(hin.header hfin s.decoderScratch).of_eq hread hblock hfin' hsum, rfl⟩
  · cases h

theorem readAvailableBlock_ok {reserveWindow : Bool} {header : BlockHeader}
    {source rest : List UInt8} {u : Unit} {pos : Nat} (hh : headerAt input pos = some header)
    (h : s.readAvailableBlock reserveWindow header source = (.ok u, t, rest)) :
    t.bytesReadCounter = s.bytesReadCounter + 3 + header.contentSize ∧
      t.blockCounter = s.blockCounter + 1 ∧ t.frameFinished = s.frameFinished ∧
      t.checkSum = s.checkSum ∧ header.contentSize ≤ source.length ∧
      rest = source.drop header.contentSize := by
  obtain ⟨hread, hblock, hfin', hsum⟩ := enterBlock_counters s reserveWindow
  simp only [readAvailableBlock] at h
  split at h
  · cases h
  · rename_i hcontent
    obtain ⟨rfl, hn, rfl⟩ := DecoderScratchKind.decodeBlockContentFromSlice_ok hh hcontent
    cases h
    refine ⟨?_, ?_, hfin', hsum, hn, rfl⟩
    · dsimp only
      rw [hread]
    · dsimp only
      rw [hblock]

theorem finishFrameFromSlice_inFrame {pos : Nat} {header : BlockHeader} (source : List UInt8)
    (hin : s.InFrame input headerLen pos false) (hfin : s.frameFinished = false)
    (hheader : headerAt input pos = some header) (hlast : header.lastBlock = true)
    (hread : t.bytesReadCounter = s.bytesReadCounter + 3 + header.contentSize)
    (hsum : t.checkSum = s.checkSum) :
    ∃ p, pos ≤ p ∧ (t.finishFrameFromSlice source).InFrame input headerLen p false := by
  have hnone : t.checkSum = none := hsum.trans (hin.underWay hfin)
  simp only [finishFrameFromSlice]
  split
  · exact ⟨_, by omega, hin.lastBlock hfin hheader hlast rfl (by simp [hread])⟩
  · exact ⟨_, by omega, hin.lastBlock hfin hheader hlast rfl (by simp [hnone, hread])⟩

theorem headerAt_of_prefix {pos : Nat} {b0 b1 b2 : UInt8} {rest : List UInt8}
    {header : BlockHeader} (h : b0 :: b1 :: b2 :: rest <+: input.drop pos)
    (hp : BlockHeader.parse b0 b1 b2 = .ok header) : headerAt input pos = some header := by
  obtain ⟨tail, htail⟩ := h
  simp only [headerAt, ← htail, List.cons_append, hp]
  rfl

/-- What a round of `decode_available` does: it stops with the frame where it was, or it breaks a
block off, or it decodes one, which may be the last. -/
theorem availableBody_cases {reserveWindow : Bool} {targetLen : Nat} {x : AvailableState}
    (hx : AtAvailable input headerLen start total b x) :
    (∃ result, availableBody reserveWindow targetLen x = .done result ∧
      LeftAvailable input headerLen start b result) ∨
    ∃ x', availableBody reserveWindow targetLen x = .again x' ∧
      AtAvailable input headerLen start total b x' := by
  obtain ⟨pos, hstart, hat, htotal, hin, hempty⟩ := hx
  unfold availableBody
  split
  · exact .inl ⟨_, rfl, pos, hstart, by simpa [brokeOff] using hin⟩
  · rename_i hfin
    cases hd : x.state.drainInto (targetLen - x.written.length) with
    | mk taken rest =>
      obtain ⟨pending, s1⟩ := rest
      obtain ⟨hin1, hfin1⟩ := drainInto_inFrame hin hd
      have hfin2 : s1.frameFinished = false := hfin1.trans (by simpa using hfin)
      dsimp only
      split
      · exact .inl ⟨_, rfl, pos, hstart, by simpa [brokeOff] using hin1⟩
      · split
        · rename_i b0 b1 b2 rest hsource
          have hb : b = false := by
            cases b with
            | false => rfl
            | true =>
              rw [hempty rfl] at hsource
              cases hsource
          subst hb
          rw [hsource] at hat htotal
          split
          · exact .inl ⟨_, rfl, pos, hstart, by
            simpa [brokeOff, FrameDecoderError.isBlockBody] using hin1⟩
          · rename_i header hparse
            have hheader := headerAt_of_prefix hat hparse
            split
            · exact .inl ⟨_, rfl, pos, hstart, by simpa [brokeOff] using hin1⟩
            · split
              · rename_i hblock
                obtain ⟨hleft, hbroke⟩ := readAvailableBlock_error hin1 hfin2 hblock
                refine .inl ⟨_, rfl, pos + 3, by omega, ?_⟩
                rw [hbroke]
                exact hleft
              · rename_i hblock
                obtain ⟨hread, hcount, hfin', hsum, hlen, rfl⟩ :=
                  readAvailableBlock_ok hheader hblock
                split
                · rename_i hlast
                  obtain ⟨p, hle, hp⟩ := finishFrameFromSlice_inFrame _ hin1 hfin2 hheader hlast
                    hread hsum
                  exact .inl ⟨_, rfl, p, Nat.le_trans hstart hle, hp⟩
                · rename_i hlast
                  refine .inr ⟨_, rfl, pos + 3 + header.contentSize, by omega, ?_, ?_, ?_, ?_⟩
                  · have := Reader.At.drop (r := ⟨_, 0⟩) (n := 3) hat
                    exact Reader.At.drop (r := ⟨rest, 0⟩) (n := header.contentSize) this
                  · simp only [List.length_cons] at htotal
                    dsimp only
                    rw [List.length_drop]
                    omega
                  · exact hin1.block hfin2 hheader (by simpa using hlast) hread hcount
                      (hfin'.trans hfin2) hsum
                  · intro hb
                    cases hb
        · exact .inl ⟨_, rfl, pos, hstart, by simpa [brokeOff] using hin1⟩

theorem lateChecksum_atAvailable {source source' : List UInt8} {pos : Nat}
    (hat : source <+: input.drop pos) (hin : s.InFrame input headerLen pos b)
    (hempty : b = true → source = []) (h : s.lateChecksum source = (t, source')) :
    AtAvailable input headerLen pos (pos + source.length) b ⟨t, source', []⟩ := by
  simp only [lateChecksum] at h
  split at h
  · rename_i hlate
    obtain ⟨_, hfin, hnone, hlen⟩ := hlate
    cases h
    refine ⟨pos + 4, by omega, Reader.At.drop (r := ⟨source, 0⟩) hat, ?_, ?_, ?_⟩
    · dsimp only
      rw [List.length_drop]
      omega
    · obtain ⟨e, he, hpos⟩ := hin.finished hfin
      refine ⟨?_, fun hf => ?_, fun hf => ?_, fun _ => ⟨e, he, ?_⟩⟩
      · dsimp only
        rw [hin.counted, Nat.add_assoc]
      · cases hfin.symm.trans hf
      · cases hfin.symm.trans hf
      · simp [hnone] at hpos
        simp [hpos]
    · intro hb
      simp [hempty hb] at hlen
  · cases h
    exact ⟨pos, Nat.le_refl _, hat, rfl, hin, hempty⟩

end

end FrameDecoderState

namespace Session

/-- The invariant of a session. -/
def InFrame (input : List UInt8) (headerLen : Nat) (x : Session) : Prop :=
  ∃ s, x.decoder.state = some s ∧ s.InFrame input headerLen x.pos x.broken

section

variable {xxh64 : List UInt8 → Nat} {input : List UInt8} {headerLen : Nat} {x : Session}

theorem InFrame.counted (h : x.InFrame input headerLen) :
    x.decoder.bytesReadFromSource = headerLen + x.pos := by
  obtain ⟨s, hs, hin⟩ := h
  rw [FrameDecoder.bytesReadFromSource, hs]
  exact hin.counted

theorem source_prefix (input : List UInt8) (x : Session) (avail : Nat) :
    x.source input avail <+: input.drop x.pos :=
  List.take_prefix _ _

theorem checkWindowStillAdmitted_error {d : FrameDecoder} {e : FrameDecoderError}
    (h : d.checkWindowStillAdmitted = .error e) : e.isBlockBody = false := by
  simp only [FrameDecoder.checkWindowStillAdmitted] at h
  split at h
  · cases h
  · split at h
    · cases h
    · cases h
      rfl
    · cases h
      rfl

/-- Where the first round of `decode_blocks` begins. -/
theorem InFrame.beginBlocks {s : FrameDecoderState} {avail kept : Nat}
    {strat : BlockDecodingStrategy} (hs : x.decoder.state = some s)
    (hin : s.InFrame input headerLen x.pos x.broken)
    (ho : x.orderly input (.decodeBlocks avail kept strat)) :
    FrameDecoderState.AtBlock input headerLen x.pos (x.pos + (x.source input avail).length)
      x.broken (x.decoder.beginBlocks s, ⟨x.source input avail, kept⟩) := by
  refine ⟨x.pos, Nat.le_refl _, x.source_prefix input avail, rfl, hin.of_eq rfl rfl rfl rfl,
    fun hor => ?_⟩
  have hfin : (x.decoder.beginBlocks s).frameFinished = s.frameFinished := rfl
  simp only [orderly, hs, Option.any_some, Bool.and_eq_true, Bool.or_eq_true] at ho
  rcases ho.1 with hno | hempty
  · rw [hfin] at hor
    rcases hor with hf | hb
    · simp [hf] at hno
    · simp [hb] at hno
  · exact List.isEmpty_iff.mp hempty

theorem orderly_counts {s : FrameDecoderState} {u : Unit} {avail kept : Nat}
    {strat : BlockDecodingStrategy} (hs : x.decoder.state = some s)
    (hw : x.decoder.checkWindowStillAdmitted = .ok u)
    (ho : x.orderly input (.decodeBlocks avail kept strat)) :
    ∀ y ∈ visits (FrameDecoderState.decodeBlocksBody strat (x.decoder.beginBlocks s).blockCounter
        (x.decoder.beginBlocks s).decoderScratch.bufferLen) ((x.source input avail).length + 1)
        (x.decoder.beginBlocks s, (⟨x.source input avail, kept⟩ : Reader)),
      y.1.countsWhatItTakes y.2 = true := by
  simp only [orderly, FrameDecoder.blockStates, hw, hs, Bool.and_eq_true, List.all_eq_true] at ho
  exact ho.2

theorem InFrame.decodeBlocks (h : x.InFrame input headerLen) {avail kept : Nat}
    {strat : BlockDecodingStrategy} (ho : x.orderly input (.decodeBlocks avail kept strat)) :
    (x.call xxh64 input (.decodeBlocks avail kept strat)).InFrame input headerLen := by
  obtain ⟨s, hs, hin⟩ := h
  have hbegin := InFrame.beginBlocks hs hin ho
  simp only [call, FrameDecoder.decodeBlocks]
  cases hw : x.decoder.checkWindowStillAdmitted with
  | error e =>
    refine ⟨s, hs, ?_⟩
    simpa [brokeOff, checkWindowStillAdmitted_error hw] using hin
  | ok u =>
    have hleft := loop_getD_post_of (C := fun y => y.1.countsWhatItTakes y.2 = true)
      (P := FrameDecoderState.LeftAt input headerLen x.pos
        (x.pos + (x.source input avail).length) x.broken)
      (fun _ _ hy _ => FrameDecoderState.decodeBlocksBody_again hy)
      (fun _ _ hy hc => FrameDecoderState.decodeBlocksBody_done hy hc) _ hbegin
      (orderly_counts hs hw ho)
      (r := (.ok (), x.decoder.beginBlocks s, ⟨x.source input avail, kept⟩))
      ⟨x.pos, Nat.le_refl _, rfl, by
        rw [brokeOff, Bool.or_false]
        exact hin.of_eq rfl rfl rfl rfl⟩
    simp only [hs, FrameDecoderState.decodeBlocksLoop]
    split
    · rename_i e s' rest hloop
      rw [hloop] at hleft
      obtain ⟨pos, hstart, htotal, hin'⟩ := hleft
      dsimp only at htotal
      have hpos : x.pos + ((x.source input avail).length - rest.bytes.length) = pos := by omega
      exact ⟨s', rfl, by simpa [hpos, brokeOff] using hin'⟩
    · rename_i s' rest hloop
      rw [hloop] at hleft
      obtain ⟨pos, hstart, htotal, hin'⟩ := hleft
      dsimp only at htotal
      have hpos : x.pos + ((x.source input avail).length - rest.bytes.length) = pos := by omega
      exact ⟨s', rfl, by simpa [hpos, brokeOff] using hin'⟩

theorem orderly_empty {avail targetLen : Nat} {reserveWindow : Bool}
    (ho : x.orderly input (.decodeAvailable avail targetLen reserveWindow)) :
    x.broken = true → x.source input avail = [] := by
  intro hb
  simpa [orderly, hb] using ho

/-- Where the first round of `decode_available` begins. -/
theorem InFrame.lateChecksum {s : FrameDecoderState} {avail targetLen : Nat}
    {reserveWindow : Bool} (hin : s.InFrame input headerLen x.pos x.broken)
    (ho : x.orderly input (.decodeAvailable avail targetLen reserveWindow))
    (mode : ContentChecksum) :
    FrameDecoderState.AtAvailable input headerLen x.pos
      (x.pos + (x.source input avail).length) x.broken
      ⟨((s.setComputeHash mode).lateChecksum (x.source input avail)).1,
        ((s.setComputeHash mode).lateChecksum (x.source input avail)).2, []⟩ :=
  FrameDecoderState.lateChecksum_atAvailable (x.source_prefix input avail)
    (hin.of_eq (t := s.setComputeHash mode) rfl rfl rfl rfl) (orderly_empty ho) rfl

theorem InFrame.availableBlocks {s : FrameDecoderState} {avail targetLen : Nat}
    {reserveWindow : Bool} (hin : s.InFrame input headerLen x.pos x.broken)
    (ho : x.orderly input (.decodeAvailable avail targetLen reserveWindow)) :
    FrameDecoderState.LeftAvailable input headerLen x.pos x.broken
      (x.decoder.availableBlocks s (x.source input avail) targetLen reserveWindow) := by
  have hlate := InFrame.lateChecksum hin ho x.decoder.contentChecksum
  simp only [FrameDecoder.availableBlocks]
  split
  · exact ⟨x.pos, Nat.le_refl _, by simpa [brokeOff] using hin⟩
  · refine loop_getD_post (I := FrameDecoderState.AtAvailable input headerLen x.pos
      (x.pos + (x.source input avail).length) x.broken) (fun y y' hy hbody => ?_)
      (fun y result hy hbody => ?_) _ hlate ?_
    · rcases FrameDecoderState.availableBody_cases hy with ⟨_, hdone, _⟩ | ⟨_, hagain, hnext⟩
      · cases hdone.symm.trans hbody
      · cases hagain.symm.trans hbody
        exact hnext
    · rcases FrameDecoderState.availableBody_cases hy with ⟨_, hdone, hleft⟩ | ⟨_, hagain, _⟩
      · cases hdone.symm.trans hbody
        exact hleft
      · cases hagain.symm.trans hbody
    · obtain ⟨pos, hstart, _, _, hin', _⟩ := hlate
      exact ⟨pos, hstart, by simpa [brokeOff] using hin'⟩

/-- What a call on a slice has to show. -/
def Landed (input : List UInt8) (headerLen : Nat) (x : Session)
    (call : Except FrameDecoderError (Nat × List UInt8) × FrameDecoder) : Prop :=
  ∃ s pos, call.2.state = some s ∧ x.pos ≤ pos ∧
    s.InFrame input headerLen pos (x.broken || brokeOff call.1) ∧
    ∀ progress, call.1 = .ok progress → x.pos + progress.1 = pos

theorem InFrame.advance (h : x.InFrame input headerLen)
    {call : Except FrameDecoderError (Nat × List UInt8) × FrameDecoder}
    (hcall : Landed input headerLen x call) : (x.advance call).InFrame input headerLen := by
  obtain ⟨s, pos, hs, hle, hin, hok⟩ := hcall
  refine ⟨s, hs, ?_⟩
  have hpos : (x.advance call).pos = pos := by
    simp only [Session.advance]
    split
    · rename_i hread
      exact hok _ hread
    · rw [h.counted, FrameDecoder.bytesReadFromSource, hs]
      have hcounted : s.bytesReadCounter = headerLen + pos := hin.counted
      simp only [Option.map_some, Option.getD_some, hcounted]
      omega
  rw [hpos]
  exact hin

theorem read_inFrame {d : FrameDecoder} {s : FrameDecoderState} {pos : Nat} {b : Bool}
    (hs : d.state = some s) (hin : s.InFrame input headerLen pos b) (n : Nat) :
    ∃ s', (d.read n).2.state = some s' ∧ s'.InFrame input headerLen pos b := by
  simp only [FrameDecoder.read, hs]
  exact ⟨_, rfl, hin.of_eq rfl rfl rfl rfl⟩

theorem collect_inFrame {d : FrameDecoder} {s : FrameDecoderState} {pos : Nat} {b : Bool}
    (hs : d.state = some s) (hin : s.InFrame input headerLen pos b) :
    ∃ s', d.collect.2.state = some s' ∧ s'.InFrame input headerLen pos b := by
  simp only [FrameDecoder.collect, hs]
  exact ⟨_, rfl, hin.of_eq rfl rfl rfl rfl⟩

theorem InFrame.decodeAvailable (h : x.InFrame input headerLen) {avail targetLen : Nat}
    {reserveWindow : Bool} (ho : x.orderly input (.decodeAvailable avail targetLen reserveWindow)) :
    Landed input headerLen x
      (x.decoder.decodeAvailable (x.source input avail) targetLen reserveWindow) := by
  obtain ⟨s, hs, hin⟩ := h
  simp only [FrameDecoder.decodeAvailable]
  split
  · rename_i hw
    refine ⟨s, x.pos, hs, Nat.le_refl _, ?_, fun _ hok => by cases hok⟩
    simpa [brokeOff, checkWindowStillAdmitted_error hw] using hin
  · have hleft := InFrame.availableBlocks hin ho
    simp only [hs, FrameDecoder.decodeAvailableFrom]
    split
    · rename_i hblocks
      rw [hblocks] at hleft
      obtain ⟨pos, hle, hin'⟩ := hleft
      exact ⟨_, pos, rfl, hle, hin', fun _ hok => by cases hok⟩
    · rename_i written s' hblocks
      rw [hblocks] at hleft
      obtain ⟨pos, hle, hin'⟩ := hleft
      obtain ⟨s2, hs2, hin2⟩ := read_inFrame (d := { x.decoder with state := some s' }) rfl hin'
        (targetLen - written.length)
      refine ⟨s2, pos, hs2, hle, hin2, fun _ hok => ?_⟩
      cases hok
      have hread : s'.bytesReadCounter = headerLen + pos := hin'.counted
      have hstart := hin.counted
      dsimp only
      omega

/-- The checks at the end of a frame do not tell of a block. -/
theorem verify_error {d : FrameDecoder} {e : FrameDecoderError}
    (h : d.verifyContentSize = .error e ∨ d.verifyContentChecksum xxh64 = .error e) :
    e.isBlockBody = false := by
  rcases h with h | h
  · simp only [FrameDecoder.verifyContentSize] at h
    repeat' split at h
    all_goals cases h
    rfl
  · simp only [FrameDecoder.verifyContentChecksum] at h
    repeat' split at h
    all_goals cases h
    rfl

theorem InFrame.decodeFromTo (h : x.InFrame input headerLen) {avail targetLen : Nat}
    (ho : x.orderly input (.decodeFromTo avail targetLen)) :
    Landed input headerLen x
      (x.decoder.decodeFromTo xxh64 (x.source input avail) targetLen) := by
  have hav : Landed input headerLen x
      (x.decoder.decodeAvailable (x.source input avail) targetLen false) := h.decodeAvailable ho
  simp only [FrameDecoder.decodeFromTo]
  split
  · rename_i hcall
    rwa [hcall] at hav
  · rename_i progress d hcall
    rw [hcall] at hav
    obtain ⟨s, pos, hs, hle, hin, hok⟩ := hav
    have hfail : ∀ e : FrameDecoderError, e.isBlockBody = false →
        Landed input headerLen x (.error e, d) := by
      intro e he
      refine ⟨s, pos, hs, hle, ?_, fun _ hok => by cases hok⟩
      simpa [brokeOff, he] using hin
    split
    · split
      · rename_i hsize
        exact hfail _ (@verify_error xxh64 d _ (.inl hsize))
      · split
        · rename_i hsum
          exact hfail _ (verify_error (.inr hsum))
        · exact ⟨s, pos, hs, hle, hin, hok⟩
    · exact ⟨s, pos, hs, hle, hin, hok⟩

/-- What one call keeps. -/
theorem InFrame.call (h : x.InFrame input headerLen) {c : Call} (ho : x.orderly input c) :
    (x.call xxh64 input c).InFrame input headerLen := by
  cases c with
  | decodeBlocks avail kept strat => exact h.decodeBlocks ho
  | decodeAvailable avail targetLen reserveWindow => exact h.advance (h.decodeAvailable ho)
  | decodeFromTo avail targetLen => exact h.advance (h.decodeFromTo ho)
  | isFinished => exact h
  | read targetLen =>
    obtain ⟨s, hs, hin⟩ := h
    exact read_inFrame hs hin targetLen
  | collect =>
    obtain ⟨s, hs, hin⟩ := h
    exact collect_inFrame hs hin

/-- A header parsed where the block of its number starts. -/
def HeaderInFrame (input : List UInt8) (y : FrameDecoderState × Nat) : Prop :=
  y.1.frameFinished = false ∧ blockStart input y.1.blockCounter = some y.2

theorem InFrame.blockStates (h : x.InFrame input headerLen) {avail kept : Nat}
    {strat : BlockDecodingStrategy} (ho : x.orderly input (.decodeBlocks avail kept strat)) :
    ∀ y ∈ x.headerReads input (.decodeBlocks avail kept strat), HeaderInFrame input y := by
  intro y hy
  obtain ⟨s, hs, hin⟩ := h
  simp only [headerReads, List.mem_map, List.mem_filter, FrameDecoder.blockStates] at hy
  obtain ⟨z, ⟨hz, hlen⟩, rfl⟩ := hy
  cases hw : x.decoder.checkWindowStillAdmitted with
  | error e => simp [hw] at hz
  | ok u =>
    simp only [hw, hs] at hz
    obtain ⟨pos, hstart, _, htotal, hin', hempty⟩ := visits_inv
      (fun _ _ hy => FrameDecoderState.decodeBlocksBody_again hy) _
      (InFrame.beginBlocks hs hin ho) z hz
    have hsome : z.2.bytes ≠ [] := by
      intro hnil
      simp [hnil] at hlen
    have hfin : z.1.frameFinished = false := by
      simpa using fun hf => hsome (hempty (.inl hf))
    have hb : x.broken = false := by simpa using fun hb => hsome (hempty (.inr hb))
    refine ⟨hfin, ?_⟩
    have hpos : x.pos + ((x.source input avail).length - z.2.bytes.length) = pos := by omega
    dsimp only
    rw [hpos]
    exact hin'.next hfin hb

theorem InFrame.availableStates (h : x.InFrame input headerLen) {avail targetLen : Nat}
    {reserveWindow : Bool}
    (ho : x.orderly input (.decodeAvailable avail targetLen reserveWindow)) :
    ∀ y ∈ x.headerReads input (.decodeAvailable avail targetLen reserveWindow),
      HeaderInFrame input y := by
  intro y hy
  obtain ⟨s, hs, hin⟩ := h
  simp only [headerReads, List.mem_map, List.mem_filter, FrameDecoder.availableStates] at hy
  obtain ⟨z, ⟨hz, hread⟩, rfl⟩ := hy
  cases hw : x.decoder.checkWindowStillAdmitted with
  | error e => simp [hw] at hz
  | ok u =>
    simp only [hw, hs] at hz
    split at hz
    · cases hz
    · have hvisit : FrameDecoderState.AtAvailable input headerLen x.pos
          (x.pos + (x.source input avail).length) x.broken z := by
        refine visits_inv (fun y y' hy hbody => ?_) _
          (InFrame.lateChecksum hin ho x.decoder.contentChecksum) z hz
        rcases FrameDecoderState.availableBody_cases hy with ⟨_, hdone, _⟩ | ⟨_, hagain, hnext⟩
        · cases hdone.symm.trans hbody
        · cases hagain.symm.trans hbody
          exact hnext
      obtain ⟨pos, hstart, _, htotal, hin', hempty⟩ := hvisit
      simp only [decide_eq_true_eq, Bool.not_eq_true] at hread
      have hb : x.broken = false := by
        by_contra hb
        simp [hempty (by simpa using hb)] at hread
      refine ⟨hread.1, ?_⟩
      have hpos : x.pos + ((x.source input avail).length - z.source.length) = pos := by omega
      dsimp only
      rw [hpos]
      exact hin'.next hread.1 hb

theorem InFrame.headerReads (h : x.InFrame input headerLen) {c : Call} (ho : x.orderly input c) :
    ∀ y ∈ x.headerReads input c, HeaderInFrame input y := by
  cases c with
  | decodeBlocks avail kept strat => exact h.blockStates ho
  | decodeAvailable avail targetLen reserveWindow => exact h.availableStates ho
  | decodeFromTo avail targetLen =>
    have hav : ∀ y ∈ x.headerReads input (.decodeAvailable avail targetLen false),
        HeaderInFrame input y := h.availableStates ho
    exact hav
  | isFinished => simp [Session.headerReads]
  | read targetLen => simp [Session.headerReads]
  | collect => simp [Session.headerReads]

/-- What a run of calls keeps. -/
theorem InFrame.run (h : x.InFrame input headerLen) (calls : List Call)
    (ho : x.orderlyRun xxh64 input calls) : StaysInFrame xxh64 input headerLen x calls := by
  induction calls generalizing x with
  | nil => exact h.counted
  | cons c calls ih =>
    rw [orderlyRun, Bool.and_eq_true] at ho
    refine ⟨h.counted, fun y hy => ?_, ih (h.call ho.1) ho.2⟩
    obtain ⟨hfin, hstart⟩ := h.headerReads ho.1 y hy
    exact ⟨hfin, fun e he => blockStart_before_end hstart he⟩

end

end Session

/-- A frame just begun: nothing is counted but its header. -/
structure FrameDecoderState.Begun (s : FrameDecoderState) (headerLen : Nat) : Prop where
  counted : s.bytesReadCounter = headerLen
  first : s.blockCounter = 0
  underWay : s.frameFinished = false
  unsummed : s.checkSum = none

namespace FrameDecoder

theorem stateForHeader_begun {d : FrameDecoder} {frame : FrameHeader} {headerSize maxWindow : Nat}
    {s : FrameDecoderState} (h : d.stateForHeader frame headerSize maxWindow = .ok s) :
    s.Begun headerSize := by
  simp only [stateForHeader] at h
  split at h
  · simp only [FrameDecoderState.resetWithParsedHeader, bind, Except.bind] at h
    split at h
    · cases h
    · cases h
      exact ⟨rfl, rfl, rfl, rfl⟩
  · simp only [FrameDecoderState.newWithParsedHeader, bind, Except.bind] at h
    split at h
    · cases h
    · cases h
      exact ⟨rfl, rfl, rfl, rfl⟩

theorem attachNamedDict_begun {d d' : FrameDecoder} {s : FrameDecoderState} {u : Unit}
    {headerLen : Nat} (hs : s.Begun headerLen) (h : d.attachNamedDict s = (.ok u, d')) :
    ∃ s', d'.state = some s' ∧ s'.Begun headerLen := by
  simp only [attachNamedDict] at h
  split at h
  · cases h
  · split at h
    · cases h
      exact ⟨s, rfl, hs⟩
    · split at h
      · cases h
      · cases h
        exact ⟨_, rfl, hs.counted, hs.first, hs.underWay, hs.unsummed⟩

theorem attachGivenDict_begun {d d' : FrameDecoder} {s : FrameDecoderState} {u : Unit}
    {dicts : List Dictionary} {headerLen : Nat} (hs : s.Begun headerLen)
    (h : d.attachGivenDict s dicts = (.ok u, d')) :
    ∃ s', d'.state = some s' ∧ s'.Begun headerLen := by
  simp only [attachGivenDict] at h
  split at h
  · cases h
  · split at h
    · cases h
      exact ⟨s, rfl, hs⟩
    · split at h
      · cases h
      · cases h
        exact ⟨_, rfl, hs.counted, hs.first, hs.underWay, hs.unsummed⟩

theorem reset_begun {d d' : FrameDecoder} {source rest : Reader} {u : Unit}
    (h : d.reset source = (.ok u, d', rest)) :
    ∃ s, d'.state = some s ∧ s.Begun (source.bytes.length - rest.bytes.length) := by
  simp only [reset] at h
  split at h
  · cases h
  · rename_i hheader
    split at h
    · cases h
    · rename_i hs
      obtain ⟨hresult, hrest⟩ := Prod.mk.inj h
      obtain ⟨rfl, rfl⟩ := Prod.mk.inj hrest
      have hlen := HeaderParser.readFrameHeaderWithFormat_ok hheader
      rw [Nat.sub_eq_of_eq_add' hlen]
      exact attachNamedDict_begun (stateForHeader_begun hs) (Prod.ext hresult rfl)

theorem resetWithDictHandles_begun {d d' : FrameDecoder} {source rest : Reader} {u : Unit}
    {dicts : List Dictionary} (h : d.resetWithDictHandles source dicts = (.ok u, d', rest)) :
    ∃ s, d'.state = some s ∧ s.Begun (source.bytes.length - rest.bytes.length) := by
  simp only [resetWithDictHandles] at h
  split at h
  · exact reset_begun h
  · split at h
    · cases h
    · split at h
      · cases h
      · rename_i hheader
        split at h
        · cases h
        · rename_i hs
          obtain ⟨hresult, hrest⟩ := Prod.mk.inj h
          obtain ⟨rfl, rfl⟩ := Prod.mk.inj hrest
          have hlen := HeaderParser.readFrameHeaderWithFormat_ok hheader
          rw [Nat.sub_eq_of_eq_add' hlen]
          exact attachGivenDict_begun (stateForHeader_begun hs) (Prod.ext hresult rfl)

end FrameDecoder

/-- Orderly calls on a frame keep to its blocks, and count what they take. -/
theorem orderly_calls_stay_in_frame {xxh64 : List UInt8 → Nat} {input : List UInt8}
    {d d' : FrameDecoder} {dicts : List Dictionary} {source rest : Reader}
    (hopen : d.resetWithDictHandles source dicts = (.ok (), d', rest)) (calls : List Call)
    (ho : Session.orderlyRun xxh64 input { decoder := d' } calls = true) :
    Session.StaysInFrame xxh64 input (source.bytes.length - rest.bytes.length)
      { decoder := d' } calls := by
  obtain ⟨s, hs, hbegun⟩ := FrameDecoder.resetWithDictHandles_begun hopen
  refine Session.InFrame.run ⟨s, hs, ?_⟩ calls ho
  refine ⟨hbegun.counted, fun _ => hbegun.unsummed, fun _ _ => ?_, fun hf => ?_⟩
  · rw [hbegun.first]
    rfl
  · rw [hbegun.underWay] at hf
    cases hf

/-- A frame with a checksum, of a block of one byte and an empty one. -/
def summedFrame : List UInt8 := [8, 0, 0, 0xAA, 1, 0, 0, 1, 0, 0, 0]

/-- The decoder of a frame with a checksum, its header just read. -/
def summedDecoder : FrameDecoder :=
  (FrameDecoder.new.resetWithDictHandles ⟨[0x28, 0xB5, 0x2F, 0xFD, 4, 0], 0⟩ []).2.1

theorem summedDecoder_opened :
    FrameDecoder.new.resetWithDictHandles ⟨[0x28, 0xB5, 0x2F, 0xFD, 4, 0], 0⟩ [] =
      (.ok (), summedDecoder, ⟨[], 0⟩) := rfl

theorem orderly_calls_stay_in_summedFrame :
    Session.StaysInFrame (fun _ => 0) summedFrame 6 { decoder := summedDecoder }
      [.decodeBlocks 7 0 .all, .isFinished, .decodeFromTo 4 1, .isFinished, .collect,
        .decodeAvailable 0 8 false] :=
  orderly_calls_stay_in_frame summedDecoder_opened _ (by decide +kernel)

/-- The checksum that a reader came too late with is taken for a block header. -/
theorem checksum_parsed_as_block_header :
    FrameDecoder.new.resetWithDictHandles ⟨[0x28, 0xB5, 0x2F, 0xFD, 4, 0], 0⟩ [] =
        (.ok (), summedDecoder, ⟨[], 0⟩) ∧
      ¬ Session.StaysInFrame (fun _ => 0) summedFrame 6 { decoder := summedDecoder }
        [.decodeBlocks 7 0 .all, .decodeBlocks 4 0 .all] := by
  refine ⟨rfl, fun h => ?_⟩
  have hend : BlocksEnd summedFrame 7 :=
    ⟨1, 4, ⟨true, .raw, 0, 0⟩, by decide, by decide, rfl, rfl⟩
  have hreads : ((({ decoder := summedDecoder } : Session).call (fun _ => 0) summedFrame
      (.decodeBlocks 7 0 .all)).headerReads summedFrame (.decodeBlocks 4 0 .all)).map (·.2) =
        [7] := by
    decide +kernel
  obtain ⟨y, hy, hpos⟩ := List.mem_map.mp (hreads ▸ List.mem_singleton_self 7)
  have hle := (h.2.2.2.1 y hy).2 7 hend
  omega

end Decoding
