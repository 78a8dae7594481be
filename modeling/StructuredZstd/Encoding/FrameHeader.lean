import StructuredZstd.Decoding.HeaderReaders

namespace Encoding

open Bits Decoding

/-- The bytes a value takes, as one, two, four or eight. -/
def findMinSize (val : Nat) : Nat :=
  if val = 0 then 1
  else if val >>> 8 = 0 then 1
  else if val >>> 16 = 0 then 2
  else if val >>> 32 = 0 then 4
  else 8

def writeMinifiedVal (val : Nat) : List UInt8 := (toLeBytes 8 val).take (findMinSize val)

/-- The bytes of a content size: one in a single segment only, and two hold it less 256. -/
def findFcsFieldSize (val : Nat) (singleSegment : Bool) : Nat :=
  if singleSegment ∧ val ≤ 255 then 1
  else if 256 ≤ val ∧ val ≤ 65791 then 2
  else if val ≤ 2 ^ 32 - 1 then 4
  else 8

def writeFcs (val fieldSize : Nat) : List UInt8 :=
  (toLeBytes 8 (if fieldSize = 2 then val - 256 else val)).take fieldSize

structure FrameHeader where
  frameContentSize : Option Nat
  singleSegment : Bool
  contentChecksum : Bool
  dictionaryId : Option Nat
  windowSize : Option Nat
  magicless : Bool
deriving Repr, DecidableEq

/-- `u64::next_power_of_two`; past the last one it overflows. -/
def nextPowerOfTwo (x : Nat) : Option Nat :=
  let p := if x ≤ 1 then 1 else 2 ^ (Nat.log2 (x - 1) + 1)
  if p < 2 ^ 64 then some p else none

/-- The window descriptor, rounded up to a power of two. The shift is that of a byte. -/
def windowDescriptor (windowSize : Nat) : Option UInt8 := do
  let log := Nat.log2 (← nextPowerOfTwo windowSize)
  let exponent := if 10 < log then log - 10 else 1
  some (UInt8.ofNat exponent <<< 3)

namespace FrameHeader

/-- The two bits for a dictionary id; eight bytes have none. -/
def dictIdFlag (h : FrameHeader) : Option Nat :=
  match h.dictionaryId with
  | none => some 0
  | some id => match findMinSize id with
    | 1 => some 1
    | 2 => some 2
    | 4 => some 3
    | _ => none

def fcsFlag (h : FrameHeader) : Nat :=
  match h.frameContentSize with
  | none => 0
  | some size => match findFcsFieldSize size h.singleSegment with
    | 1 => 0
    | 2 => 1
    | 4 => 2
    | _ => 3

/-- The descriptor; the source asserts that a size of the content or of the window is known. -/
def descriptor (h : FrameHeader) : Option Nat := do
  let dictIdFlag ← h.dictIdFlag
  if (if h.singleSegment then h.frameContentSize else h.windowSize).isNone then none
  else some (dictIdFlag ||| h.contentChecksum.toNat <<< 2 ||| h.singleSegment.toNat <<< 5 |||
    h.fcsFlag <<< 6)

def windowBytes (h : FrameHeader) : Option (List UInt8) :=
  if h.singleSegment then some []
  else match h.windowSize with
    | none => some []
    | some windowSize => (windowDescriptor windowSize).map fun byte => [byte]

def fcsBytes (h : FrameHeader) : List UInt8 :=
  match h.frameContentSize with
  | none => []
  | some size => writeFcs size (findFcsFieldSize size h.singleSegment)

/-- The bytes of the header, unless the source panics. -/
def serialize (h : FrameHeader) : Option (List UInt8) := do
  let magic := if h.magicless then [] else toLeBytes 4 magicNum
  let descriptor ← h.descriptor
  let window ← h.windowBytes
  let dict := match h.dictionaryId with
    | none => []
    | some id => writeMinifiedVal id
  some (magic ++ UInt8.ofNat descriptor :: (window ++ (dict ++ h.fcsBytes)))

end FrameHeader

def singleSegment (contentSize : Option Nat) (windowSize : Nat) : Bool :=
  match contentSize with
  | none => false
  | some size => size ≤ windowSize

/-- The header of a frame: `append_frame_header`, and the streaming encoder does the same. The
content size is absent when it is not to be written, and a dictionary of id zero is raw content. -/
def frameHeader (contentSize : Option UInt64) (windowSize : UInt64) (dictionaryId : Option UInt32)
    (contentChecksum magicless : Bool) : FrameHeader :=
  let size := contentSize.map UInt64.toNat
  let single := singleSegment size windowSize.toNat
  { frameContentSize := size
    singleSegment := single
    contentChecksum := contentChecksum
    dictionaryId := (dictionaryId.filter (· ≠ 0)).map UInt32.toNat
    windowSize := if single then none else some windowSize.toNat
    magicless := magicless }

theorem length_leField (v : Nat) {n : Nat} (hn : n ≤ 8) : ((toLeBytes 8 v).take n).length = n := by
  rw [List.length_take, toLeBytes_length, Nat.min_eq_left hn]

theorem le_leField {v n : Nat} (hn : n ≤ 8) (hv : v < 2 ^ (8 * n)) :
    le ((toLeBytes 8 v).take n) = v := by
  rw [le_take, le_toLeBytes, Nat.mod_mod_of_dvd _ (Nat.pow_dvd_pow 2 (by omega)),
    Nat.mod_eq_of_lt hv]

/-- The width of a dictionary id holds it, and its flag names the width. -/
theorem findMinSize_spec {id : Nat} (h : id < 2 ^ 32) :
    id < 2 ^ (8 * findMinSize id) ∧
      (findMinSize id = 1 ∨ findMinSize id = 2 ∨ findMinSize id = 4) := by
  unfold findMinSize
  simp only [Nat.shiftRight_eq_div_pow]
  split
  · rename_i h0
    rw [h0]
    decide
  · split
    · exact ⟨by omega, .inl rfl⟩
    · split
      · exact ⟨by omega, .inr (.inl rfl)⟩
      · split
        · exact ⟨by omega, .inr (.inr rfl)⟩
        · omega

/-- The width of a content size holds what is written of it. -/
theorem findFcsFieldSize_spec {size : Nat} (h : size < 2 ^ 64) (single : Bool) :
    (if findFcsFieldSize size single = 2 then size - 256 else size) <
        2 ^ (8 * findFcsFieldSize size single) ∧
      ((findFcsFieldSize size single = 1 ∧ single = true) ∨
        (findFcsFieldSize size single = 2 ∧ 256 ≤ size) ∨
        findFcsFieldSize size single = 4 ∨ findFcsFieldSize size single = 8) := by
  unfold findFcsFieldSize
  split
  · rename_i hone
    refine ⟨?_, .inl ⟨rfl, hone.1⟩⟩
    rw [if_neg (by decide)]
    omega
  · split
    · rename_i htwo
      refine ⟨?_, .inr (.inl ⟨rfl, htwo.1⟩)⟩
      rw [if_pos rfl]
      omega
    · split
      · refine ⟨?_, .inr (.inr (.inl rfl))⟩
        rw [if_neg (by decide)]
        omega
      · refine ⟨?_, .inr (.inr (.inr rfl))⟩
        rw [if_neg (by decide)]
        omega

/-- The descriptor is taken apart as it was put together. -/
theorem descriptor_flags : ∀ dict < 4, ∀ fcs < 4, ∀ checksum single : Bool,
    let d : FrameDescriptor :=
      ⟨dict ||| checksum.toNat <<< 2 ||| single.toNat <<< 5 ||| fcs <<< 6⟩
    d.byte < 256 ∧ d.dictIdFlag = dict ∧ d.contentChecksumFlag = checksum ∧
      d.reservedFlag = false ∧ d.singleSegmentFlag = single ∧ d.frameContentSizeFlag = fcs := by
  decide

theorem nextPowerOfTwo_spec {x p : Nat} (h : nextPowerOfTwo x = some p) :
    ∃ log < 64, p = 2 ^ log ∧ x ≤ 2 ^ log ∧ (0 < log → 2 ^ (log - 1) < x) := by
  unfold nextPowerOfTwo at h
  by_cases hx : x ≤ 1
  · simp only [if_pos hx] at h
    cases h
    exact ⟨0, by decide, rfl, hx, nofun⟩
  · simp only [if_neg hx] at h
    split at h
    · rename_i hlt
      cases h
      have hlo : 2 ^ Nat.log2 (x - 1) ≤ x - 1 := Nat.log2_self_le (by omega)
      have hhi : x - 1 < 2 ^ (Nat.log2 (x - 1) + 1) := Nat.lt_log2_self
      refine ⟨Nat.log2 (x - 1) + 1, ?_, rfl, by omega, fun _ => ?_⟩
      · exact (Nat.pow_lt_pow_iff_right (by decide)).mp hlt
      · rw [Nat.add_sub_cancel]
        omega
    · cases h

/-- The exponent that is written is the one meant, less what a byte cannot hold. -/
theorem windowDescriptor_spec {windowSize : Nat} {byte : UInt8}
    (h : windowDescriptor windowSize = some byte) :
    ∃ log < 64, windowSize ≤ 2 ^ log ∧ (0 < log → 2 ^ (log - 1) < windowSize) ∧
      byte.toNat = (if 10 < log then log - 10 else 1) % 32 * 8 := by
  have hshift : ∀ e < 64, (UInt8.ofNat e <<< 3).toNat = e % 32 * 8 := by decide
  obtain ⟨p, hp, h⟩ := Option.bind_eq_some_iff.mp h
  obtain ⟨log, hlog, rfl, hhi, hlo⟩ := nextPowerOfTwo_spec hp
  cases h
  refine ⟨log, hlog, hhi, hlo, ?_⟩
  rw [Nat.log2_two_pow]
  apply hshift
  split
  · omega
  · decide

/-- A window whose exponent a byte holds is read back no smaller. -/
theorem windowSize_of_exponent {frame : Decoding.FrameHeader} {e : Nat}
    (hsingle : frame.descriptor.singleSegmentFlag = false)
    (hwindow : frame.windowDescriptor = e * 8) (he : e < 32) :
    frame.windowSize = .ok (2 ^ (10 + e)) := by
  have hexp : (e * 8) >>> 3 = e := by rw [Nat.shiftRight_eq_div_pow]; omega
  have hmantissa : (e * 8) &&& 0x7 = 0 := by
    rw [show 0x7 = 2 ^ 3 - 1 from rfl, Nat.and_two_pow_sub_one_eq_mod]
    omega
  have hlo : 2 ^ 10 ≤ 2 ^ (10 + e) := Nat.pow_le_pow_right (by decide) (by omega)
  have hhi : 2 ^ (10 + e) ≤ 2 ^ 41 := Nat.pow_le_pow_right (by decide) (by omega)
  have hmax : 2 ^ 41 < maxWindowSize := by decide
  simp only [Decoding.FrameHeader.windowSize, hsingle, hwindow, hexp, hmantissa, Nat.mul_zero,
    Nat.add_zero, Nat.one_shiftLeft]
  rw [if_neg Bool.false_ne_true, if_neg (by unfold minWindowSize; omega), if_pos (by omega)]

/-- What holds of every header the encoder builds. -/
structure Built (h : FrameHeader) : Prop where
  dict : ∀ id, h.dictionaryId = some id → id ≠ 0 ∧ id < 2 ^ 32
  size : ∀ size, h.frameContentSize = some size → size < 2 ^ 64
  single : h.singleSegment = true → (∃ size, h.frameContentSize = some size) ∧ h.windowSize = none
  window : h.singleSegment = false → ∃ windowSize, h.windowSize = some windowSize

theorem frameHeader_built (contentSize : Option UInt64) (windowSize : UInt64)
    (dictionaryId : Option UInt32) (contentChecksum magicless : Bool) :
    Built (frameHeader contentSize windowSize dictionaryId contentChecksum magicless) where
  dict id h := by
    obtain ⟨raw, hraw, rfl⟩ := Option.map_eq_some_iff.mp h
    obtain ⟨-, hne⟩ := Option.filter_eq_some_iff.mp hraw
    refine ⟨fun h0 => ?_, raw.toNat_lt⟩
    have hzero : raw = 0 := UInt32.toNat_inj.mp h0
    simp [hzero] at hne
  size size h := by
    obtain ⟨raw, -, rfl⟩ := Option.map_eq_some_iff.mp h
    exact raw.toNat_lt
  single h := by
    have hsingle : singleSegment (contentSize.map UInt64.toNat) windowSize.toNat = true := h
    refine ⟨?_, if_pos hsingle⟩
    cases contentSize with
    | none => cases hsingle
    | some size => exact ⟨size.toNat, rfl⟩
  window h := by
    have hsingle : singleSegment (contentSize.map UInt64.toNat) windowSize.toNat = false := h
    exact ⟨windowSize.toNat, if_neg (by rw [hsingle]; exact Bool.false_ne_true)⟩

namespace Built

variable {h : FrameHeader}

def dictBytes (h : FrameHeader) : List UInt8 :=
  match h.dictionaryId with
  | none => []
  | some id => writeMinifiedVal id

/-- The dictionary id: its flag, the width the flag names, and the bytes. -/
theorem dict_field (hb : Built h) :
    ∃ flag < 4, h.dictIdFlag = some flag ∧
      (∀ d : FrameDescriptor, d.dictIdFlag = flag → d.dictionaryIdBytes = (dictBytes h).length) ∧
      (if le (dictBytes h) = 0 then none else some (le (dictBytes h))) = h.dictionaryId := by
  unfold FrameHeader.dictIdFlag dictBytes
  cases hid : h.dictionaryId with
  | none =>
    refine ⟨0, by decide, rfl, fun d hd => ?_, rfl⟩
    simp only [FrameDescriptor.dictionaryIdBytes, hd]
    rfl
  | some id =>
    obtain ⟨hne, hlt⟩ := hb.dict id hid
    obtain ⟨hfits, hsize⟩ := findMinSize_spec hlt
    have hle : le (writeMinifiedVal id) = id := le_leField (by omega) hfits
    have hlen : (writeMinifiedVal id).length = findMinSize id := length_leField id (by omega)
    dsimp only
    rw [hle, if_neg hne, hlen]
    rcases hsize with hwidth | hwidth | hwidth
    · refine ⟨1, by decide, by simp only [hwidth], fun d hd => ?_, rfl⟩
      simp only [FrameDescriptor.dictionaryIdBytes, hd, hwidth]
    · refine ⟨2, by decide, by simp only [hwidth], fun d hd => ?_, rfl⟩
      simp only [FrameDescriptor.dictionaryIdBytes, hd, hwidth]
    · refine ⟨3, by decide, by simp only [hwidth], fun d hd => ?_, rfl⟩
      simp only [FrameDescriptor.dictionaryIdBytes, hd, hwidth]

/-- The content size: the width its flag names, and what is read of it. -/
theorem fcs_field (hb : Built h) :
    h.fcsFlag < 4 ∧ ∀ d : FrameDescriptor, d.frameContentSizeFlag = h.fcsFlag →
      d.singleSegmentFlag = h.singleSegment →
      d.frameContentSizeBytes = h.fcsBytes.length ∧
      (if d.frameContentSizeBytes ≠ 0 then
        some (if d.frameContentSizeBytes = 2 then le h.fcsBytes + 256 else le h.fcsBytes)
      else none) = h.frameContentSize := by
  unfold FrameHeader.fcsFlag FrameHeader.fcsBytes
  cases hsize : h.frameContentSize with
  | none =>
    refine ⟨Nat.zero_lt_succ 3, fun d hflag hsingle => ?_⟩
    have hno : h.singleSegment = false := by
      cases hs : h.singleSegment with
      | false => rfl
      | true =>
        obtain ⟨⟨size, hsome⟩, -⟩ := hb.single hs
        rw [hsize] at hsome
        cases hsome
    have hzero : d.frameContentSizeBytes = 0 := by
      unfold FrameDescriptor.frameContentSizeBytes
      dsimp only at hflag
      rw [hflag, hsingle, hno]
      rfl
    rw [hzero]
    exact ⟨rfl, rfl⟩
  | some size =>
    obtain ⟨hfits, hwidth⟩ := findFcsFieldSize_spec (hb.size size hsize) h.singleSegment
    have hle : le (writeFcs size (findFcsFieldSize size h.singleSegment)) =
        if findFcsFieldSize size h.singleSegment = 2 then size - 256 else size :=
      le_leField (by omega) hfits
    have hlen : (writeFcs size (findFcsFieldSize size h.singleSegment)).length =
      findFcsFieldSize size h.singleSegment := length_leField _ (by omega)
    dsimp only
    rw [hlen, hle]
    rcases hwidth with ⟨hw, hs⟩ | ⟨hw, hbig⟩ | hw | hw
    · simp only [hw]
      refine ⟨by decide, fun d hflag hsingle => ?_⟩
      simp [FrameDescriptor.frameContentSizeBytes, hflag, hsingle, hs]
    · simp only [hw]
      refine ⟨by decide, fun d hflag _ => ?_⟩
      simp [FrameDescriptor.frameContentSizeBytes, hflag]
      omega
    · simp only [hw]
      refine ⟨by decide, fun d hflag _ => ?_⟩
      simp [FrameDescriptor.frameContentSizeBytes, hflag]
    · simp only [hw]
      refine ⟨by decide, fun d hflag _ => ?_⟩
      simp [FrameDescriptor.frameContentSizeBytes, hflag]

theorem descriptor_spec (hb : Built h) :
    ∃ d : FrameDescriptor, h.descriptor = some d.byte ∧ d.byte < 256 ∧ d.reservedFlag = false ∧
      d.singleSegmentFlag = h.singleSegment ∧ d.dictionaryIdBytes = (dictBytes h).length ∧
      d.frameContentSizeFlag = h.fcsFlag := by
  obtain ⟨flag, hlt, hflag, hwidth, -⟩ := hb.dict_field
  obtain ⟨hbyte, hdict, -, hreserved, hsingle, hfcs⟩ :=
    descriptor_flags flag hlt h.fcsFlag hb.fcs_field.1 h.contentChecksum h.singleSegment
  refine ⟨_, ?_, hbyte, hreserved, hsingle, hwidth _ hdict, hfcs⟩
  have hknown : (if h.singleSegment then h.frameContentSize else h.windowSize).isNone = false := by
    cases hs : h.singleSegment with
    | false =>
      obtain ⟨w, hw⟩ := hb.window hs
      rw [if_neg Bool.false_ne_true, hw]
      rfl
    | true =>
      obtain ⟨⟨size, hsize⟩, -⟩ := hb.single hs
      rw [if_pos rfl, hsize]
      rfl
  rw [FrameHeader.descriptor, hflag]
  dsimp only [Option.bind_eq_bind, Option.bind_some]
  rw [hknown, if_neg Bool.false_ne_true]

theorem takeMagic_magicNum (rest : List UInt8) :
    takeMagicFromSlice (toLeBytes 4 magicNum ++ rest) = (.ok (), rest) := by
  have hlen : 4 ≤ (toLeBytes 4 magicNum ++ rest).length := by
    rw [List.length_append, toLeBytes_length]
    omega
  have hmagic : le ((toLeBytes 4 magicNum ++ rest).take 4) = magicNum := by
    rw [List.take_left' (toLeBytes_length 4 magicNum)]
    decide
  rcases takeMagicFromSlice_run (toLeBytes 4 magicNum ++ rest) with ⟨h, -⟩ | ⟨-, hskip, -, -⟩ |
    ⟨hskip, -, -⟩ | ⟨-, -, hne, -⟩ | ⟨-, -, hrun⟩
  · omega
  · rw [hmagic] at hskip
    exact (magicNum_not_skippable hskip).elim
  · rw [hmagic] at hskip
    exact (magicNum_not_skippable hskip).elim
  · exact (hne hmagic).elim
  · rw [hrun, List.drop_left' (toLeBytes_length 4 magicNum)]

/-- The bytes of a header parse to its fields, whatever follows them. -/
theorem parse_fields (hb : Built h) {window : List UInt8} (hwindow : h.windowBytes = some window)
    (hlen : window.length = if h.singleSegment then 0 else 1) :
    ∃ bytes, h.serialize = some bytes ∧ ∀ rest, ∃ frame : Decoding.FrameHeader,
      readFrameHeaderFromSlice h.magicless (bytes ++ rest) = (.ok (frame, bytes.length), rest) ∧
      h.descriptor = some frame.descriptor.byte ∧
      frame.descriptor.singleSegmentFlag = h.singleSegment ∧ frame.dictId = h.dictionaryId ∧
      frame.declared = h.frameContentSize ∧ frame.windowDescriptor = le window := by
  obtain ⟨d, hdesc, hbyte, hreserved, hsingle, hdict, hflag⟩ := hb.descriptor_spec
  obtain ⟨hfcs, hsize⟩ := hb.fcs_field.2 d hflag hsingle
  obtain ⟨-, -, -, -, hid⟩ := hb.dict_field
  have hd : d = ⟨(UInt8.ofNat d.byte).toNat⟩ := by
    rw [UInt8.toNat_ofNat', Nat.mod_eq_of_lt hbyte]
  have hrun := fun magicLen rest => @fields_run magicLen (UInt8.ofNat d.byte) window (dictBytes h)
    h.fcsBytes rest d hd (by rw [hsingle]; exact hlen) hdict.symm hfcs.symm hreserved
  have hserialize : h.serialize = some ((if h.magicless then [] else toLeBytes 4 magicNum) ++
      UInt8.ofNat d.byte :: (window ++ (dictBytes h ++ h.fcsBytes))) := by
    rw [FrameHeader.serialize, hdesc, hwindow]
    rfl
  refine ⟨_, hserialize, fun rest => ⟨{
    descriptor := d
    windowDescriptor := le window
    dictId := if le (dictBytes h) = 0 then none else some (le (dictBytes h))
    frameContentSize := if d.frameContentSizeBytes = 2 then le h.fcsBytes + 256
      else le h.fcsBytes }, ?_, hdesc, hsingle, hid, ?_, rfl⟩⟩
  · cases hmagic : h.magicless with
    | true =>
      rw [if_pos rfl, List.nil_append]
      simp only [List.cons_append, List.append_assoc]
      have hfields : readFrameHeaderFromSlice true = readHeaderFieldsFromSlice 0 := rfl
      rw [hfields, hrun 0 rest]
      congr 3
      simp only [List.length_cons, List.length_append]
      omega
    | false =>
      rw [if_neg Bool.false_ne_true]
      simp only [List.cons_append, List.append_assoc]
      have hfields : readFrameHeaderFromSlice false =
        takeMagicFromSlice >>= fun _ => readHeaderFieldsFromSlice 4 := rfl
      rw [hfields, run_bind, takeMagic_magicNum]
      dsimp only
      rw [hrun 4 rest]
      congr 3
      simp only [List.length_cons, List.length_append, toLeBytes_length]
      omega
  · rw [← hsize, Decoding.FrameHeader.declared, Decoding.FrameHeader.fcsDeclared]
    simp only [decide_eq_true_eq]

end Built

/-- Both parsers take a header off its bytes, and no more, with the fields it was written from and
a window no smaller than the one asked for. -/
def ParsesBack (h : FrameHeader) : Prop :=
  ∃ bytes, h.serialize = some bytes ∧ ∀ (r : Reader) (rest : List UInt8),
    r.bytes = bytes ++ rest → ∃ frame : Decoding.FrameHeader,
      readFrameHeaderFromSlice h.magicless (bytes ++ rest) = (.ok (frame, bytes.length), rest) ∧
      (readFrameHeaderWithFormat h.magicless r).1 = .ok (frame, bytes.length) ∧
      (readFrameHeaderWithFormat h.magicless r).2.bytes = rest ∧
      h.descriptor = some frame.descriptor.byte ∧ frame.dictId = h.dictionaryId ∧
      frame.declared = h.frameContentSize ∧
      ∃ windowSize, frame.windowSize = .ok windowSize ∧
        ∀ requested, h.windowSize = some requested → requested ≤ windowSize

section Windows

variable {h : FrameHeader}

theorem Built.parsesBack (hb : Built h) {window : List UInt8} (hwindow : h.windowBytes = some window)
    (hlen : window.length = if h.singleSegment then 0 else 1)
    (hsize : ∀ frame : Decoding.FrameHeader, frame.descriptor.singleSegmentFlag = h.singleSegment →
      frame.windowDescriptor = le window → ∃ windowSize, frame.windowSize = .ok windowSize ∧
        ∀ requested, h.windowSize = some requested → requested ≤ windowSize) :
    ParsesBack h := by
  obtain ⟨bytes, hbytes, hparse⟩ := hb.parse_fields hwindow hlen
  refine ⟨bytes, hbytes, fun r rest hr => ?_⟩
  obtain ⟨frame, hslice, hdesc, hsingle, hdict, hfcs, hwin⟩ := hparse rest
  obtain ⟨hres, hrest⟩ := agrees_frame_header h.magicless r
  rw [hr, hslice] at hres hrest
  exact ⟨frame, hslice, hres, hrest _ rfl, hdesc, hdict, hfcs, hsize frame hsingle hwin⟩

/-- In a single segment no window is asked for. -/
theorem Built.parsesBack_single (hb : Built h) (hs : h.singleSegment = true) : ParsesBack h := by
  refine hb.parsesBack (if_pos hs : h.windowBytes = some []) (by rw [hs]; rfl) fun frame hsingle _ => ?_
  refine ⟨frame.frameContentSize, ?_, fun requested hreq => ?_⟩
  · rw [Decoding.FrameHeader.windowSize, hsingle, hs, if_pos rfl]
  · rw [(hb.single hs).2] at hreq
    cases hreq

theorem windowBytes_of_window {windowSize : Nat} (hs : h.singleSegment = false)
    (hw : h.windowSize = some windowSize) :
    h.windowBytes = (windowDescriptor windowSize).map fun byte => [byte] := by
  rw [FrameHeader.windowBytes, hs, if_neg Bool.false_ne_true, hw]

theorem windowDescriptor_some {windowSize : Nat} (h : windowSize ≤ 2 ^ 41) :
    ∃ byte, windowDescriptor windowSize = some byte := by
  have hp : ∃ p, nextPowerOfTwo windowSize = some p := by
    unfold nextPowerOfTwo
    by_cases hx : windowSize ≤ 1
    · simp only [if_pos hx]
      exact ⟨1, rfl⟩
    · have hlog : Nat.log2 (windowSize - 1) < 41 := (Nat.log2_lt (by omega)).mpr (by omega)
      have hpow : 2 ^ (Nat.log2 (windowSize - 1) + 1) < 2 ^ 64 :=
        Nat.pow_lt_pow_right (by decide) (by omega)
      simp only [if_neg hx]
      rw [if_pos hpow]
      exact ⟨_, rfl⟩
  obtain ⟨p, hp⟩ := hp
  exact ⟨_, by rw [windowDescriptor, hp]; rfl⟩

/-- A window of at most 2^41 bytes has an exponent that a byte holds. -/
theorem Built.parsesBack_window (hb : Built h) {windowSize : Nat} (hs : h.singleSegment = false)
    (hw : h.windowSize = some windowSize) (hle : windowSize ≤ 2 ^ 41) : ParsesBack h := by
  obtain ⟨byte, hbyte⟩ := windowDescriptor_some hle
  obtain ⟨log, hlog, hhi, hlo, hvalue⟩ := windowDescriptor_spec hbyte
  have hlog41 : log ≤ 41 := by
    rcases Nat.eq_zero_or_pos log with h0 | hpos
    · omega
    · have hpow : 2 ^ (log - 1) < 2 ^ 41 := Nat.lt_of_lt_of_le (hlo hpos) hle
      have := (Nat.pow_lt_pow_iff_right (by decide)).mp hpow
      omega
  have hexp : (if 10 < log then log - 10 else 1) < 32 := by
    split
    · omega
    · decide
  have hbytes : h.windowBytes = some [byte] := by
    rw [windowBytes_of_window hs hw, hbyte]
    rfl
  refine hb.parsesBack hbytes (by rw [hs]; rfl) fun frame hsingle hwin => ?_
  rw [le_singleton, hvalue, Nat.mod_eq_of_lt hexp] at hwin
  refine ⟨_, windowSize_of_exponent (hsingle.trans hs) hwin hexp, fun requested hreq => ?_⟩
  rw [hw] at hreq
  cases hreq
  refine Nat.le_trans hhi (Nat.pow_le_pow_right (by decide) ?_)
  split
  · omega
  · omega

/-- The exponent of a larger one wraps, and the window comes back smaller. -/
theorem Built.not_parsesBack (hb : Built h) {windowSize : Nat} (hs : h.singleSegment = false)
    (hw : h.windowSize = some windowSize) (hlt : 2 ^ 41 < windowSize) : ¬ParsesBack h := by
  rintro ⟨bytes, hbytes, hback⟩
  have hwindow := windowBytes_of_window hs hw
  cases hbyte : windowDescriptor windowSize with
  | none =>
    rw [hbyte] at hwindow
    obtain ⟨d, hdesc, -⟩ := hb.descriptor_spec
    rw [FrameHeader.serialize, hdesc, hwindow] at hbytes
    cases hbytes
  | some byte =>
    rw [hbyte] at hwindow
    obtain ⟨log, hlog, hhi, hlo, hvalue⟩ := windowDescriptor_spec hbyte
    have hlog41 : 41 < log :=
      (Nat.pow_lt_pow_iff_right (by decide)).mp (Nat.lt_of_lt_of_le hlt hhi)
    obtain ⟨bytes', hbytes', hparse⟩ := hb.parse_fields hwindow (by rw [hs]; rfl)
    cases hbytes.symm.trans hbytes'
    obtain ⟨frame, hslice, -, -, -, -, -, size, hsize, hge⟩ := hback ⟨bytes ++ [], 0⟩ [] rfl
    obtain ⟨frame', hslice', -, hsingle, -, -, hwin⟩ := hparse []
    have hframe : frame = frame' := by
      rw [hslice] at hslice'
      cases hslice'
      rfl
    subst hframe
    -- the exponent written is 32 less than the one meant
    have hexp : (if 10 < log then log - 10 else 1) % 32 = log - 42 := by
      rw [if_pos (by omega)]
      omega
    rw [le_singleton, hvalue, hexp] at hwin
    rw [windowSize_of_exponent (hsingle.trans hs) hwin (by omega)] at hsize
    cases hsize
    have hreq : windowSize ≤ 2 ^ (10 + (log - 42)) := hge windowSize hw
    have hpow : 2 ^ (10 + (log - 42)) ≤ 2 ^ (log - 1) :=
      Nat.pow_le_pow_right (by decide) (by omega)
    have := hlo (by omega)
    omega

end Windows

/-- The header writer and its readers. A header parses back exactly when it is of a single segment
or its window has at most 2^41 bytes; on every byte string the two parsers agree, and the measures
of a prefix are exact. -/
theorem frame_header_readers_agree (contentSize : Option UInt64) (windowSize : UInt64)
    (dictionaryId : Option UInt32) (contentChecksum magicless : Bool) (r : Reader)
    (input : List UInt8) :
    (ParsesBack (frameHeader contentSize windowSize dictionaryId contentChecksum magicless) ↔
      singleSegment (contentSize.map UInt64.toNat) windowSize.toNat = true ∨
        windowSize.toNat ≤ 2 ^ 41) ∧
    ((readFrameHeaderWithFormat magicless r).1 = (readFrameHeaderFromSlice magicless r.bytes).1 ∧
      ∀ a, (readFrameHeaderFromSlice magicless r.bytes).1 = .ok a →
        (readFrameHeaderWithFormat magicless r).2.bytes =
          (readFrameHeaderFromSlice magicless r.bytes).2) ∧
    (MeasuresPrefix magicless input (headerInputNeeded input magicless) ∧
      ∀ n, (measureHeaderWithFormat magicless input).1 = .ok n → Measured magicless input n) := by
  refine ⟨?_, agrees_frame_header magicless r, headerInputNeeded_spec input magicless,
    fun n h => measureHeaderWithFormat_ok h⟩
  have hb := frameHeader_built contentSize windowSize dictionaryId contentChecksum magicless
  cases hs : singleSegment (contentSize.map UInt64.toNat) windowSize.toNat with
  | true => exact ⟨fun _ => .inl rfl, fun _ => hb.parsesBack_single hs⟩
  | false =>
    have hw : (frameHeader contentSize windowSize dictionaryId contentChecksum
        magicless).windowSize = some windowSize.toNat :=
      if_neg (by rw [hs]; exact Bool.false_ne_true)
    constructor
    · intro hback
      refine .inr (Nat.le_of_not_lt fun hlt => ?_)
      exact hb.not_parsesBack hs hw hlt hback
    · rintro (htrue | hle)
      · cases htrue
      · exact hb.parsesBack_window hs hw hle

/-- A window of 2^41 + 1 bytes is written as one of 1 KiB. -/
theorem large_window_wraps :
    ¬ParsesBack (frameHeader none 2199023255553 none false false) := by
  have hb := frameHeader_built none 2199023255553 none false false
  exact hb.not_parsesBack rfl rfl (by decide)

end Encoding
