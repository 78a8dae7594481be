import StructuredZstd.Decoding.FrameHeader

namespace Decoding

open Bits

/-- Parsing straight out of a slice: what is taken off the front is gone, and a field that is cut
short leaves the slice as it is. -/
abbrev SliceParser := ExceptT ReadFrameHeaderError (StateM (List UInt8))

def take (n : Nat) (short : ReadFrameHeaderError) : SliceParser (List UInt8) := fun input =>
  if input.length < n then (.error short, input) else (.ok (input.take n), input.drop n)

def takeMagicFromSlice : SliceParser Unit := do
  let magic := le (← take 4 .magicNumberReadError)
  if 0x184D2A50 ≤ magic ∧ magic ≤ 0x184D2A5F then
    let length := le (← take 4 .frameDescriptorReadError)
    throw (.skipFrame magic length)
  if magic ≠ magicNum then throw (.badMagicNumber magic)

/-- `from_le_bytes` of a buffer of `width` zeros that the bytes were copied to. -/
def leBuffer (width : Nat) (bytes : List UInt8) : Nat :=
  le (bytes ++ List.replicate (width - bytes.length) 0)

/-- A field of `n` bytes that is zero when it is left out. -/
def takeOptional (n width : Nat) (short : ReadFrameHeaderError) : SliceParser Nat :=
  if n = 0 then pure 0
  else do
    return leBuffer width (← take n short)

/-- The header behind its magic number. -/
def readHeaderFieldsFromSlice (magicLen : Nat) : SliceParser (FrameHeader × Nat) := do
  let desc : FrameDescriptor := ⟨le (← take 1 .frameDescriptorReadError)⟩
  let windowDescriptor ←
    takeOptional (if desc.singleSegmentFlag then 0 else 1) 1 .windowDescriptorReadError
  let dictId ← takeOptional desc.dictionaryIdBytes 4 .dictionaryIdReadError
  let fcs ← takeOptional desc.frameContentSizeBytes 8 .frameContentSizeReadError
  if desc.reservedFlag then throw .reservedBitSet
  else return ({
      descriptor := desc
      windowDescriptor := windowDescriptor
      dictId := if dictId = 0 then none else some dictId
      frameContentSize := if desc.frameContentSizeBytes = 2 then fcs + 256 else fcs },
    magicLen + 1 + (if desc.singleSegmentFlag then 0 else 1) + desc.dictionaryIdBytes +
      desc.frameContentSizeBytes)

def readFrameHeaderFromSlice (magicless : Bool) : SliceParser (FrameHeader × Nat) :=
  if magicless then readHeaderFieldsFromSlice 0
  else do
    takeMagicFromSlice
    readHeaderFieldsFromSlice 4

/-- The length of a header from its descriptor on. -/
def FrameDescriptor.headerLen (d : FrameDescriptor) : Nat :=
  1 + (if d.singleSegmentFlag then 0 else 1) + d.dictionaryIdBytes + d.frameContentSizeBytes

def measureHeaderWithFormat (magicless : Bool) : SliceParser Nat := do
  let magicLen ← if magicless then pure 0 else do takeMagicFromSlice; pure 4
  let d ← take 1 .frameDescriptorReadError
  return magicLen + FrameDescriptor.headerLen ⟨le d⟩

def skippableMagicStart : Nat := 0x184D2A50

def skippableMagicMask : Nat := 0xFFFFFFF0

/-- The bytes of a magic number, the first of them overlaid with those of the input. -/
def overlay (magic : Nat) (input : List UInt8) : Nat :=
  le (input.take 4 ++ (toLeBytes 4 magic).drop input.length)

/-- How many bytes from its start a header takes to read whole, from what is here of it. -/
def headerInputNeeded (input : List UInt8) (magicless : Bool) :
    Except ReadFrameHeaderError Nat := do
  let start := if magicless then 1 else 5
  let skippable ←
    if ¬magicless ∧ input ≠ [] ∧ overlay magicNum input ≠ magicNum then
      if overlay skippableMagicStart input &&& skippableMagicMask ≠ skippableMagicStart then
        throw (.badMagicNumber (overlay magicNum input))
      else pure (decide (4 ≤ input.length))
    else pure false
  if input.length < start then return start
  if skippable then return 8
  (measureHeaderWithFormat magicless input).1

section Agreement

variable {α β : Type}

/-- Two parsers that end the same way on the same bytes, and leave the same bytes when they
succeed. -/
def Agrees (p : HeaderParser α) (q : SliceParser α) : Prop :=
  ∀ r : Reader, (p r).1 = (q r.bytes).1 ∧
    ∀ a, (q r.bytes).1 = .ok a → (p r).2.bytes = (q r.bytes).2

theorem Agrees.pure (a : α) : Agrees (Pure.pure a) (Pure.pure a) :=
  fun _ => ⟨rfl, fun _ _ => rfl⟩

theorem Agrees.throw (e : ReadFrameHeaderError) :
    Agrees (α := α) (MonadExcept.throw e) (MonadExcept.throw e) :=
  fun _ => ⟨rfl, nofun⟩

theorem Agrees.bind {p : HeaderParser α} {q : SliceParser α} {f : α → HeaderParser β}
    {g : α → SliceParser β} (h : Agrees p q) (hf : ∀ a, Agrees (f a) (g a)) :
    Agrees (p >>= f) (q >>= g) := by
  intro r
  obtain ⟨hres, hrest⟩ := h r
  simp only [Bind.bind, ExceptT.bind, ExceptT.mk, ExceptT.bindCont, StateT.bind]
  cases hp : p r with
  | mk result r' =>
    cases hq : q r.bytes with
    | mk result' bytes =>
      rw [hp, hq] at hres hrest
      dsimp only at hres hrest
      subst hres
      cases result with
      | error e => exact ⟨rfl, nofun⟩
      | ok a =>
        have hbytes : r'.bytes = bytes := hrest a rfl
        subst hbytes
        exact hf a r'

theorem agrees_field (n : Nat) (short : ReadFrameHeaderError) :
    Agrees (readField n short) (take n short) := by
  intro r
  simp only [readField, Reader.readExact, take]
  by_cases h : n ≤ r.bytes.length
  · rw [if_pos h, if_neg (Nat.not_lt.mpr h)]
    exact ⟨rfl, fun _ _ => rfl⟩
  · rw [if_neg h, if_pos (Nat.lt_of_not_le h)]
    exact ⟨rfl, nofun⟩

theorem leBuffer_eq (width : Nat) (bytes : List UInt8) : leBuffer width bytes = le bytes := by
  rw [leBuffer, le_append, le_replicate_zero, Nat.zero_mul, Nat.add_zero]

/-- A field that is left out reads as zero. -/
theorem Agrees.optional {n width : Nat} {short : ReadFrameHeaderError}
    {f : List UInt8 → HeaderParser β} {g : Nat → SliceParser β}
    (hf : ∀ bytes, Agrees (f bytes) (g (le bytes))) :
    Agrees (readField n short >>= f) (takeOptional n width short >>= g) := by
  unfold takeOptional
  split
  · rename_i hn
    subst hn
    exact hf []
  · rw [bind_assoc]
    refine (agrees_field n short).bind fun bytes => ?_
    rw [pure_bind, leBuffer_eq]
    exact hf bytes

theorem agrees_window (desc : FrameDescriptor) :
    Agrees (readWindowDescriptor desc)
      (takeOptional (if desc.singleSegmentFlag then 0 else 1) 1 .windowDescriptorReadError) := by
  unfold readWindowDescriptor
  split
  · exact fun r => ⟨rfl, fun _ _ => rfl⟩
  · have h := @Agrees.optional _ 1 1 .windowDescriptorReadError _ _
      fun bytes => Agrees.pure (le bytes)
    rwa [bind_pure] at h

theorem agrees_magic : Agrees readMagic takeMagicFromSlice := by
  refine (agrees_field 4 .magicNumberReadError).bind fun bytes => ?_
  dsimp only
  split
  · exact (agrees_field 4 .frameDescriptorReadError).bind fun _ => Agrees.throw _
  · split
    · exact Agrees.throw _
    · exact Agrees.pure _

theorem agrees_fields (magicLen : Nat) :
    Agrees (readHeaderFields magicLen) (readHeaderFieldsFromSlice magicLen) := by
  refine (agrees_field 1 .frameDescriptorReadError).bind fun desc => ?_
  refine (agrees_window _).bind fun window => ?_
  refine Agrees.optional fun dictId => ?_
  refine Agrees.optional fun fcs => ?_
  dsimp only
  split
  · exact Agrees.throw _
  · exact Agrees.pure _

/-- The two parsers are one on every byte string. -/
theorem agrees_frame_header (magicless : Bool) :
    Agrees (readFrameHeaderWithFormat magicless) (readFrameHeaderFromSlice magicless) := by
  unfold readFrameHeaderWithFormat readFrameHeaderFromSlice
  split
  · exact agrees_fields 0
  · exact agrees_magic.bind fun _ => agrees_fields 4

end Agreement

section Measure

/-- The header is all there: it parses, names a skippable frame, or is refused for its reserved
bit, which is looked at last. -/
def Held {α : Type} : Except ReadFrameHeaderError α → Prop
  | .ok _ => True
  | .error (.skipFrame _ _) => True
  | .error .reservedBitSet => True
  | .error _ => False

def Whole (magicless : Bool) (input : List UInt8) : Prop :=
  Held (readFrameHeaderFromSlice magicless input).1

theorem run_bind {α β : Type} (p : SliceParser α) (f : α → SliceParser β) (input : List UInt8) :
    (p >>= f) input = match p input with
      | (.ok a, rest) => f a rest
      | (.error e, rest) => (.error e, rest) := by
  simp only [Bind.bind, ExceptT.bind, ExceptT.mk, ExceptT.bindCont, StateT.bind]
  cases p input with
  | mk result rest =>
    cases result with
    | error e => rfl
    | ok a => rfl

theorem take_one (short : ReadFrameHeaderError) (b : UInt8) (rest : List UInt8) :
    take 1 short (b :: rest) = (.ok [b], rest) :=
  if_neg (by rw [List.length_cons]; omega)

theorem takeOptional_run (n width : Nat) (short : ReadFrameHeaderError) (input : List UInt8) :
    takeOptional n width short input =
      if input.length < n then (.error short, input)
      else (.ok (le (input.take n)), input.drop n) := by
  unfold takeOptional
  by_cases hn : n = 0
  · subst hn
    rfl
  · rw [if_neg hn, run_bind, take]
    by_cases hlen : input.length < n
    · rw [if_pos hlen, if_pos hlen]
    · rw [if_neg hlen, if_neg hlen]
      dsimp only
      rw [leBuffer_eq]
      rfl

/-- A header is held once the bytes its descriptor announces are there. -/
theorem held_fields (magicLen : Nat) (b : UInt8) (rest : List UInt8) :
    Held (readHeaderFieldsFromSlice magicLen (b :: rest)).1 ↔
      FrameDescriptor.headerLen ⟨b.toNat⟩ ≤ rest.length + 1 := by
  rw [readHeaderFieldsFromSlice, run_bind, take_one]
  dsimp only
  rw [le_singleton, FrameDescriptor.headerLen]
  generalize FrameDescriptor.mk b.toNat = d
  generalize (if d.singleSegmentFlag then 0 else 1) = w
  rw [run_bind, takeOptional_run]
  by_cases hw : rest.length < w
  · rw [if_pos hw]
    exact ⟨False.elim, fun h => by omega⟩
  · rw [if_neg hw]
    dsimp only
    rw [run_bind, takeOptional_run, List.length_drop]
    by_cases hd : rest.length - w < d.dictionaryIdBytes
    · rw [if_pos hd]
      exact ⟨False.elim, fun h => by omega⟩
    · rw [if_neg hd]
      dsimp only
      rw [run_bind, takeOptional_run, List.length_drop, List.length_drop]
      by_cases hf : rest.length - w - d.dictionaryIdBytes < d.frameContentSizeBytes
      · rw [if_pos hf]
        exact ⟨False.elim, fun h => by omega⟩
      · rw [if_neg hf]
        refine ⟨fun _ => by omega, fun _ => ?_⟩
        dsimp only
        split
        · trivial
        · trivial

/-- A header that is all there, field by field. -/
theorem fields_run (magicLen : Nat) (b : UInt8) {window dict fcs rest : List UInt8}
    {d : FrameDescriptor} (hb : d = ⟨b.toNat⟩)
    (hw : window.length = if d.singleSegmentFlag then 0 else 1)
    (hd : dict.length = d.dictionaryIdBytes) (hf : fcs.length = d.frameContentSizeBytes)
    (hr : d.reservedFlag = false) :
    readHeaderFieldsFromSlice magicLen (b :: (window ++ (dict ++ (fcs ++ rest)))) =
      (.ok ({ descriptor := d
              windowDescriptor := le window
              dictId := if le dict = 0 then none else some (le dict)
              frameContentSize := if d.frameContentSizeBytes = 2 then le fcs + 256 else le fcs },
          magicLen + 1 + window.length + dict.length + fcs.length), rest) := by
  have hfield : ∀ (n width : Nat) (short : ReadFrameHeaderError) (field more : List UInt8),
      field.length = n → takeOptional n width short (field ++ more) = (.ok (le field), more) := by
    rintro n width short field more rfl
    rw [takeOptional_run, if_neg (by rw [List.length_append]; omega), List.take_left,
      List.drop_left]
  rw [readHeaderFieldsFromSlice, run_bind, take_one]
  dsimp only
  rw [le_singleton, ← hb, run_bind, hfield _ _ _ window _ hw]
  dsimp only
  rw [run_bind, hfield _ _ _ dict _ hd]
  dsimp only
  rw [run_bind, hfield _ _ _ fcs _ hf]
  dsimp only
  rw [hr, if_neg Bool.false_ne_true, hw, hd, hf]
  rfl

theorem not_held_fields_nil (magicLen : Nat) : ¬Held (readHeaderFieldsFromSlice magicLen []).1 := id

def Skippable (magic : Nat) : Prop := 0x184D2A50 ≤ magic ∧ magic ≤ 0x184D2A5F

/-- All that taking the magic number can do. -/
theorem takeMagicFromSlice_run (input : List UInt8) :
    (input.length < 4 ∧ takeMagicFromSlice input = (.error .magicNumberReadError, input)) ∨
    (4 ≤ input.length ∧ Skippable (le (input.take 4)) ∧ input.length < 8 ∧
      takeMagicFromSlice input = (.error .frameDescriptorReadError, input.drop 4)) ∨
    (Skippable (le (input.take 4)) ∧ 8 ≤ input.length ∧ takeMagicFromSlice input =
      (.error (.skipFrame (le (input.take 4)) (le ((input.drop 4).take 4))), input.drop 8)) ∨
    (4 ≤ input.length ∧ ¬Skippable (le (input.take 4)) ∧ le (input.take 4) ≠ magicNum ∧
      takeMagicFromSlice input = (.error (.badMagicNumber (le (input.take 4))), input.drop 4)) ∨
    (4 ≤ input.length ∧ le (input.take 4) = magicNum ∧
      takeMagicFromSlice input = (.ok (), input.drop 4)) := by
  rw [takeMagicFromSlice, run_bind, take]
  by_cases h4 : input.length < 4
  · rw [if_pos h4]
    exact .inl ⟨h4, rfl⟩
  · rw [if_neg h4]
    dsimp only
    by_cases hskip : 0x184D2A50 ≤ le (input.take 4) ∧ le (input.take 4) ≤ 0x184D2A5F
    · rw [if_pos hskip, run_bind, take, List.length_drop]
      by_cases h8 : input.length - 4 < 4
      · rw [if_pos h8]
        exact .inr (.inl ⟨by omega, hskip, by omega, rfl⟩)
      · rw [if_neg h8, List.drop_drop]
        exact .inr (.inr (.inl ⟨hskip, by omega, rfl⟩))
    · rw [if_neg hskip]
      by_cases hmagic : le (input.take 4) = magicNum
      · rw [if_neg (not_not.mpr hmagic)]
        exact .inr (.inr (.inr (.inr ⟨by omega, hmagic, rfl⟩)))
      · rw [if_pos hmagic]
        exact .inr (.inr (.inr (.inl ⟨by omega, hskip, hmagic, rfl⟩)))

theorem magicNum_not_skippable : ¬Skippable magicNum := by
  unfold Skippable
  decide

/-- When a header with its magic number is held. -/
theorem whole_iff (input : List UInt8) :
    Whole false input ↔ (Skippable (le (input.take 4)) ∧ 8 ≤ input.length) ∨
      (4 ≤ input.length ∧ le (input.take 4) = magicNum ∧
        Held (readHeaderFieldsFromSlice 4 (input.drop 4)).1) := by
  have hrun : readFrameHeaderFromSlice false input =
      (takeMagicFromSlice >>= fun _ => readHeaderFieldsFromSlice 4) input := rfl
  rw [Whole, hrun, run_bind]
  rcases takeMagicFromSlice_run input with ⟨h, hrun⟩ | ⟨h4, hskip, h8, hrun⟩ | ⟨hskip, h8, hrun⟩ |
    ⟨h4, hskip, hmagic, hrun⟩ | ⟨h4, hmagic, hrun⟩
  · rw [hrun]
    exact ⟨False.elim, fun h' => by rcases h' with ⟨-, h'⟩ | ⟨h', -⟩ <;> omega⟩
  · rw [hrun]
    refine ⟨False.elim, fun h' => ?_⟩
    rcases h' with ⟨-, h'⟩ | ⟨-, hmagic, -⟩
    · omega
    · rw [hmagic] at hskip
      exact magicNum_not_skippable hskip
  · rw [hrun]
    exact ⟨fun _ => .inl ⟨hskip, h8⟩, fun _ => trivial⟩
  · rw [hrun]
    refine ⟨False.elim, fun h' => ?_⟩
    rcases h' with ⟨h', -⟩ | ⟨-, h', -⟩
    · exact hskip h'
    · exact hmagic h'
  · rw [hrun]
    refine ⟨fun h => .inr ⟨h4, hmagic, h⟩, fun h => ?_⟩
    rcases h with ⟨hskip, -⟩ | ⟨-, -, h⟩
    · rw [hmagic] at hskip
      exact (magicNum_not_skippable hskip).elim
    · exact h

/-- A descriptor announces at least one more byte. -/
theorem FrameDescriptor.two_le_headerLen (d : FrameDescriptor) : 2 ≤ d.headerLen := by
  unfold headerLen frameContentSizeBytes
  cases hs : d.singleSegmentFlag with
  | false => simp only [Bool.false_eq_true, if_false]; omega
  | true =>
    simp only [if_true]
    split <;> omega

theorem FrameDescriptor.headerLen_le (d : FrameDescriptor) : d.headerLen ≤ 14 := by
  have hfcs : d.frameContentSizeBytes ≤ 8 := by
    unfold frameContentSizeBytes
    split
    · split <;> omega
    · omega
    · omega
    · omega
  have hdict : d.dictionaryIdBytes ≤ 4 := by
    unfold dictionaryIdBytes
    split <;> omega
  unfold headerLen
  split <;> omega

/-- No header is shorter than its magic number, its descriptor and a field. -/
theorem Whole.five_lt {input : List UInt8} (h : Whole false input) : 5 < input.length := by
  rcases (whole_iff input).mp h with ⟨-, h8⟩ | ⟨h4, -, hheld⟩
  · omega
  · cases hdrop : input.drop 4 with
    | nil =>
      rw [hdrop] at hheld
      exact (not_held_fields_nil 4 hheld).elim
    | cons b rest =>
      rw [hdrop, held_fields] at hheld
      have hlen := congrArg List.length hdrop
      rw [List.length_drop, List.length_cons] at hlen
      have := FrameDescriptor.two_le_headerLen ⟨b.toNat⟩
      omega

theorem and_mask {x : Nat} (hx : x < 2 ^ 32) : x &&& skippableMagicMask = x >>> 4 <<< 4 := by
  have hmask : skippableMagicMask = (2 ^ 28 - 1) <<< 4 := by decide
  apply Nat.eq_of_testBit_eq
  intro i
  rw [hmask, Nat.testBit_and, Nat.testBit_shiftLeft, Nat.testBit_shiftLeft, Nat.testBit_shiftRight,
    Nat.testBit_two_pow_sub_one]
  by_cases h4 : 4 ≤ i
  · rw [Nat.add_sub_cancel' h4]
    by_cases h32 : i < 32
    · simp only [h4, decide_true, Bool.true_and, show i - 4 < 28 by omega, Bool.and_true]
    · have hzero : x.testBit i = false :=
        Nat.testBit_lt_two_pow (Nat.lt_of_lt_of_le hx (Nat.pow_le_pow_right (by decide) (by omega)))
      simp [hzero]
  · simp [h4]

/-- The mask maps the sixteen skippable numbers to the lowest of them, and no other. -/
theorem mask_iff {x : Nat} (hx : x < 2 ^ 32) :
    x &&& skippableMagicMask = skippableMagicStart ↔ Skippable x := by
  rw [and_mask hx, Nat.shiftRight_eq_div_pow, Nat.shiftLeft_eq, skippableMagicStart, Skippable]
  omega

theorem overlay_of_length {input : List UInt8} (h : 4 ≤ input.length) (magic : Nat) :
    overlay magic input = le (input.take 4) := by
  rw [overlay, List.drop_of_length_le (by rw [toLeBytes_length]; exact h), List.append_nil]

/-- On a prefix of bytes that start like the number from where the prefix ends, the overlay is
the number the bytes hold. -/
theorem overlay_append {p q : List UInt8} (hpq : p <+: q) {magic : Nat}
    (h : (q.take 4).drop p.length = (toLeBytes 4 magic).drop p.length) :
    overlay magic p = le (q.take 4) := by
  obtain ⟨rest, rfl⟩ := hpq
  rw [overlay, ← h]
  congr 1
  rcases Nat.lt_or_ge p.length 4 with hlt | hge
  · rw [List.take_of_length_le (Nat.le_of_lt hlt), List.take_append,
      List.take_of_length_le (Nat.le_of_lt hlt), List.drop_left]
  · rw [List.take_append_of_le_length hge, List.drop_of_length_le (by rw [List.length_take]; omega),
      List.append_nil]

theorem take_four {q : List UInt8} (h4 : 4 ≤ q.length) : q.take 4 = toLeBytes 4 (le (q.take 4)) := by
  have hlen : (q.take 4).length = 4 := by rw [List.length_take]; omega
  apply le_injective
  · rw [hlen, toLeBytes_length]
  · have := le_lt (q.take 4)
    rw [hlen] at this
    rw [le_toLeBytes, Nat.mod_eq_of_lt this]

theorem magic_lt (q : List UInt8) : le (q.take 4) < 2 ^ 32 := by
  have := le_lt (q.take 4)
  refine Nat.lt_of_lt_of_le this (Nat.pow_le_pow_right (by decide) ?_)
  rw [List.length_take]
  omega

/-- A zstd magic number shows on every prefix of it. -/
theorem overlay_magicNum {p q : List UInt8} (hpq : p <+: q) (h4 : 4 ≤ q.length)
    (h : le (q.take 4) = magicNum) : overlay magicNum p = magicNum := by
  rw [overlay_append hpq, h]
  rw [take_four h4, h]

/-- A skippable magic number shows on every prefix of it but the empty one. -/
theorem overlay_skippable {p q : List UInt8} (hpq : p <+: q) (hp : p ≠ []) (h4 : 4 ≤ q.length)
    (h : Skippable (le (q.take 4))) : overlay skippableMagicStart p = le (q.take 4) := by
  have htail : ∀ j < 16, (toLeBytes 4 (skippableMagicStart + j)).drop 1 =
      (toLeBytes 4 skippableMagicStart).drop 1 := by decide
  have hpos : 0 < p.length := List.length_pos_iff.mpr hp
  obtain ⟨j, hj, hq⟩ : ∃ j < 16, le (q.take 4) = skippableMagicStart + j :=
    ⟨le (q.take 4) - skippableMagicStart, by
      unfold Skippable at h
      unfold skippableMagicStart
      omega, by
      unfold Skippable at h
      unfold skippableMagicStart
      omega⟩
  apply overlay_append hpq
  have hsplit : p.length = 1 + (p.length - 1) := by omega
  rw [take_four h4, hq, hsplit, ← List.drop_drop, ← List.drop_drop, htail j hj]

/-- What a measure of `n` bytes promises: `n` bytes hold the header, and no fewer do. Until the
header is held it asks for more bytes than are here, and never for more than the longest header. -/
structure Measured (magicless : Bool) (input : List UInt8) (n : Nat) : Prop where
  enough : n ≤ input.length → Whole magicless input
  needed : ∀ q, input <+: q → q.length < n → ¬Whole magicless q
  bounded : n ≤ 18

theorem measured_start (input : List UInt8) (h : input.length < 5) : Measured false input 5 where
  bounded := by decide
  enough h5 := by omega
  needed q _ hlen hq := by have := hq.five_lt; omega

theorem measured_start_magicless : Measured true [] 1 where
  bounded := by decide
  enough h := by simp at h
  needed q _ hlen hq := by
    rw [List.length_eq_zero_iff.mp (Nat.lt_one_iff.mp hlen)] at hq
    exact not_held_fields_nil 0 hq

theorem measured_magicless (b : UInt8) (rest : List UInt8) :
    Measured true (b :: rest) (FrameDescriptor.headerLen ⟨b.toNat⟩) where
  bounded := Nat.le_trans (FrameDescriptor.headerLen_le _) (by decide)
  enough h := (held_fields 0 b rest).mpr h
  needed q hq hlen hwhole := by
    obtain ⟨more, rfl⟩ := hq
    have hheld := (held_fields 0 b (rest ++ more)).mp hwhole
    rw [List.cons_append, List.length_cons] at hlen
    omega

theorem measured_magic {input : List UInt8} {b : UInt8} {rest : List UInt8}
    (hmagic : le (input.take 4) = magicNum) (hdrop : input.drop 4 = b :: rest) :
    Measured false input (4 + FrameDescriptor.headerLen ⟨b.toNat⟩) := by
  have hlen := congrArg List.length hdrop
  rw [List.length_drop, List.length_cons] at hlen
  refine ⟨?_, ?_, Nat.add_le_add_left (FrameDescriptor.headerLen_le _) 4⟩
  · intro h
    refine (whole_iff input).mpr (.inr ⟨by omega, hmagic, ?_⟩)
    rw [hdrop, held_fields]
    omega
  · intro q hq hshort hwhole
    obtain ⟨more, rfl⟩ := hq
    have htake : (input ++ more).take 4 = input.take 4 :=
      List.take_append_of_le_length (by omega)
    have hdrop' : (input ++ more).drop 4 = b :: (rest ++ more) := by
      rw [List.drop_append_of_le_length (by omega), hdrop, List.cons_append]
    rcases (whole_iff _).mp hwhole with ⟨hskip, -⟩ | ⟨-, -, hheld⟩
    · rw [htake, hmagic] at hskip
      exact magicNum_not_skippable hskip
    · rw [hdrop', held_fields] at hheld
      rw [List.length_append] at hheld hshort
      omega

theorem measured_skippable {input : List UInt8} (h4 : 4 ≤ input.length)
    (hskip : Skippable (le (input.take 4))) : Measured false input 8 := by
  refine ⟨?_, ?_, by decide⟩
  · intro h
    exact (whole_iff input).mpr (.inl ⟨hskip, h⟩)
  · intro q hq hshort hwhole
    obtain ⟨more, rfl⟩ := hq
    rcases (whole_iff _).mp hwhole with ⟨-, h8⟩ | ⟨-, hmagic, -⟩
    · omega
    · rw [List.take_append_of_le_length h4] at hmagic
      rw [hmagic] at hskip
      exact magicNum_not_skippable hskip

/-- The length behind the magic number. -/
def measureFields (magicLen : Nat) : SliceParser Nat := do
  let d ← take 1 .frameDescriptorReadError
  return magicLen + FrameDescriptor.headerLen ⟨le d⟩

theorem measureFields_cons (magicLen : Nat) (b : UInt8) (rest : List UInt8) :
    (measureFields magicLen (b :: rest)).1 =
      .ok (magicLen + FrameDescriptor.headerLen ⟨b.toNat⟩) := by
  rw [measureFields, run_bind, take_one, ← le_singleton]
  rfl

theorem measureHeaderWithFormat_true : measureHeaderWithFormat true = measureFields 0 := by
  rw [measureHeaderWithFormat, if_pos rfl, pure_bind]
  rfl

theorem measureHeaderWithFormat_false :
    measureHeaderWithFormat false = takeMagicFromSlice >>= fun _ => measureFields 4 := by
  rw [measureHeaderWithFormat, if_neg Bool.false_ne_true]
  simp only [pure_bind]
  rfl

/-- A measure that comes out is exact. -/
theorem measureHeaderWithFormat_ok {magicless : Bool} {input : List UInt8} {n : Nat}
    (h : (measureHeaderWithFormat magicless input).1 = .ok n) : Measured magicless input n := by
  cases magicless with
  | true =>
    rw [measureHeaderWithFormat_true] at h
    cases input with
    | nil => cases h
    | cons b rest =>
      rw [measureFields_cons, Nat.zero_add] at h
      cases h
      exact measured_magicless b rest
  | false =>
    rw [measureHeaderWithFormat_false, run_bind] at h
    rcases takeMagicFromSlice_run input with ⟨-, hrun⟩ | ⟨-, -, -, hrun⟩ | ⟨-, -, hrun⟩ |
      ⟨-, -, -, hrun⟩ | ⟨-, hmagic, hrun⟩
    · rw [hrun] at h
      cases h
    · rw [hrun] at h
      cases h
    · rw [hrun] at h
      cases h
    · rw [hrun] at h
      cases h
    · rw [hrun] at h
      dsimp only at h
      cases hdrop : input.drop 4 with
      | nil =>
        rw [hdrop] at h
        cases h
      | cons b rest =>
        rw [hdrop, measureFields_cons] at h
        cases h
        exact measured_magic hmagic hdrop

theorem measure_ok_of_magic {input : List UInt8} (h5 : 5 ≤ input.length)
    (hmagic : le (input.take 4) = magicNum) :
    ∃ n, (measureHeaderWithFormat false input).1 = .ok n := by
  rw [measureHeaderWithFormat_false, run_bind]
  rcases takeMagicFromSlice_run input with ⟨h, -⟩ | ⟨-, hskip, -, -⟩ | ⟨hskip, -, -⟩ |
    ⟨-, -, hne, -⟩ | ⟨-, -, hrun⟩
  · omega
  · rw [hmagic] at hskip
    exact (magicNum_not_skippable hskip).elim
  · rw [hmagic] at hskip
    exact (magicNum_not_skippable hskip).elim
  · exact (hne hmagic).elim
  · rw [hrun]
    cases hdrop : input.drop 4 with
    | nil =>
      have := congrArg List.length hdrop
      rw [List.length_drop, List.length_nil] at this
      omega
    | cons b rest => exact ⟨_, measureFields_cons 4 b rest⟩

/-- What the incremental measure of an input may say. -/
def MeasuresPrefix (magicless : Bool) (input : List UInt8) :
    Except ReadFrameHeaderError Nat → Prop
  | .ok n => Measured magicless input n
  | .error _ => ∀ q, input <+: q → ¬Whole magicless q

theorem headerInputNeeded_magicless (input : List UInt8) :
    MeasuresPrefix true input (headerInputNeeded input true) := by
  cases input with
  | nil => exact measured_start_magicless
  | cons b rest =>
    have hrun : headerInputNeeded (b :: rest) true = .ok (FrameDescriptor.headerLen ⟨b.toNat⟩) := by
      have hmeasure := measureFields_cons 0 b rest
      rw [Nat.zero_add] at hmeasure
      rw [← hmeasure, ← measureHeaderWithFormat_true]
      rfl
    rw [hrun]
    exact measured_magicless b rest

/-- A header that is held after all shows on the bytes that are here already. -/
theorem Whole.shows {p q : List UInt8} (hpq : p <+: q) (hp : p ≠ []) (h : Whole false q) :
    overlay magicNum p = magicNum ∨
      overlay skippableMagicStart p &&& skippableMagicMask = skippableMagicStart := by
  have h4 : 4 ≤ q.length := Nat.le_of_lt (Nat.lt_of_succ_lt h.five_lt)
  rcases (whole_iff q).mp h with ⟨hskip, -⟩ | ⟨-, hmagic, -⟩
  · refine .inr ?_
    rw [overlay_skippable hpq hp h4 hskip]
    exact (mask_iff (magic_lt q)).mpr hskip
  · exact .inl (overlay_magicNum hpq h4 hmagic)

theorem headerInputNeeded_magic (input : List UInt8) :
    MeasuresPrefix false input (headerInputNeeded input false) := by
  by_cases hforeign : input ≠ [] ∧ overlay magicNum input ≠ magicNum
  · have hcond : ¬(false = true) ∧ input ≠ [] ∧ overlay magicNum input ≠ magicNum :=
      ⟨Bool.false_ne_true, hforeign⟩
    by_cases hskip : overlay skippableMagicStart input &&& skippableMagicMask = skippableMagicStart
    · rw [headerInputNeeded, if_pos hcond, if_neg (not_not.mpr hskip), pure_bind,
        if_neg Bool.false_ne_true]
      dsimp only
      by_cases h5 : input.length < 5
      · rw [if_pos h5]
        exact measured_start input h5
      · rw [if_neg h5, if_pos (by rw [decide_eq_true_eq]; omega)]
        rw [overlay_of_length (by omega), mask_iff (magic_lt input)] at hskip
        exact measured_skippable (by omega) hskip
    · rw [headerInputNeeded, if_pos hcond, if_pos hskip]
      intro q hq hwhole
      rcases hwhole.shows hq hforeign.1 with hmagic | hmask
      · exact hforeign.2 hmagic
      · exact hskip hmask
  · have hcond : ¬(¬(false = true) ∧ input ≠ [] ∧ overlay magicNum input ≠ magicNum) :=
      fun h => hforeign h.2
    rw [headerInputNeeded, if_neg hcond, pure_bind, if_neg Bool.false_ne_true]
    dsimp only
    by_cases h5 : input.length < 5
    · rw [if_pos h5]
      exact measured_start input h5
    · rw [if_neg h5, if_neg Bool.false_ne_true]
      have hne : input ≠ [] := fun h => h5 (by rw [h]; decide)
      have hmagic : overlay magicNum input = magicNum := not_not.mp fun h => hforeign ⟨hne, h⟩
      rw [overlay_of_length (by omega)] at hmagic
      obtain ⟨n, hn⟩ := measure_ok_of_magic (by omega) hmagic
      rw [hn]
      exact measureHeaderWithFormat_ok hn

/-- The incremental measure is exact on every prefix, and refuses only what no further bytes can
complete. -/
theorem headerInputNeeded_spec (input : List UInt8) (magicless : Bool) :
    MeasuresPrefix magicless input (headerInputNeeded input magicless) := by
  cases magicless with
  | true => exact headerInputNeeded_magicless input
  | false => exact headerInputNeeded_magic input

end Measure

end Decoding
