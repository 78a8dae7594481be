import StructuredZstd.Decoding.FrameDecoder

namespace Decoding

open Bits Runs

namespace Reader

theorem readExact_some {r r' : Reader} {n : Nat} {bytes : List UInt8}
    (h : r.readExact n = (some bytes, r')) :
    n ≤ r.bytes.length ∧ bytes = r.bytes.take n ∧ r' = { r with bytes := r.bytes.drop n } := by
  simp only [readExact] at h
  split at h
  · rename_i hn
    cases h
    exact ⟨hn, rfl, rfl⟩
  · cases h

/-- The reader stands at `pos` of the input. -/
def At (input : List UInt8) (pos : Nat) (r : Reader) : Prop := r.bytes <+: input.drop pos

theorem At.drop {input : List UInt8} {pos n : Nat} {r : Reader} (h : r.At input pos) :
    ({ r with bytes := r.bytes.drop n } : Reader).At input (pos + n) := by
  obtain ⟨rest, hrest⟩ := h
  refine ⟨rest.drop (n - r.bytes.length), ?_⟩
  rw [← List.drop_append, hrest, List.drop_drop]

end Reader

namespace HeaderParser

variable {α β : Type}

/-- Both halves of a parser that succeeds have succeeded. -/
theorem bind_ok {p : HeaderParser α} {f : α → HeaderParser β} {r r' : Reader} {b : β}
    (h : (p >>= f) r = (.ok b, r')) : ∃ a r1, p r = (.ok a, r1) ∧ f a r1 = (.ok b, r') := by
  simp only [bind, ExceptT.bind, ExceptT.mk, ExceptT.bindCont, StateT.bind] at h
  cases hp : p r with
  | mk result r1 =>
    rw [hp] at h
    cases result with
    | error e => cases h
    | ok a => exact ⟨a, r1, rfl, h⟩

theorem readField_ok {n : Nat} {short : ReadFrameHeaderError} {r r' : Reader}
    {bytes : List UInt8} (h : readField n short r = (.ok bytes, r')) :
    r.bytes.length = r'.bytes.length + n := by
  simp only [readField] at h
  split at h
  · rename_i hread
    cases h
    obtain ⟨hn, _, rfl⟩ := Reader.readExact_some hread
    dsimp only
    rw [List.length_drop]
    omega
  · cases h

theorem readMagic_ok {r r' : Reader} {u : Unit} (h : readMagic r = (.ok u, r')) :
    r.bytes.length = r'.bytes.length + 4 := by
  obtain ⟨bytes, r1, hmagic, h⟩ := bind_ok h
  have hfour := readField_ok hmagic
  dsimp only at h
  split at h
  · obtain ⟨_, _, _, h⟩ := bind_ok h
    cases h
  · split at h
    · cases h
    · cases h
      exact hfour

theorem readWindowDescriptor_ok {desc : FrameDescriptor} {r r' : Reader} {n : Nat}
    (h : readWindowDescriptor desc r = (.ok n, r')) :
    r.bytes.length = r'.bytes.length + if desc.singleSegmentFlag then 0 else 1 := by
  simp only [readWindowDescriptor] at h
  split at h
  · rename_i hflag
    cases h
    simp [hflag]
  · rename_i hflag
    obtain ⟨_, _, hread, h⟩ := bind_ok h
    cases h
    simpa [hflag] using readField_ok hread

theorem readHeaderFields_ok {magicLen : Nat} {r r' : Reader} {frame : FrameHeader} {size : Nat}
    (h : readHeaderFields magicLen r = (.ok (frame, size), r')) :
    r.bytes.length + magicLen = r'.bytes.length + size := by
  obtain ⟨desc, r1, hdesc, h⟩ := bind_ok h
  obtain ⟨window, r2, hwindow, h⟩ := bind_ok h
  obtain ⟨dictId, r3, hdict, h⟩ := bind_ok h
  obtain ⟨fcs, r4, hfcs, h⟩ := bind_ok h
  have h1 := readField_ok hdesc
  have h2 := readWindowDescriptor_ok hwindow
  have h3 := readField_ok hdict
  have h4 := readField_ok hfcs
  dsimp only at h
  split at h
  · cases h
  · cases h
    omega

/-- The size a header reports is what it takes. -/
theorem readFrameHeaderWithFormat_ok {magicless : Bool} {r r' : Reader} {frame : FrameHeader}
    {size : Nat} (h : readFrameHeaderWithFormat magicless r = (.ok (frame, size), r')) :
    r.bytes.length = r'.bytes.length + size := by
  simp only [readFrameHeaderWithFormat] at h
  split at h
  · exact readHeaderFields_ok h
  · obtain ⟨_, r1, hmagic, h⟩ := bind_ok h
    have h1 := readMagic_ok hmagic
    have h2 := readHeaderFields_ok h
    omega

end HeaderParser

/-- The size of a raw block is the size of its content, and an RLE block has one byte. -/
theorem BlockHeader.parse_ok {b0 b1 b2 : UInt8} {header : BlockHeader}
    (h : parse b0 b1 b2 = .ok header) :
    (header.blockType = .raw → header.decompressedSize = header.contentSize) ∧
      (header.blockType = .rle → header.contentSize = 1) := by
  simp only [parse] at h
  split at h
  · cases h
  · split at h
    · cases h
    · cases h
      constructor
      · rintro rfl
        rfl
      · rintro rfl
        rfl

/-- The header at a position of the input. -/
def headerAt (input : List UInt8) (pos : Nat) : Option BlockHeader :=
  match input.drop pos with
  | b0 :: b1 :: b2 :: _ => (BlockHeader.parse b0 b1 b2).toOption
  | _ => none

theorem headerAt_parse {input : List UInt8} {pos : Nat} {header : BlockHeader}
    (h : headerAt input pos = some header) :
    ∃ b0 b1 b2, BlockHeader.parse b0 b1 b2 = .ok header := by
  simp only [headerAt] at h
  split at h
  · rename_i b0 b1 b2 rest _
    refine ⟨b0, b1, b2, ?_⟩
    cases hp : BlockHeader.parse b0 b1 b2 with
    | error e =>
      rw [hp] at h
      cases h
    | ok header' =>
      rw [hp] at h
      cases h
      rfl
  · cases h

theorem readBlockHeader_ok {input : List UInt8} {pos : Nat} {r r' : Reader}
    {header : BlockHeader} (h : readBlockHeader r = (.ok header, r')) (hat : r.At input pos) :
    3 ≤ r.bytes.length ∧ headerAt input pos = some header ∧
      r' = { r with bytes := r.bytes.drop 3 } := by
  simp only [readBlockHeader] at h
  split at h
  · rename_i b0 b1 b2 r'' hread
    obtain ⟨hlen, hbytes, rfl⟩ := Reader.readExact_some hread
    obtain ⟨hparse, rfl⟩ := Prod.mk.inj h
    refine ⟨hlen, ?_, rfl⟩
    obtain ⟨rest, hrest⟩ := hat
    have hcat : r.bytes = b0 :: b1 :: b2 :: r.bytes.drop 3 := by
      conv_lhs => rw [← List.take_append_drop 3 r.bytes, ← hbytes]
      rfl
    rw [hcat] at hrest
    simp only [headerAt, ← hrest, List.cons_append, hparse]
    rfl
  · cases h

section

variable {B : Type} [BufferBackend B]

/-- A block that is accepted takes its content off the reader, and says so. -/
theorem decodeBlockContent_ok {header : BlockHeader} {w w' : Workspace B}
    {dict : Option Dictionary} {r r' : Reader} {n : Nat} {input : List UInt8} {pos : Nat}
    (hh : headerAt input pos = some header)
    (h : Decoding.decodeBlockContent header w dict r = (.ok n, w', r')) :
    n = header.contentSize ∧ n ≤ r.bytes.length ∧ r' = { r with bytes := r.bytes.drop n } := by
  obtain ⟨b0, b1, b2, hparse⟩ := headerAt_parse hh
  obtain ⟨hraw, hrle⟩ := BlockHeader.parse_ok hparse
  simp only [Decoding.decodeBlockContent] at h
  split at h
  · rename_i ht
    split at h
    · rename_i hread
      split at h
      · cases h
      · cases h
        obtain ⟨hlen, _, rfl⟩ := Reader.readExact_some hread
        exact ⟨(hrle ht).symm, hlen, rfl⟩
    · cases h
  · rename_i ht
    split at h
    · cases h
    · cases hread : r.readExact header.decompressedSize with
      | mk data r'' =>
        rw [hread] at h
        dsimp only at h
        cases data with
        | none => cases h
        | some data =>
          cases h
          obtain ⟨hlen, _, rfl⟩ := Reader.readExact_some hread
          exact ⟨hraw ht, hlen, rfl⟩
  · split at h
    · cases h
    · split at h
      · cases h
      · rename_i hread
        obtain ⟨hlen, _, rfl⟩ := Reader.readExact_some hread
        split at h
        · cases h
        · cases h
          exact ⟨rfl, hlen, rfl⟩

/-- The same of a slice. -/
theorem decodeBlockContentFromSlice_ok {header : BlockHeader} {w w' : Workspace B}
    {dict : Option Dictionary} {source rest : List UInt8} {n : Nat} {input : List UInt8}
    {pos : Nat} (hh : headerAt input pos = some header)
    (h : Decoding.decodeBlockContentFromSlice header w dict source = (.ok n, w', rest)) :
    n = header.contentSize ∧ n ≤ source.length ∧ rest = source.drop n := by
  obtain ⟨b0, b1, b2, hparse⟩ := headerAt_parse hh
  obtain ⟨hraw, hrle⟩ := BlockHeader.parse_ok hparse
  simp only [Decoding.decodeBlockContentFromSlice] at h
  split at h
  · rename_i ht
    split at h
    · cases h
    · split at h
      · cases h
      · split at h
        · cases h
        · cases h
          exact ⟨(hrle ht).symm, Nat.succ_le_succ (Nat.zero_le _), rfl⟩
  · rename_i ht
    split at h
    · cases h
    · rename_i hlen
      split at h
      · cases h
      · split at h
        · cases h
        · cases h
          exact ⟨hraw ht, Nat.le_of_not_lt hlen, rfl⟩
  · split at h
    · cases h
    · split at h
      · cases h
      · rename_i hlen
        split at h
        · cases h
        · cases h
          exact ⟨rfl, Nat.le_of_not_lt hlen, rfl⟩

end

namespace DecoderScratchKind

theorem decodeBlockContent_ok {k k' : DecoderScratchKind} {header : BlockHeader}
    {dict : Option Dictionary} {r r' : Reader} {n : Nat} {input : List UInt8} {pos : Nat}
    (hh : headerAt input pos = some header)
    (h : k.decodeBlockContent header dict r = (.ok n, k', r')) :
    n = header.contentSize ∧ n ≤ r.bytes.length ∧ r' = { r with bytes := r.bytes.drop n } := by
  cases k with
  | ring s =>
    simp only [DecoderScratchKind.decodeBlockContent, Prod.mk.injEq] at h
    have hs : Decoding.decodeBlockContent header s dict r =
        (.ok n, (Decoding.decodeBlockContent header s dict r).2.1, r') :=
      Prod.ext h.1 (Prod.ext rfl h.2.2)
    exact Decoding.decodeBlockContent_ok hh hs
  | flat s =>
    simp only [DecoderScratchKind.decodeBlockContent, Prod.mk.injEq] at h
    have hs : Decoding.decodeBlockContent header s dict r =
        (.ok n, (Decoding.decodeBlockContent header s dict r).2.1, r') :=
      Prod.ext h.1 (Prod.ext rfl h.2.2)
    exact Decoding.decodeBlockContent_ok hh hs

theorem decodeBlockContentFromSlice_ok {k k' : DecoderScratchKind} {header : BlockHeader}
    {dict : Option Dictionary} {source rest : List UInt8} {n : Nat} {input : List UInt8}
    {pos : Nat} (hh : headerAt input pos = some header)
    (h : k.decodeBlockContentFromSlice header dict source = (.ok n, k', rest)) :
    n = header.contentSize ∧ n ≤ source.length ∧ rest = source.drop n := by
  cases k with
  | ring s =>
    simp only [DecoderScratchKind.decodeBlockContentFromSlice, Prod.mk.injEq] at h
    have hs : Decoding.decodeBlockContentFromSlice header s dict source =
        (.ok n, (Decoding.decodeBlockContentFromSlice header s dict source).2.1, rest) :=
      Prod.ext h.1 (Prod.ext rfl h.2.2)
    exact Decoding.decodeBlockContentFromSlice_ok hh hs
  | flat s =>
    simp only [DecoderScratchKind.decodeBlockContentFromSlice, Prod.mk.injEq] at h
    have hs : Decoding.decodeBlockContentFromSlice header s dict source =
        (.ok n, (Decoding.decodeBlockContentFromSlice header s dict source).2.1, rest) :=
      Prod.ext h.1 (Prod.ext rfl h.2.2)
    exact Decoding.decodeBlockContentFromSlice_ok hh hs

end DecoderScratchKind

/-- Where block `k` of a frame starts, as the headers before it have it. -/
def blockStart (input : List UInt8) : Nat → Option Nat
  | 0 => some 0
  | k + 1 =>
    match blockStart input k with
    | none => none
    | some pos => match headerAt input pos with
      | none => none
      | some header => if header.lastBlock then none else some (pos + 3 + header.contentSize)

/-- Where the last block ends. -/
def BlocksEnd (input : List UInt8) (pos : Nat) : Prop :=
  ∃ k start header, blockStart input k = some start ∧ headerAt input start = some header ∧
    header.lastBlock = true ∧ pos = start + 3 + header.contentSize

theorem blockStart_succ {input : List UInt8} {k pos : Nat} {header : BlockHeader}
    (h : blockStart input k = some pos) (hh : headerAt input pos = some header)
    (hlast : header.lastBlock = false) :
    blockStart input (k + 1) = some (pos + 3 + header.contentSize) := by
  simp only [blockStart, h, hh, hlast]
  rfl

theorem blockStart_none {input : List UInt8} {k : Nat} (h : blockStart input k = none) (n : Nat) :
    blockStart input (k + n) = none := by
  induction n with
  | zero => exact h
  | succ n ih =>
    rw [← Nat.add_assoc]
    simp only [blockStart, ih]

theorem blockStart_mono {input : List UInt8} (n : Nat) {k p q : Nat}
    (hp : blockStart input k = some p) (hq : blockStart input (k + n) = some q) : p ≤ q := by
  induction n generalizing k p with
  | zero =>
    rw [Nat.add_zero, hp] at hq
    cases hq
    exact Nat.le_refl _
  | succ n ih =>
    have hnext : blockStart input (k + 1 + n) = some q := by rwa [Nat.add_right_comm]
    cases hs : blockStart input (k + 1) with
    | none =>
      rw [blockStart_none hs] at hnext
      cases hnext
    | some p' =>
      have hle := ih hs hnext
      simp only [blockStart, hp] at hs
      split at hs
      · cases hs
      · split at hs
        · cases hs
        · cases hs
          omega

/-- No block starts behind the last. -/
theorem blockStart_le_last {input : List UInt8} {j k p q : Nat} {header : BlockHeader}
    (hp : blockStart input j = some p) (hq : blockStart input k = some q)
    (hh : headerAt input q = some header) (hlast : header.lastBlock = true) : p ≤ q := by
  rcases Nat.lt_or_ge k j with hlt | hge
  · obtain ⟨n, rfl⟩ := Nat.exists_eq_add_of_le hlt
    have hnone : blockStart input (k + 1) = none := by simp [blockStart, hq, hh, hlast]
    rw [blockStart_none hnone] at hp
    cases hp
  · obtain ⟨n, rfl⟩ := Nat.exists_eq_add_of_le hge
    exact blockStart_mono n hp hq

theorem blockStart_before_end {input : List UInt8} {k p e : Nat}
    (h : blockStart input k = some p) (he : BlocksEnd input e) : p + 3 ≤ e := by
  obtain ⟨j, q, header, hq, hh, hlast, rfl⟩ := he
  have hle := blockStart_le_last h hq hh hlast
  omega

end Decoding
