import StructuredZstd.Decoding.SequenceSection
import StructuredZstd.Encoding.LiteralRuns
import StructuredZstd.Encoding.LiteralsEmit
import StructuredZstd.Encoding.OffsetCodes
import StructuredZstd.Encoding.TableSelectionSpec

namespace Encoding

open Bits BitIo
open Decoding (CompressionModes ModeType OffsetHist SequencesHeader doOffsetHistory llMeta mlMeta)
open Fse.Encoder (lastCounted lastCounted_spec)

section Header

/-- The count of a section in one of three forms; the source panics past the last. -/
def encodeSeqnum (seqnum : Nat) (w : BitWriter) : Option BitWriter :=
  if 1 ≤ seqnum ∧ seqnum ≤ 127 then w.writeBits seqnum 8
  else if 128 ≤ seqnum ∧ seqnum ≤ 0x7FFF then do
    let upper := (seqnum >>> 8 ||| 0x80) % 2 ^ 8
    let lower := seqnum % 2 ^ 8
    let w ← w.writeBits upper 8
    w.writeBits lower 8
  else if 0x8000 ≤ seqnum ∧ seqnum ≤ 0xFFFF + 0x7F00 then do
    let encode := seqnum - 0x7F00
    let upper := (encode >>> 8) % 2 ^ 8
    let lower := encode % 2 ^ 8
    let w ← w.writeBits 255 8
    let w ← w.writeBits upper 8
    w.writeBits lower 8
  else none

def FseTableMode.toBits : FseTableMode → Nat
  | .predefined _ => 0
  | .rle _ => 1
  | .encoded _ => 2
  | .repeatLast _ => 3

def encodeFseTableModes (llMode mlMode ofMode : FseTableMode) : Nat :=
  llMode.toBits <<< 6 ||| ofMode.toBits <<< 4 ||| mlMode.toBits <<< 2

/-- What `encode_block_parts` writes in front of the tables. -/
def writeSequencesHeader (seqnum : Nat) (llMode mlMode ofMode : FseTableMode) (w : BitWriter) :
    Option BitWriter :=
  if seqnum = 0 then w.writeBits 0 8
  else do
    let w ← encodeSeqnum seqnum w
    w.writeBits (encodeFseTableModes llMode mlMode ofMode) 8

/-- What a reader takes a mode for. -/
def FseTableMode.modeType : FseTableMode → ModeType
  | .predefined _ => .predefined
  | .rle _ => .rle
  | .encoded _ => .fseCompressed
  | .repeatLast _ => .repeat

theorem FseTableMode.toBits_lt (mode : FseTableMode) : mode.toBits < 4 := by
  cases mode <;> simp [toBits]

theorem FseTableMode.decodeMode_toBits (mode : FseTableMode) :
    CompressionModes.decodeMode mode.toBits = mode.modeType := by
  cases mode <;> rfl

/-- Three fields of two bits are read back. -/
theorem mode_fields : ∀ ll < 4, ∀ off < 4, ∀ ml < 4,
    (ll <<< 6 ||| off <<< 4 ||| ml <<< 2) < 2 ^ 8 ∧
      (ll <<< 6 ||| off <<< 4 ||| ml <<< 2) >>> 6 = ll ∧
      ((ll <<< 6 ||| off <<< 4 ||| ml <<< 2) >>> 4) &&& 0x3 = off ∧
      ((ll <<< 6 ||| off <<< 4 ||| ml <<< 2) >>> 2) &&& 0x3 = ml := by
  decide

theorem encodeFseTableModes_lt (llMode mlMode ofMode : FseTableMode) :
    encodeFseTableModes llMode mlMode ofMode < 2 ^ 8 :=
  (mode_fields _ llMode.toBits_lt _ ofMode.toBits_lt _ mlMode.toBits_lt).1

theorem modes_read (llMode mlMode ofMode : FseTableMode) :
    (CompressionModes.mk (encodeFseTableModes llMode mlMode ofMode)).llMode = llMode.modeType ∧
      (CompressionModes.mk (encodeFseTableModes llMode mlMode ofMode)).mlMode = mlMode.modeType ∧
      (CompressionModes.mk (encodeFseTableModes llMode mlMode ofMode)).ofMode =
        ofMode.modeType := by
  obtain ⟨-, hll, hoff, hml⟩ :=
    mode_fields _ llMode.toBits_lt _ ofMode.toBits_lt _ mlMode.toBits_lt
  simp only [CompressionModes.llMode, CompressionModes.mlMode, CompressionModes.ofMode,
    encodeFseTableModes, hll, hoff, hml, FseTableMode.decodeMode_toBits, and_self]

/-- The bytes of a header. -/
def sequencesHeader (seqnum modes : Nat) : List UInt8 :=
  if seqnum = 0 then [0]
  else if seqnum ≤ 127 then [UInt8.ofNat seqnum, UInt8.ofNat modes]
  else if seqnum ≤ 0x7FFF then
    [UInt8.ofNat (seqnum / 256 + 128), UInt8.ofNat (seqnum % 256), UInt8.ofNat modes]
  else [255, UInt8.ofNat ((seqnum - 0x7F00) / 256), UInt8.ofNat ((seqnum - 0x7F00) % 256),
    UInt8.ofNat modes]

variable {w : BitWriter} {bytes : List UInt8} {seqnum modes : Nat}

/-- A byte written behind whole bytes. -/
theorem write_byte (hw : w.Full bytes) {v : Nat} (hv : v < 2 ^ 8) :
    ∃ w', w.writeBits v 8 = some w' ∧ w'.Full (bytes ++ [UInt8.ofNat v]) := by
  refine full_fields (k := 1) hw (.field w hv (by decide)) rfl ?_
  simp [Stack.push_value]
  exact hv

theorem encodeSeqnum_short (hw : w.Full bytes) (hpos : seqnum ≠ 0) (hn : seqnum ≤ 127) :
    ∃ w', encodeSeqnum seqnum w = some w' ∧ w'.Full (bytes ++ [UInt8.ofNat seqnum]) := by
  rw [encodeSeqnum, if_pos ⟨Nat.pos_of_ne_zero hpos, hn⟩]
  exact write_byte hw (by omega)

theorem encodeSeqnum_middle (hw : w.Full bytes) (hlow : 128 ≤ seqnum) (hn : seqnum ≤ 0x7FFF) :
    ∃ w', encodeSeqnum seqnum w = some w' ∧ w'.Full (bytes ++
      [UInt8.ofNat (seqnum / 256 + 128), UInt8.ofNat (seqnum % 256)]) := by
  have hupper : (seqnum >>> 8 ||| 0x80) % 2 ^ 8 = seqnum / 256 + 128 := by
    have hor := lor_shiftLeft 1 (show seqnum / 256 < 2 ^ 7 by omega)
    rw [Nat.shiftRight_eq_div_pow, show (0x80 : Nat) = 1 <<< 7 from rfl]
    rw [show (2 : Nat) ^ 8 = 256 from rfl, hor]
    omega
  obtain ⟨w₁, hw₁, hfull₁⟩ := write_byte hw (show seqnum / 256 + 128 < 2 ^ 8 by omega)
  obtain ⟨w₂, hw₂, hfull₂⟩ := write_byte hfull₁ (show seqnum % 2 ^ 8 < 2 ^ 8 by omega)
  refine ⟨w₂, ?_, by simpa using hfull₂⟩
  have h127 : ¬(1 ≤ seqnum ∧ seqnum ≤ 127) := by omega
  rw [encodeSeqnum, if_neg h127, if_pos ⟨hlow, hn⟩]
  simp only [hupper, hw₁, hw₂, Option.bind_eq_bind, Option.bind_some]

theorem encodeSeqnum_long (hw : w.Full bytes) (hlow : 0x8000 ≤ seqnum)
    (hn : seqnum ≤ 0xFFFF + 0x7F00) :
    ∃ w', encodeSeqnum seqnum w = some w' ∧ w'.Full (bytes ++
      [255, UInt8.ofNat ((seqnum - 0x7F00) / 256), UInt8.ofNat ((seqnum - 0x7F00) % 256)]) := by
  obtain ⟨encode, rfl⟩ : ∃ encode, seqnum = encode + 0x7F00 := ⟨seqnum - 0x7F00, by omega⟩
  have h127 : ¬(1 ≤ encode + 0x7F00 ∧ encode + 0x7F00 ≤ 127) := by omega
  have hmiddle : ¬(128 ≤ encode + 0x7F00 ∧ encode + 0x7F00 ≤ 0x7FFF) := by omega
  have hupper : (encode >>> 8) % 2 ^ 8 = encode / 256 := by
    rw [Nat.shiftRight_eq_div_pow]
    omega
  rw [Nat.add_sub_cancel]
  obtain ⟨w₁, hw₁, hfull₁⟩ := write_byte hw (show 255 < 2 ^ 8 by decide)
  obtain ⟨w₂, hw₂, hfull₂⟩ := write_byte hfull₁ (show encode / 256 < 2 ^ 8 by omega)
  obtain ⟨w₃, hw₃, hfull₃⟩ := write_byte hfull₂ (show encode % 2 ^ 8 < 2 ^ 8 by omega)
  refine ⟨w₃, ?_, by simpa using hfull₃⟩
  simp only [encodeSeqnum, if_neg h127, if_neg hmiddle, if_pos (And.intro hlow hn),
    Nat.add_sub_cancel, hupper, hw₁, hw₂, hw₃, Option.bind_eq_bind, Option.bind_some]

theorem writeSequencesHeader_spec (hw : w.Full bytes) (hn : seqnum ≤ 0xFFFF + 0x7F00)
    (llMode mlMode ofMode : FseTableMode) :
    ∃ w', writeSequencesHeader seqnum llMode mlMode ofMode w = some w' ∧
      w'.Full (bytes ++
        sequencesHeader seqnum (encodeFseTableModes llMode mlMode ofMode)) := by
  have hmodes := encodeFseTableModes_lt llMode mlMode ofMode
  by_cases h0 : seqnum = 0
  · rw [writeSequencesHeader, sequencesHeader, if_pos h0, if_pos h0]
    exact write_byte hw (by decide)
  · rw [writeSequencesHeader, sequencesHeader, if_neg h0, if_neg h0]
    have hthen : ∀ front, (∃ w', encodeSeqnum seqnum w = some w' ∧ w'.Full (bytes ++ front)) →
        ∃ w', (do
          let w ← encodeSeqnum seqnum w
          w.writeBits (encodeFseTableModes llMode mlMode ofMode) 8) = some w' ∧ w'.Full (bytes ++
            (front ++ [UInt8.ofNat (encodeFseTableModes llMode mlMode ofMode)])) := by
      rintro front ⟨w₁, hw₁, hfull₁⟩
      obtain ⟨w₂, hw₂, hfull₂⟩ := write_byte hfull₁ hmodes
      refine ⟨w₂, ?_, by rwa [← List.append_assoc]⟩
      simp only [hw₁, hw₂, Option.bind_eq_bind, Option.bind_some]
    by_cases h127 : seqnum ≤ 127
    · rw [if_pos h127]
      exact hthen _ (encodeSeqnum_short hw h0 h127)
    · rw [if_neg h127]
      by_cases hmiddle : seqnum ≤ 0x7FFF
      · rw [if_pos hmiddle]
        exact hthen _ (encodeSeqnum_middle hw (by omega) hmiddle)
      · rw [if_neg hmiddle]
        exact hthen _ (encodeSeqnum_long hw (by omega) hn)

section Read

variable (hmodes : modes < 2 ^ 8) (rest : List UInt8)

include hmodes

theorem parseFromHeader_short (h0 : seqnum ≠ 0) (hn : seqnum ≤ 127) :
    SequencesHeader.parseFromHeader ([UInt8.ofNat seqnum, UInt8.ofNat modes] ++ rest) =
      .ok (⟨seqnum, some ⟨modes⟩⟩, 2) := by
  have hb : (UInt8.ofNat seqnum).toNat = seqnum :=
    UInt8.toNat_ofNat_of_lt' (show seqnum < 256 by omega)
  have hm : (UInt8.ofNat modes).toNat = modes := UInt8.toNat_ofNat_of_lt' hmodes
  simp only [SequencesHeader.parseFromHeader, List.cons_append, List.nil_append, hb, hm,
    List.getD_cons_succ, List.getD_cons_zero, List.length_cons]
  rw [if_neg h0, if_pos hn, if_neg (by omega)]

/-- From 0x7F00 on the first byte is the one the long form starts with. -/
theorem parseFromHeader_middle (hlow : 128 ≤ seqnum) (hn : seqnum ≤ 0x7FFF) :
    SequencesHeader.parseFromHeader ([UInt8.ofNat (seqnum / 256 + 128),
        UInt8.ofNat (seqnum % 256), UInt8.ofNat modes] ++ rest) =
      .ok (⟨seqnum, some ⟨modes⟩⟩, 3) ↔ seqnum < 0x7F00 := by
  have hu : (UInt8.ofNat (seqnum / 256 + 128)).toNat = seqnum / 256 + 128 :=
    UInt8.toNat_ofNat_of_lt' (show seqnum / 256 + 128 < 256 by omega)
  have hl : (UInt8.ofNat (seqnum % 256)).toNat = seqnum % 256 :=
    UInt8.toNat_ofNat_of_lt' (Nat.mod_lt _ (by decide))
  have hm : (UInt8.ofNat modes).toNat = modes := UInt8.toNat_ofNat_of_lt' hmodes
  simp only [SequencesHeader.parseFromHeader, List.cons_append, List.nil_append, hu, hl, hm,
    List.getD_cons_succ, List.getD_cons_zero, List.length_cons]
  rw [if_neg (by omega), if_neg (by omega)]
  by_cases hshort : seqnum < 0x7F00
  · have hcount : (seqnum / 256 + 128 - 128) <<< 8 + seqnum % 256 = seqnum := by
      rw [Nat.shiftLeft_eq]
      omega
    rw [if_pos (by omega), if_neg (by omega), hcount, if_pos (by omega), if_neg (by omega)]
    simp [hshort]
  · rw [if_neg (by omega)]
    constructor
    · intro hparsed
      split at hparsed
      · cases hparsed
      · simp at hparsed
    · omega

/-- The two bytes are written high byte first and read low byte first. -/
theorem parseFromHeader_long (hlow : 0x8000 ≤ seqnum) (hn : seqnum ≤ 0xFFFF + 0x7F00) :
    SequencesHeader.parseFromHeader ([255, UInt8.ofNat ((seqnum - 0x7F00) / 256),
        UInt8.ofNat ((seqnum - 0x7F00) % 256), UInt8.ofNat modes] ++ rest) =
      .ok (⟨seqnum, some ⟨modes⟩⟩, 4) ↔ (seqnum - 0x7F00) / 256 = (seqnum - 0x7F00) % 256 := by
  have hu : (UInt8.ofNat ((seqnum - 0x7F00) / 256)).toNat = (seqnum - 0x7F00) / 256 :=
    UInt8.toNat_ofNat_of_lt' (show (seqnum - 0x7F00) / 256 < 256 by omega)
  have hl : (UInt8.ofNat ((seqnum - 0x7F00) % 256)).toNat = (seqnum - 0x7F00) % 256 :=
    UInt8.toNat_ofNat_of_lt' (Nat.mod_lt _ (by decide))
  have hm : (UInt8.ofNat modes).toNat = modes := UInt8.toNat_ofNat_of_lt' hmodes
  have h255 : (255 : UInt8).toNat = 255 := rfl
  simp only [SequencesHeader.parseFromHeader, List.cons_append, List.nil_append, hu, hl, hm,
    h255, List.getD_cons_succ, List.getD_cons_zero, List.length_cons]
  rw [if_neg (by decide), if_neg (by decide), if_neg (by decide), if_neg (by omega),
    Nat.shiftLeft_eq]
  simp only [Except.ok.injEq, Prod.mk.injEq, SequencesHeader.mk.injEq, and_true]
  omega

/-- The reader finds what was written, unless the second form has run into the first byte of the
third, or the third form's two bytes differ. -/
theorem parseFromHeader_sequences (hn : seqnum ≤ 0xFFFF + 0x7F00) :
    SequencesHeader.parseFromHeader (sequencesHeader seqnum modes ++ rest) =
        .ok (⟨seqnum, if seqnum = 0 then none else some ⟨modes⟩⟩,
          (sequencesHeader seqnum modes).length) ↔
      seqnum < 0x7F00 ∨
        (0x8000 ≤ seqnum ∧ (seqnum - 0x7F00) / 256 = (seqnum - 0x7F00) % 256) := by
  by_cases h0 : seqnum = 0
  · subst h0
    simp [sequencesHeader, SequencesHeader.parseFromHeader]
  · rw [if_neg h0, sequencesHeader, if_neg h0]
    by_cases h127 : seqnum ≤ 127
    · rw [if_pos h127]
      refine iff_of_true (parseFromHeader_short hmodes rest h0 h127) (.inl ?_)
      omega
    · rw [if_neg h127]
      by_cases hmiddle : seqnum ≤ 0x7FFF
      · rw [if_pos hmiddle]
        refine (parseFromHeader_middle hmodes rest (by omega) hmiddle).trans ?_
        omega
      · rw [if_neg hmiddle]
        refine (parseFromHeader_long hmodes rest (by omega) hn).trans ?_
        omega

end Read

/-- The header of a section is parsed to its count, its modes and its length exactly for the counts
below 0x7F00, and past 0x8000 for those whose long form has two equal bytes. -/
theorem sequences_header_read (hw : w.Full bytes) (hn : seqnum ≤ 0xFFFF + 0x7F00)
    (llMode mlMode ofMode : FseTableMode) :
    ∃ w' header modes, writeSequencesHeader seqnum llMode mlMode ofMode w = some w' ∧
      w'.Full (bytes ++ header) ∧ CompressionModes.llMode modes = llMode.modeType ∧
      modes.mlMode = mlMode.modeType ∧ modes.ofMode = ofMode.modeType ∧
      ∀ rest, SequencesHeader.parseFromHeader (header ++ rest) =
          .ok (⟨seqnum, if seqnum = 0 then none else some modes⟩, header.length) ↔
        seqnum < 0x7F00 ∨
          (0x8000 ≤ seqnum ∧ (seqnum - 0x7F00) / 256 = (seqnum - 0x7F00) % 256) := by
  obtain ⟨w', hw', hfull⟩ := writeSequencesHeader_spec hw hn llMode mlMode ofMode
  obtain ⟨hll, hml, hoff⟩ := modes_read llMode mlMode ofMode
  exact ⟨w', _, _, hw', hfull, hll, hml, hoff,
    fun rest => parseFromHeader_sequences (encodeFseTableModes_lt llMode mlMode ofMode) rest hn⟩

/-- A count in two bytes, a code repeated on two axes and a table on the third. -/
theorem sequences_header_read_repeats : ∃ w' header modes,
    writeSequencesHeader 300 (.rle 3) (.repeatLast .default) (.repeatLast (.rle 0))
      (.ofOutput [9]) = some w' ∧ w'.Full ([9] ++ header) ∧
      CompressionModes.llMode modes = .rle ∧ ∀ rest,
        SequencesHeader.parseFromHeader (header ++ rest) =
          .ok (⟨300, some modes⟩, header.length) := by
  obtain ⟨w', header, modes, hw', hfull, hll, -, -, hread⟩ :=
    sequences_header_read (BitWriter.full_ofOutput [9]) (show 300 ≤ 0xFFFF + 0x7F00 by decide)
      (.rle 3) (.repeatLast .default) (.repeatLast (.rle 0))
  refine ⟨w', header, modes, hw', hfull, hll, ?_⟩
  intro rest
  exact (hread rest).mpr (.inl (by decide))

end Header

section Codes

def llCode : List Nat :=
  [0, 1, 2, 3, 4, 5, 6, 7, 8, 9, 10, 11, 12, 13, 14, 15, 16, 16, 17, 17, 18, 18, 19, 19, 20, 20,
    20, 20, 21, 21, 21, 21, 22, 22, 22, 22, 22, 22, 22, 22, 23, 23, 23, 23, 23, 23, 23, 23, 24, 24,
    24, 24, 24, 24, 24, 24, 24, 24, 24, 24, 24, 24, 24, 24]

def llDeltaCode : Nat := 19

def llExtraBits : List Nat :=
  [0, 0, 0, 0, 0, 0, 0, 0, 0, 0, 0, 0, 0, 0, 0, 0, 1, 1, 1, 1, 2, 2, 3, 3, 4, 6, 7, 8, 9, 10, 11,
    12, 13, 14, 15, 16]

def mlCode : List Nat :=
  [0, 1, 2, 3, 4, 5, 6, 7, 8, 9, 10, 11, 12, 13, 14, 15, 16, 17, 18, 19, 20, 21, 22, 23, 24, 25,
    26, 27, 28, 29, 30, 31, 32, 32, 33, 33, 34, 34, 35, 35, 36, 36, 36, 36, 37, 37, 37, 37, 38, 38,
    38, 38, 38, 38, 38, 38, 39, 39, 39, 39, 39, 39, 39, 39, 40, 40, 40, 40, 40, 40, 40, 40, 40, 40,
    40, 40, 40, 40, 40, 40, 41, 41, 41, 41, 41, 41, 41, 41, 41, 41, 41, 41, 41, 41, 41, 41, 42, 42,
    42, 42, 42, 42, 42, 42, 42, 42, 42, 42, 42, 42, 42, 42, 42, 42, 42, 42, 42, 42, 42, 42, 42, 42,
    42, 42, 42, 42, 42, 42]

def mlDeltaCode : Nat := 36

def mlExtraBits : List Nat :=
  [0, 0, 0, 0, 0, 0, 0, 0, 0, 0, 0, 0, 0, 0, 0, 0, 0, 0, 0, 0, 0, 0, 0, 0, 0, 0, 0, 0, 0, 0, 0, 0,
    1, 1, 1, 1, 2, 2, 3, 3, 4, 4, 5, 7, 8, 9, 10, 11, 12, 13, 14, 15, 16]

/-- A short length's code in the low byte and its extra-bit width in the high one. -/
def fuseCodeBits (codes bits : List Nat) : List Nat :=
  codes.map fun code => code ||| bits.getD code 0 <<< 8

def llCodeBits : List Nat := fuseCodeBits llCode llExtraBits

def mlCodeBits : List Nat := fuseCodeBits mlCode mlExtraBits

def lowBits (value bits : Nat) : Nat := value &&& (1 <<< bits - 1)

/-- The code, the extra bits and their number, out of a table below `short` and from the high bit
above; the source panics from 2 ^ 17 on. -/
def encodeLength (fused : List Nat) (short deltaCode value : Nat) : Option (Nat × Nat × Nat) :=
  if value < short then
    let fused := fused.getD value 0
    some (fused % 2 ^ 8, lowBits value (fused >>> 8), fused >>> 8)
  else if value < 131072 then
    let log := Nat.log2 value
    some (log + deltaCode, lowBits value log, log)
  else none

def encodeLiteralLength (len : Nat) : Option (Nat × Nat × Nat) :=
  encodeLength llCodeBits 64 llDeltaCode len

/-- Below three the length wraps and the source panics. -/
def encodeMatchLen (len : Nat) : Option (Nat × Nat × Nat) :=
  if len < 3 then none else encodeLength mlCodeBits 128 mlDeltaCode (len - 3)

/-- The source panics at zero. -/
def encodeOffset (len : Nat) : Option (Nat × Nat × Nat) :=
  if len = 0 then none
  else some (Nat.log2 len, lowBits len (Nat.log2 len), Nat.log2 len)

namespace SequenceCode

def pack (llCode mlCode ofCode llBits mlBits : Nat) : Nat :=
  llCode ||| mlCode <<< 6 ||| ofCode <<< 12 ||| llBits <<< 17 ||| mlBits <<< 22

def llCode (code : Nat) : Nat := code &&& 63

def mlCode (code : Nat) : Nat := (code >>> 6) &&& 63

def ofCode (code : Nat) : Nat := (code >>> 12) &&& 31

def llBits (code : Nat) : Nat := (code >>> 17) &&& 31

def mlBits (code : Nat) : Nat := (code >>> 22) &&& 31

/-- The five fields of a word. -/
theorem unpack {l m o lb mb : Nat} (hl : l < 64) (hm : m < 64) (ho : o < 32) (hlb : lb < 32)
    (hmb : mb < 32) : llCode (pack l m o lb mb) = l ∧ mlCode (pack l m o lb mb) = m ∧
      ofCode (pack l m o lb mb) = o ∧ llBits (pack l m o lb mb) = lb ∧
      mlBits (pack l m o lb mb) = mb := by
  have h1 : l ||| m <<< 6 = l + m * 2 ^ 6 := lor_shiftLeft m (by omega)
  have h2 : (l + m * 2 ^ 6) ||| o <<< 12 = l + m * 2 ^ 6 + o * 2 ^ 12 := lor_shiftLeft o (by omega)
  have h3 : (l + m * 2 ^ 6 + o * 2 ^ 12) ||| lb <<< 17 =
      l + m * 2 ^ 6 + o * 2 ^ 12 + lb * 2 ^ 17 := lor_shiftLeft lb (by omega)
  have h4 : (l + m * 2 ^ 6 + o * 2 ^ 12 + lb * 2 ^ 17) ||| mb <<< 22 =
      l + m * 2 ^ 6 + o * 2 ^ 12 + lb * 2 ^ 17 + mb * 2 ^ 22 := lor_shiftLeft mb (by omega)
  have h63 : ∀ x : Nat, x &&& 63 = x % 64 := fun x => Nat.and_two_pow_sub_one_eq_mod x 6
  have h31 : ∀ x : Nat, x &&& 31 = x % 32 := fun x => Nat.and_two_pow_sub_one_eq_mod x 5
  simp only [llCode, mlCode, ofCode, llBits, mlBits, pack, h1, h2, h3, h4, h63, h31,
    Nat.shiftRight_eq_div_pow]
  omega

end SequenceCode

/-- A value as a decoder puts it together: the base of its code and the bits behind it. -/
structure CodedBy (packed : List Nat) (value : Nat) (coded : Nat × Nat × Nat) : Prop where
  inside : coded.1 < packed.length
  width : packed.getD coded.1 0 >>> 24 = coded.2.2
  value_eq : (packed.getD coded.1 0 &&& 0xFFFFFF) + coded.2.1 = value
  extra_lt : coded.2.1 < 2 ^ coded.2.2
  narrow : coded.2.2 ≤ 16

theorem codedBy_iff {packed : List Nat} {value : Nat} {coded : Nat × Nat × Nat} :
    (coded.1 < packed.length ∧ packed.getD coded.1 0 >>> 24 = coded.2.2 ∧
      (packed.getD coded.1 0 &&& 0xFFFFFF) + coded.2.1 = value ∧
      coded.2.1 < 2 ^ coded.2.2 ∧ coded.2.2 ≤ 16) ↔ CodedBy packed value coded := by
  constructor
  · rintro ⟨hinside, hwidth, hvalue, hextra, hnarrow⟩
    exact ⟨hinside, hwidth, hvalue, hextra, hnarrow⟩
  · intro h
    exact ⟨h.inside, h.width, h.value_eq, h.extra_lt, h.narrow⟩

instance (packed : List Nat) (value : Nat) (coded : Nat × Nat × Nat) :
    Decidable (CodedBy packed value coded) :=
  decidable_of_iff _ codedBy_iff

theorem lowBits_eq (value bits : Nat) : lowBits value bits = value % 2 ^ bits := by
  rw [lowBits, Nat.one_shiftLeft, Nat.and_two_pow_sub_one_eq_mod]

theorem lowBits_lt (value bits : Nat) : lowBits value bits < 2 ^ bits := by
  rw [lowBits_eq]
  exact Nat.mod_lt _ (Nat.two_pow_pos _)

/-- A value is its high bit and the bits below it. -/
theorem high_bit_rest {value : Nat} (hpos : value ≠ 0) :
    2 ^ Nat.log2 value + lowBits value (Nat.log2 value) = value := by
  have hself : 2 ^ Nat.log2 value ≤ value := Nat.log2_self_le hpos
  have hlt : value < 2 ^ (Nat.log2 value + 1) := Nat.lt_log2_self
  rw [Nat.pow_succ] at hlt
  rw [lowBits_eq, Nat.mod_eq_sub_mod hself, Nat.mod_eq_of_lt (by omega)]
  exact Nat.add_sub_cancel' hself

/-- A long length's high bit picks its code, and the rest is behind it. -/
theorem long_coded {packed : List Nat} (least delta base : Nat) {value : Nat} (hlow : 2 ^ least ≤ value)
    (hvalue : value < 131072)
    (hpacked : ∀ log, least ≤ log → log ≤ 16 → log + delta < packed.length ∧
      packed.getD (log + delta) 0 >>> 24 = log ∧
      packed.getD (log + delta) 0 &&& 0xFFFFFF = 2 ^ log + base) :
    CodedBy packed (value + base)
      (Nat.log2 value + delta, lowBits value (Nat.log2 value), Nat.log2 value) := by
  have hpos : value ≠ 0 := by
    have := Nat.two_pow_pos least
    omega
  have hge : least ≤ Nat.log2 value := (Nat.le_log2 hpos).mpr hlow
  have hle : Nat.log2 value < 17 := (Nat.log2_lt hpos).mpr hvalue
  obtain ⟨hin, hwidth, hbase⟩ := hpacked (Nat.log2 value) hge (by omega)
  have hrest := high_bit_rest hpos
  refine ⟨hin, hwidth, ?_, lowBits_lt value _, by simp only; omega⟩
  simp only [hbase]
  omega

theorem encodeLiteralLength_coded {len : Nat} (hlen : len < 131072) :
    ∃ coded, encodeLiteralLength len = some coded ∧ CodedBy llMeta len coded := by
  by_cases hshort : len < 64
  · have hall : ∀ len < 64, CodedBy llMeta len (llCodeBits.getD len 0 % 2 ^ 8,
        lowBits len (llCodeBits.getD len 0 >>> 8), llCodeBits.getD len 0 >>> 8) := by
      decide +kernel
    refine ⟨_, ?_, hall len hshort⟩
    rw [encodeLiteralLength, encodeLength, if_pos hshort]
  · refine ⟨_, ?_, long_coded 6 llDeltaCode 0 (by omega) hlen ?_⟩
    · rw [encodeLiteralLength, encodeLength, if_neg hshort, if_pos hlen]
    · intro log hlow hhigh
      interval_cases log <;> decide +kernel

theorem encodeMatchLen_coded {len : Nat} (hlow : 3 ≤ len) (hlen : len < 131075) :
    ∃ coded, encodeMatchLen len = some coded ∧ CodedBy mlMeta len coded := by
  obtain ⟨value, rfl⟩ : ∃ value, len = value + 3 := ⟨len - 3, by omega⟩
  have hmin : ¬value + 3 < 3 := by omega
  by_cases hshort : value < 128
  · have hall : ∀ value < 128, CodedBy mlMeta (value + 3) (mlCodeBits.getD value 0 % 2 ^ 8,
        lowBits value (mlCodeBits.getD value 0 >>> 8), mlCodeBits.getD value 0 >>> 8) := by
      decide +kernel
    refine ⟨_, ?_, hall value hshort⟩
    rw [encodeMatchLen, if_neg hmin, Nat.add_sub_cancel, encodeLength, if_pos hshort]
  · refine ⟨_, ?_, long_coded 7 mlDeltaCode 3 (by omega) (by omega) ?_⟩
    · rw [encodeMatchLen, if_neg hmin, Nat.add_sub_cancel, encodeLength, if_neg hshort,
        if_pos (by omega)]
    · intro log hlow hhigh
      interval_cases log <;> decide +kernel

/-- An offset code is the high bit, and its extra bits are the rest. -/
theorem encodeOffset_coded {offBase : Nat} (hpos : 0 < offBase) (hlt : offBase < 2 ^ 32) :
    ∃ code extra, encodeOffset offBase = some (code, extra, code) ∧ code ≤ 31 ∧
      extra < 2 ^ code ∧ 2 ^ code + extra = offBase := by
  have hne : offBase ≠ 0 := Nat.pos_iff_ne_zero.mp hpos
  have hle : Nat.log2 offBase < 32 := (Nat.log2_lt hne).mpr hlt
  exact ⟨_, _, if_neg hne, by omega, lowBits_lt offBase _, high_bit_rest hne⟩

end Codes

/-- The three histograms. -/
structure SequenceCodeCounts where
  ll : List Nat
  ml : List Nat
  off : List Nat
deriving Repr, DecidableEq

/-- One more occurrence of a code. -/
def bump (counts : List Nat) (code : Nat) : List Nat :=
  counts.set code (counts.getD code 0 + 1)

/-- What the pass over the sequences leaves: the sequences with their offset codes, the packed codes,
the histograms and the history. -/
structure FilledCodes where
  sequences : List RawSequence
  codes : List Nat
  counts : SequenceCodeCounts
  offsetHist : OffsetHist
deriving Repr, DecidableEq

/-- The loop of `fill_and_count`. -/
def fillLoop (offsetsCoded : Bool) :
    List RawSequence → OffsetHist → SequenceCodeCounts → Option FilledCodes
  | [], hist, counts => some ⟨[], [], counts, hist⟩
  | seq :: rest, hist, counts => do
    let (offBase, hist) :=
      if offsetsCoded then (seq.offBase, hist)
      else encodeOffsetWithHistory seq.offBase seq.ll hist
    let (llCode, _, llBits) ← encodeLiteralLength seq.ll
    let (mlCode, _, mlBits) ← encodeMatchLen seq.ml
    let (ofCode, _, _) ← encodeOffset offBase
    let counts : SequenceCodeCounts :=
      ⟨bump counts.ll llCode, bump counts.ml mlCode, bump counts.off ofCode⟩
    let filled ← fillLoop offsetsCoded rest hist counts
    some { filled with
      sequences := { seq with offBase := offBase } :: filled.sequences
      codes := SequenceCode.pack llCode mlCode ofCode llBits mlBits :: filled.codes }

/-- The highest code that is counted, zero where none is. -/
def highestUsedCode (maxCode : Nat) (counts : List Nat) : Nat :=
  lastCounted (counts.take (maxCode + 1))

def shortSliceSequences : Nat := 16

/-- The highest code of each stream: out of the codes of a short slice, else out of the
histograms. -/
def highestCodes (codes : List Nat) (counts : SequenceCodeCounts) : Nat × Nat × Nat :=
  if codes.length ≤ shortSliceSequences then
    ((codes.map SequenceCode.llCode).foldl max 0, (codes.map SequenceCode.mlCode).foldl max 0,
      (codes.map SequenceCode.ofCode).foldl max 0)
  else
    (highestUsedCode Decoding.maxLiteralLengthCode counts.ll,
      highestUsedCode Decoding.maxMatchLengthCode counts.ml,
      highestUsedCode Decoding.maxOffsetCode counts.off)

/-- `fill_and_count` on cleared histograms. -/
def fillAndCount (offsetsCoded : Bool) (sequences : List RawSequence) (offsetHist : OffsetHist) :
    Option (FilledCodes × Nat × Nat × Nat) := do
  let cleared := List.replicate sequenceCodeSlots 0
  let filled ← fillLoop offsetsCoded sequences offsetHist ⟨cleared, cleared, cleared⟩
  some (filled, highestCodes filled.codes filled.counts)

section Fill

/-- A histogram and the codes it counts. -/
structure Tally (counts codes : List Nat) : Prop where
  slots : counts.length = sequenceCodeSlots
  sum_eq : counts.sum = codes.length
  count : ∀ s, counts.getD s 0 = codes.count s

theorem tally_start : Tally (List.replicate sequenceCodeSlots 0) [] where
  slots := List.length_replicate
  sum_eq := by simp
  count := by
    intro s
    rw [List.getD_eq_getElem?_getD, List.getElem?_replicate]
    split <;> rfl

variable {counts codes codes' : List Nat}

theorem Tally.bump (h : Tally counts codes) {code : Nat} (hcode : code < sequenceCodeSlots) :
    Tally (bump counts code) (code :: codes) where
  slots := by rw [Encoding.bump, List.length_set, h.slots]
  sum_eq := by
    have hin : code < counts.length := by rwa [h.slots]
    have hsplit : counts.sum = (counts.take code).sum + counts[code] +
        (counts.drop (code + 1)).sum := by
      conv_lhs => rw [← List.take_append_drop code counts, List.sum_append,
        List.drop_eq_getElem_cons hin, List.sum_cons]
      omega
    rw [List.length_cons, ← h.sum_eq, Encoding.bump, List.sum_set, if_pos hin,
      List.getD_eq_getElem _ _ hin, hsplit]
    omega
  count := by
    intro s
    have hin : code < counts.length := by rwa [h.slots]
    rw [Encoding.bump, List.getD_eq_getElem?_getD, List.getElem?_set, List.count_cons]
    by_cases hs : code = s
    · subst hs
      rw [if_pos rfl, if_pos hin, Option.getD_some, h.count]
      simp
    · rw [if_neg hs, ← List.getD_eq_getElem?_getD, h.count]
      simp [hs]

theorem Tally.perm (h : Tally counts codes) (hperm : codes.Perm codes') : Tally counts codes' where
  slots := h.slots
  sum_eq := h.sum_eq.trans hperm.length_eq
  count s := (h.count s).trans (hperm.count_eq s)

/-- The histogram a table is chosen from. -/
theorem Tally.histogramOf (h : Tally counts codes) {stream : SequenceStream} {last : Nat}
    (hlast : last ∈ codes) (hle : ∀ c ∈ codes, c ≤ last) (hcode : last ≤ stream.maxCode)
    (hlen : codes.length ≤ 2 ^ 31) : HistogramOf stream counts codes.length last where
  slots := h.slots
  sum_eq := h.sum_eq
  pos := List.length_pos_of_mem hlast
  le := hlen
  last := by
    rw [h.count]
    exact List.count_pos_iff.mpr hlast
  above := by
    intro s hs
    rw [h.count, List.count_eq_zero]
    intro hmem
    exact absurd (hle s hmem) (Nat.not_le.mpr hs)
  code := hcode

/-- Both ways to the highest code find it. -/
theorem foldl_max_mem (codes : List Nat) (start : Nat) :
    codes.foldl max start ∈ start :: codes ∧ start ≤ codes.foldl max start ∧
      ∀ c ∈ codes, c ≤ codes.foldl max start := by
  induction codes generalizing start with
  | nil => simp
  | cons c codes ih =>
    obtain ⟨hmem, hstart, hall⟩ := ih (max start c)
    refine ⟨?_, (Nat.le_max_left _ _).trans hstart, ?_⟩
    · rw [List.foldl_cons]
      rcases List.mem_cons.mp hmem with heq | htail
      · rw [heq]
        rcases Nat.le_total start c with hle | hle
        · rw [Nat.max_eq_right hle]
          simp
        · rw [Nat.max_eq_left hle]
          simp
      · exact List.mem_cons_of_mem _ (List.mem_cons_of_mem _ htail)
    · intro x hx
      rcases List.mem_cons.mp hx with rfl | hx
      · exact (Nat.le_max_right _ _).trans hstart
      · exact hall x hx

theorem foldl_max_highest (hne : codes ≠ []) :
    codes.foldl max 0 ∈ codes ∧ ∀ c ∈ codes, c ≤ codes.foldl max 0 := by
  obtain ⟨hmem, -, hall⟩ := foldl_max_mem codes 0
  refine ⟨?_, hall⟩
  rcases List.mem_cons.mp hmem with h0 | hmem
  · obtain ⟨c, rest, rfl⟩ := List.exists_cons_of_ne_nil hne
    have hc := hall c List.mem_cons_self
    rw [h0] at hc ⊢
    rw [Nat.le_zero.mp hc]
    exact List.mem_cons_self
  · exact hmem

theorem Tally.highestUsedCode (h : Tally counts codes) (hne : codes ≠ []) {maxCode : Nat}
    (hmax : ∀ c ∈ codes, c ≤ maxCode) :
    highestUsedCode maxCode counts ∈ codes ∧
      ∀ c ∈ codes, c ≤ highestUsedCode maxCode counts := by
  have htake : ∀ s, (counts.take (maxCode + 1)).getD s 0 = codes.count s := by
    intro s
    rw [← h.count s, List.getD_eq_getElem?_getD, List.getD_eq_getElem?_getD]
    by_cases hs : s < maxCode + 1
    · rw [List.getElem?_take_of_lt hs]
    · have hzero : codes.count s = 0 := by
        rw [List.count_eq_zero]
        intro hmem
        have := hmax s hmem
        omega
      rw [List.getElem?_take_eq_none (Nat.le_of_not_lt hs), ← List.getD_eq_getElem?_getD,
        h.count, hzero]
      rfl
  have hpos : 0 < (counts.take (maxCode + 1)).sum := by
    obtain ⟨c, rest, rfl⟩ := List.exists_cons_of_ne_nil hne
    have hc : 0 < (counts.take (maxCode + 1)).getD c 0 := by
      rw [htake, List.count_pos_iff]
      exact List.mem_cons_self
    by_contra hsum
    have hin : c < (counts.take (maxCode + 1)).length := by
      by_contra hout
      rw [List.getD_eq_default _ _ (Nat.le_of_not_lt hout)] at hc
      cases hc
    rw [List.getD_eq_getElem _ _ hin] at hc
    have hle := List.le_sum_of_mem (List.getElem_mem hin)
    omega
  obtain ⟨-, hcounted, habove⟩ := lastCounted_spec hpos
  rw [htake, List.count_pos_iff] at hcounted
  refine ⟨hcounted, ?_⟩
  intro c hc
  by_contra hgt
  have hzero := habove c (Nat.lt_of_not_le hgt)
  rw [htake, List.count_eq_zero] at hzero
  exact hzero hc

/-- The code and the low bits of a sequence are what a decoder puts it together from. -/
structure StandsFor (seq : RawSequence) (code : Nat) : Prop where
  ll : CodedBy llMeta seq.ll (SequenceCode.llCode code,
    lowBits seq.ll (SequenceCode.llBits code), SequenceCode.llBits code)
  ml : CodedBy mlMeta seq.ml (SequenceCode.mlCode code,
    lowBits (seq.ml - 3) (SequenceCode.mlBits code), SequenceCode.mlBits code)
  off_le : SequenceCode.ofCode code ≤ Decoding.maxOffsetCode
  off : 2 ^ SequenceCode.ofCode code + lowBits seq.offBase (SequenceCode.ofCode code) =
    seq.offBase

/-- The lengths a code reaches. -/
structure RawSequence.Encodable (seq : RawSequence) : Prop where
  ll : seq.ll < 131072
  ml_ge : 3 ≤ seq.ml
  ml_lt : seq.ml < 131075

/-- A sequence that is coded is put together again. -/
theorem coded_standsFor {seq : RawSequence} (h : seq.Encodable) (hpos : 0 < seq.offBase)
    (hlt : seq.offBase < 2 ^ 32) :
    ∃ l lx lb m mx mb o ox, encodeLiteralLength seq.ll = some (l, lx, lb) ∧
      encodeMatchLen seq.ml = some (m, mx, mb) ∧ encodeOffset seq.offBase = some (o, ox, o) ∧
      StandsFor seq (SequenceCode.pack l m o lb mb) ∧
      SequenceCode.llCode (SequenceCode.pack l m o lb mb) = l ∧
      SequenceCode.mlCode (SequenceCode.pack l m o lb mb) = m ∧
      SequenceCode.ofCode (SequenceCode.pack l m o lb mb) = o ∧ l ≤ 35 ∧ m ≤ 52 ∧ o ≤ 31 := by
  obtain ⟨⟨l, lx, lb⟩, hll, hl⟩ := encodeLiteralLength_coded h.ll
  obtain ⟨⟨m, mx, mb⟩, hml, hm⟩ := encodeMatchLen_coded h.ml_ge h.ml_lt
  obtain ⟨o, ox, hoff, ho, -, hvalue⟩ := encodeOffset_coded hpos hlt
  have hlx : lx = lowBits seq.ll lb := by
    simp only [encodeLiteralLength, encodeLength] at hll
    split_ifs at hll <;> cases hll <;> rfl
  have hmx : mx = lowBits (seq.ml - 3) mb := by
    simp only [encodeMatchLen, encodeLength] at hml
    split_ifs at hml <;> cases hml <;> rfl
  have hox : ox = lowBits seq.offBase o := by
    simp only [encodeOffset] at hoff
    split_ifs at hoff
    cases hoff
    rfl
  have hl36 : l < 36 := hl.inside
  have hm53 : m < 53 := hm.inside
  have hlb : lb ≤ 16 := hl.narrow
  have hmb : mb ≤ 16 := hm.narrow
  obtain ⟨hul, hum, huo, hulb, humb⟩ := SequenceCode.unpack (show l < 64 by omega)
    (show m < 64 by omega) (show o < 32 by omega) (show lb < 32 by omega) (show mb < 32 by omega)
  refine ⟨l, lx, lb, m, mx, mb, o, ox, hll, hml, hoff, ⟨?_, ?_, ?_, ?_⟩, hul, hum, huo, by omega,
    by omega, ho⟩
  · rw [hul, hulb, ← hlx]
    exact hl
  · rw [hum, humb, ← hmx]
    exact hm
  · rw [huo]
    exact ho
  · rw [huo, ← hox]
    exact hvalue

/-- The sequences a decoder resolves, and its history after them. -/
def resolveAll : List RawSequence → OffsetHist → List RawSequence × OffsetHist
  | [], hist => ([], hist)
  | seq :: rest, hist =>
    let (offset, hist) := doOffsetHistory seq.offBase seq.ll hist
    let (resolved, hist) := resolveAll rest hist
    ({ seq with offBase := offset } :: resolved, hist)

/-- The offsets the pass may meet: codes already, or raw ones that can be coded. -/
def OffsetsOk (offsetsCoded : Bool) (sequences : List RawSequence) (hist : OffsetHist) : Prop :=
  if offsetsCoded then ∀ seq ∈ sequences, 0 < seq.offBase ∧ seq.offBase < 2 ^ 32
  else ValidHist hist ∧ ∀ seq ∈ sequences, Codable seq.offBase

/-- What became of the offsets: left as they are, or coded so that a decoder resolves them and stands
at the same history. -/
def OffsetsKept (offsetsCoded : Bool) (sequences : List RawSequence) (hist : OffsetHist)
    (filled : FilledCodes) : Prop :=
  if offsetsCoded then filled.sequences = sequences ∧ filled.offsetHist = hist
  else resolveAll filled.sequences hist = (sequences, filled.offsetHist)

/-- One turn of the loop leaves an offset that can be coded, and what the rest keeps, the whole
keeps. -/
theorem OffsetsOk.step {offsetsCoded : Bool} {seq : RawSequence} {rest : List RawSequence}
    {hist : OffsetHist} (h : OffsetsOk offsetsCoded (seq :: rest) hist) :
    ∃ offBase hist', (if offsetsCoded then (seq.offBase, hist)
        else encodeOffsetWithHistory seq.offBase seq.ll hist) = (offBase, hist') ∧
      0 < offBase ∧ offBase < 2 ^ 32 ∧ OffsetsOk offsetsCoded rest hist' ∧
      ∀ filled codes, OffsetsKept offsetsCoded rest hist' filled →
        OffsetsKept offsetsCoded (seq :: rest) hist { filled with
          sequences := { seq with offBase := offBase } :: filled.sequences
          codes := codes } := by
  cases offsetsCoded with
  | true =>
    simp only [OffsetsOk, if_true] at h
    have hfirst := h seq List.mem_cons_self
    refine ⟨_, _, rfl, hfirst.1, hfirst.2, ?_, ?_⟩
    · exact fun s hs => h s (List.mem_cons_of_mem _ hs)
    · intro filled codes hfilled
      obtain ⟨hsame, hhist⟩ := hfilled
      exact ⟨congrArg (seq :: ·) hsame, hhist⟩
  | false =>
    obtain ⟨hvalid, hcodable⟩ := h
    have hfirst := hcodable seq List.mem_cons_self
    have hok := encodeOffsetWithHistory_ok hvalid hfirst seq.ll
    have hfits : (encodeOffsetWithHistory seq.offBase seq.ll hist).1 < 2 ^ 32 := by
      have hfit := hfirst.2
      have hown := hok.own
      omega
    refine ⟨(encodeOffsetWithHistory seq.offBase seq.ll hist).1,
      (encodeOffsetWithHistory seq.offBase seq.ll hist).2, rfl, hok.pos, hfits,
      ⟨hok.valid, ?_⟩, ?_⟩
    · exact fun s hs => hcodable s (List.mem_cons_of_mem _ hs)
    · intro filled codes hfilled
      have hrest : resolveAll filled.sequences
          (encodeOffsetWithHistory seq.offBase seq.ll hist).2 = (rest, filled.offsetHist) :=
        hfilled
      change resolveAll _ hist = _
      simp only [resolveAll, hok.decoded, hrest]

/-- The loop codes every sequence and counts every code. -/
theorem fillLoop_spec {offsetsCoded : Bool} {sequences : List RawSequence} {hist : OffsetHist}
    {counts : SequenceCodeCounts} {lls mls offs : List Nat} (hl : Tally counts.ll lls)
    (hm : Tally counts.ml mls) (ho : Tally counts.off offs)
    (hseqs : ∀ seq ∈ sequences, seq.Encodable) (hoffs : OffsetsOk offsetsCoded sequences hist) :
    ∃ filled, fillLoop offsetsCoded sequences hist counts = some filled ∧
      List.Forall₂ StandsFor filled.sequences filled.codes ∧
      filled.sequences.length = sequences.length ∧
      OffsetsKept offsetsCoded sequences hist filled ∧
      Tally filled.counts.ll (filled.codes.map SequenceCode.llCode ++ lls) ∧
      Tally filled.counts.ml (filled.codes.map SequenceCode.mlCode ++ mls) ∧
      Tally filled.counts.off (filled.codes.map SequenceCode.ofCode ++ offs) ∧
      ∀ code ∈ filled.codes, SequenceCode.llCode code ≤ 35 ∧ SequenceCode.mlCode code ≤ 52 ∧
        SequenceCode.ofCode code ≤ 31 := by
  induction sequences generalizing hist counts lls mls offs with
  | nil =>
    refine ⟨⟨[], [], counts, hist⟩, rfl, .nil, rfl, ?_, hl, hm, ho, by simp⟩
    unfold OffsetsKept
    split
    · exact ⟨rfl, rfl⟩
    · rfl
  | cons seq rest ih =>
    have hrest : ∀ s ∈ rest, s.Encodable := fun s hs => hseqs s (List.mem_cons_of_mem _ hs)
    have hseq := hseqs seq List.mem_cons_self
    obtain ⟨offBase, hist', hstep, hpos, hlt, hok, hkept⟩ := hoffs.step
    obtain ⟨l, lx, lb, m, mx, mb, o, ox, hll, hml, hoff, hstands, hul, hum, huo, hl35, hm52, ho31⟩ :=
      @coded_standsFor { seq with offBase := offBase } ⟨hseq.ll, hseq.ml_ge, hseq.ml_lt⟩ hpos hlt
    obtain ⟨filled, hfill, hall, hlength, hkeptRest, hl', hm', ho', hcodes⟩ := @ih hist'
      ⟨bump counts.ll l, bump counts.ml m, bump counts.off o⟩ _ _ _
      (hl.bump (show l < sequenceCodeSlots by unfold sequenceCodeSlots; omega))
      (hm.bump (show m < sequenceCodeSlots by unfold sequenceCodeSlots; omega))
      (ho.bump (show o < sequenceCodeSlots by unfold sequenceCodeSlots; omega)) hrest hok
    refine ⟨{ filled with
      sequences := { seq with offBase := offBase } :: filled.sequences
      codes := SequenceCode.pack l m o lb mb :: filled.codes }, ?_, .cons hstands hall,
      congrArg Nat.succ hlength, hkept _ _ hkeptRest, ?_, ?_, ?_, ?_⟩
    · simp only [fillLoop, hstep, Option.bind_eq_bind]
      simp only at hll hml hoff
      simp only [hll, hml, hoff, Option.bind_some, hfill]
    · rw [List.map_cons, hul, List.cons_append]
      exact hl'.perm List.perm_middle
    · rw [List.map_cons, hum, List.cons_append]
      exact hm'.perm List.perm_middle
    · rw [List.map_cons, huo, List.cons_append]
      exact ho'.perm List.perm_middle
    · intro code hcode
      rcases List.mem_cons.mp hcode with rfl | hcode
      · rw [hul, hum, huo]
        exact ⟨hl35, hm52, ho31⟩
      · exact hcodes code hcode

/-- The highest code of each stream, whichever way it is found. -/
theorem highestCodes_spec {codes : List Nat} {counts : SequenceCodeCounts} (hne : codes ≠ [])
    (hl : Tally counts.ll (codes.map SequenceCode.llCode))
    (hm : Tally counts.ml (codes.map SequenceCode.mlCode))
    (ho : Tally counts.off (codes.map SequenceCode.ofCode))
    (hcodes : ∀ code ∈ codes, SequenceCode.llCode code ≤ 35 ∧ SequenceCode.mlCode code ≤ 52 ∧
      SequenceCode.ofCode code ≤ 31) :
    ∃ llMax mlMax ofMax, highestCodes codes counts = (llMax, mlMax, ofMax) ∧
      (llMax ∈ codes.map SequenceCode.llCode ∧
        ∀ c ∈ codes.map SequenceCode.llCode, c ≤ llMax) ∧
      (mlMax ∈ codes.map SequenceCode.mlCode ∧
        ∀ c ∈ codes.map SequenceCode.mlCode, c ≤ mlMax) ∧
      ofMax ∈ codes.map SequenceCode.ofCode ∧ ∀ c ∈ codes.map SequenceCode.ofCode, c ≤ ofMax := by
  have hne' : ∀ f : Nat → Nat, codes.map f ≠ [] := fun f => mt List.map_eq_nil_iff.mp hne
  unfold highestCodes
  split
  · exact ⟨_, _, _, rfl, foldl_max_highest (hne' _), foldl_max_highest (hne' _),
      foldl_max_highest (hne' _)⟩
  · exact ⟨_, _, _, rfl,
      hl.highestUsedCode (hne' _) (List.forall_mem_map.mpr fun c hc => (hcodes c hc).1),
      hm.highestUsedCode (hne' _) (List.forall_mem_map.mpr fun c hc => (hcodes c hc).2.1),
      ho.highestUsedCode (hne' _) (List.forall_mem_map.mpr fun c hc => (hcodes c hc).2.2)⟩

/-- The pass over the sequences of a block never panics on lengths a code reaches; every word it
packs puts its sequence together again, the offsets resolve to what they were, and the histograms
and highest codes are those a table is chosen from. -/
theorem fill_and_count_exact (offsetsCoded : Bool) {sequences : List RawSequence}
    {hist : OffsetHist} (hne : sequences ≠ []) (hlen : sequences.length ≤ 2 ^ 31)
    (hseqs : ∀ seq ∈ sequences, seq.Encodable) (hoffs : OffsetsOk offsetsCoded sequences hist) :
    ∃ filled llMax mlMax ofMax,
      fillAndCount offsetsCoded sequences hist = some (filled, llMax, mlMax, ofMax) ∧
      List.Forall₂ StandsFor filled.sequences filled.codes ∧
      OffsetsKept offsetsCoded sequences hist filled ∧
      HistogramOf .literalLength filled.counts.ll sequences.length llMax ∧
      HistogramOf .matchLength filled.counts.ml sequences.length mlMax ∧
      HistogramOf .offset filled.counts.off sequences.length ofMax := by
  obtain ⟨filled, hfill, hall, hlength, hkept, hl, hm, ho, hcodes⟩ :=
    @fillLoop_spec offsetsCoded sequences hist ⟨List.replicate sequenceCodeSlots 0,
      List.replicate sequenceCodeSlots 0, List.replicate sequenceCodeSlots 0⟩ [] [] [] tally_start
      tally_start tally_start hseqs hoffs
  rw [List.append_nil] at hl hm ho
  have hcount : filled.codes.length = sequences.length := hall.length_eq.symm.trans hlength
  have hne' : filled.codes ≠ [] := by
    intro hnil
    rw [hnil] at hcount
    exact hne (List.length_eq_zero_iff.mp hcount.symm)
  obtain ⟨llMax, mlMax, ofMax, hmaxima, hllMax, hmlMax, hofMax⟩ :=
    highestCodes_spec hne' hl hm ho hcodes
  have hhist : ∀ {f : Nat → Nat} {counts : List Nat} {stream : SequenceStream} {last : Nat},
      Tally counts (filled.codes.map f) → (∀ code ∈ filled.codes, f code ≤ stream.maxCode) →
      (last ∈ filled.codes.map f ∧ ∀ c ∈ filled.codes.map f, c ≤ last) →
      HistogramOf stream counts sequences.length last := by
    rintro f counts stream last htally hmost ⟨hlast, hle⟩
    have hlength : (filled.codes.map f).length = sequences.length := by
      rw [List.length_map, hcount]
    have hcode : ∀ c ∈ filled.codes.map f, c ≤ stream.maxCode := List.forall_mem_map.mpr hmost
    exact hlength ▸ htally.histogramOf hlast hle (hcode last hlast) (hlength.trans_le hlen)
  refine ⟨filled, llMax, mlMax, ofMax, ?_, hall, hkept, ?_, ?_, ?_⟩
  · simp only [fillAndCount, hfill, hmaxima, Option.bind_eq_bind, Option.bind_some]
  · exact hhist hl (fun c hc => (hcodes c hc).1) hllMax
  · exact hhist hm (fun c hc => (hcodes c hc).2.1) hmlMax
  · exact hhist ho (fun c hc => (hcodes c hc).2.2) hofMax

/-- Two sequences, the second one a repeat of the first one's offset. -/
theorem fill_and_count_exact_repeat : ∃ filled llMax mlMax ofMax,
    fillAndCount false [⟨5, 40, 100⟩, ⟨70, 3, 100⟩] .initial = some (filled, llMax, mlMax, ofMax) ∧
      List.Forall₂ StandsFor filled.sequences filled.codes ∧
      OffsetsKept false [⟨5, 40, 100⟩, ⟨70, 3, 100⟩] .initial filled ∧
      HistogramOf .literalLength filled.counts.ll 2 llMax ∧
      HistogramOf .matchLength filled.counts.ml 2 mlMax ∧
      HistogramOf .offset filled.counts.off 2 ofMax := by
  refine fill_and_count_exact false (List.cons_ne_nil _ _) (by decide) ?_ ⟨?_, ?_⟩
  · intro seq hseq
    rcases List.mem_pair.mp hseq with rfl | rfl
    · exact ⟨by decide, by decide, by decide⟩
    · exact ⟨by decide, by decide, by decide⟩
  · exact ⟨by decide, by decide, by decide⟩
  · intro seq hseq
    rcases List.mem_pair.mp hseq with rfl | rfl
    · exact ⟨by decide, by decide⟩
    · exact ⟨by decide, by decide⟩

end Fill

end Encoding
