import Mathlib.Tactic.IntervalCases
import StructuredZstd.Decoding.LiteralsSection
import StructuredZstd.Encoding.LiteralsSection

namespace Encoding

open Bits BitIo
open Decoding (LiteralsSection LiteralsSectionType)

/-- The header of a section that is stored as it is, or as one byte. -/
def plainHeader (sectionType literalsLen : Nat) : List UInt8 :=
  if literalsLen ≤ 31 then toLeBytes 1 (sectionType + literalsLen * 8)
  else if literalsLen ≤ 4095 then toLeBytes 2 (sectionType + 4 + literalsLen * 16)
  else toLeBytes 3 (sectionType + 12 + literalsLen * 16)

/-- The header of a compressed section. -/
def keptHeader (sectionType literalsLen compressedLen : Nat) : List UInt8 :=
  let (format, sizeBits) := sizeFormat literalsLen
  toLeBytes (compressedLiteralsHeaderBytes literalsLen)
    (sectionType + format * 4 + literalsLen * 16 + compressedLen * 2 ^ (4 + sizeBits))

theorem plainHeader_length (sectionType literalsLen : Nat) :
    (plainHeader sectionType literalsLen).length = uncompressedLiteralsHeaderBytes literalsLen := by
  unfold plainHeader uncompressedLiteralsHeaderBytes
  split
  · exact toLeBytes_length _ _
  · split
    · exact toLeBytes_length _ _
    · exact toLeBytes_length _ _

theorem keptHeader_length (sectionType literalsLen compressedLen : Nat) :
    (keptHeader sectionType literalsLen compressedLen).length =
      compressedLiteralsHeaderBytes literalsLen := toLeBytes_length _ _

/-- How far each size format reaches. -/
theorem sizeFormat_cases {literalsLen : Nat} (h : literalsLen < 2 ^ 18) :
    (sizeFormat literalsLen = (0, 10) ∧ compressedLiteralsHeaderBytes literalsLen = 3 ∧
        literalsLen < 256) ∨
      (sizeFormat literalsLen = (1, 10) ∧ compressedLiteralsHeaderBytes literalsLen = 3 ∧
        256 ≤ literalsLen ∧ literalsLen < 2 ^ 10) ∨
      (sizeFormat literalsLen = (2, 14) ∧ compressedLiteralsHeaderBytes literalsLen = 4 ∧
        256 ≤ literalsLen ∧ literalsLen < 2 ^ 14) ∨
      (sizeFormat literalsLen = (3, 18) ∧ compressedLiteralsHeaderBytes literalsLen = 5 ∧
        256 ≤ literalsLen ∧ literalsLen < 2 ^ 18) := by
  unfold sizeFormat compressedLiteralsHeaderBytes
  split_ifs <;> simp <;> omega

section Read

/-- The bit operations of the reader, as arithmetic. -/
theorem reader_ops (x k : Nat) : x &&& 0x3 = x % 4 ∧ x &&& 0x3F = x % 64 ∧
    x >>> k = x / 2 ^ k ∧ x <<< k = x * 2 ^ k :=
  ⟨Nat.and_two_pow_sub_one_eq_mod x 2, Nat.and_two_pow_sub_one_eq_mod x 6,
    Nat.shiftRight_eq_div_pow x k, Nat.shiftLeft_eq x k⟩

theorem sectionType_plain {x sectionType : Nat} (h : x % 4 = sectionType) (htype : sectionType < 2) :
    LiteralsSection.sectionType x = if sectionType = 0 then .raw else .rle := by
  rw [LiteralsSection.sectionType, (reader_ops x 0).1, h]
  interval_cases sectionType
  · rfl
  · rfl

theorem sectionType_kept {x sectionType : Nat} (h : x % 4 = sectionType) (htype : 2 ≤ sectionType) :
    LiteralsSection.sectionType x = if sectionType = 2 then .compressed else .treeless := by
  rw [LiteralsSection.sectionType, (reader_ops x 0).1, h]
  have : sectionType < 4 := by omega
  interval_cases sectionType
  · rfl
  · rfl

/-- The reader on a first byte of a plain section. -/
theorem parseFromHeader_of_plain {first : UInt8} {sectionType : Nat} (tail : List UInt8)
    (h : first.toNat % 4 = sectionType) (htype : sectionType < 2) {format : Nat}
    (hformat : first.toNat / 4 % 4 = format) {needed : Nat}
    (hneeded : needed = if format = 1 then 2 else if format = 3 then 3 else 1)
    (hlen : needed ≤ (first :: tail).length) :
    LiteralsSection.parseFromHeader (first :: tail) =
      .ok (⟨if format = 1 then first.toNat / 16 + (tail.getD 0 0).toNat * 16
        else if format = 3 then
          first.toNat / 16 + (tail.getD 0 0).toNat * 16 + (tail.getD 1 0).toNat * 4096
        else first.toNat / 8, none, none, if sectionType = 0 then .raw else .rle⟩, needed) := by
  have hfield : (first.toNat >>> 2) &&& 0x3 = format := by
    rw [(reader_ops _ 0).1, (reader_ops _ 2).2.2.1]
    exact hformat
  have hbytes : LiteralsSection.headerBytesNeeded first.toNat = needed := by
    rw [LiteralsSection.headerBytesNeeded, hfield, sectionType_plain h htype, hneeded]
    interval_cases sectionType
    · rfl
    · rfl
  have hshort : ¬(first :: tail).length < needed := Nat.not_lt.mpr hlen
  simp only [LiteralsSection.parseFromHeader, hfield, hbytes, sectionType_plain h htype,
    if_neg hshort]
  simp only [(reader_ops _ _).2.2.1, (reader_ops _ _).2.2.2, List.getD_cons_zero,
    List.getD_cons_succ]
  interval_cases sectionType
  · rfl
  · rfl

/-- A plain header is read back. -/
theorem parseFromHeader_plain {sectionType literalsLen : Nat} (htype : sectionType < 2)
    (hlen : literalsLen < 2 ^ 20) (rest : List UInt8) :
    LiteralsSection.parseFromHeader (plainHeader sectionType literalsLen ++ rest) =
      .ok (⟨literalsLen, none, none, if sectionType = 0 then .raw else .rle⟩,
        (plainHeader sectionType literalsLen).length) := by
  have hbyte : ∀ x : Nat, (UInt8.ofNat x).toNat = x % 256 := fun x => UInt8.toNat_ofNat'
  unfold plainHeader
  split
  · -- the format's high bit already belongs to the length
    have hformat : (sectionType + literalsLen * 8) % 256 / 4 % 4 = literalsLen % 2 * 2 := by omega
    simp only [toLeBytes, List.cons_append, List.nil_append]
    rw [parseFromHeader_of_plain rest (by rw [hbyte]; omega) htype (by rw [hbyte, hformat])
      (show 1 = _ by rw [if_neg (by omega), if_neg (by omega)]) (by simp)]
    rw [if_neg (by omega), if_neg (by omega), hbyte,
      show (sectionType + literalsLen * 8) % 256 / 8 = literalsLen by omega]
    rfl
  · split
    · simp only [toLeBytes, List.cons_append, List.nil_append]
      rw [parseFromHeader_of_plain _ (by rw [hbyte]; omega) htype
        (show _ = 1 by rw [hbyte]; omega) (show 2 = _ from rfl) (by simp)]
      simp only [if_true, List.getD_cons_zero, hbyte]
      rw [show (sectionType + 4 + literalsLen * 16) % 256 / 16 +
        (sectionType + 4 + literalsLen * 16) / 256 % 256 * 16 = literalsLen by omega]
      rfl
    · simp only [toLeBytes, List.cons_append, List.nil_append]
      rw [parseFromHeader_of_plain _ (by rw [hbyte]; omega) htype
        (show _ = 3 by rw [hbyte]; omega) (show 3 = _ from rfl) (by simp)]
      simp only [List.getD_cons_zero, List.getD_cons_succ, hbyte]
      rw [if_neg (by decide), if_pos trivial, show (sectionType + 12 + literalsLen * 16) % 256 / 16 +
        (sectionType + 12 + literalsLen * 16) / 256 % 256 * 16 +
          (sectionType + 12 + literalsLen * 16) / 256 / 256 % 256 * 4096 = literalsLen by omega]
      rfl

/-- The sizes a reader takes out of the header of a compressed section. -/
def keptSizes (format : Nat) (byte : Nat → Nat) : Nat × Nat :=
  if format = 2 then
    (byte 0 / 16 + byte 1 * 16 + byte 2 % 4 * 4096, byte 2 / 4 + byte 3 * 64)
  else if format = 3 then
    (byte 0 / 16 + byte 1 * 16 + byte 2 % 64 * 4096, byte 2 / 64 + byte 3 * 4 + byte 4 * 1024)
  else (byte 0 / 16 + byte 1 % 64 * 16, byte 1 / 64 + byte 2 * 4)

/-- The reader on a first byte of a compressed section. -/
theorem parseFromHeader_of_kept {first : UInt8} {sectionType : Nat} (tail : List UInt8)
    (h : first.toNat % 4 = sectionType) (htype : 2 ≤ sectionType) {format : Nat}
    (hformat : first.toNat / 4 % 4 = format) {needed : Nat}
    (hneeded : needed = if format = 2 then 4 else if format = 3 then 5 else 3)
    (hlen : needed ≤ (first :: tail).length) :
    LiteralsSection.parseFromHeader (first :: tail) =
      .ok (⟨(keptSizes format fun i => ((first :: tail).getD i 0).toNat).1,
        some (keptSizes format fun i => ((first :: tail).getD i 0).toNat).2,
        some (if format = 0 then 1 else 4),
        if sectionType = 2 then .compressed else .treeless⟩, needed) := by
  have hfour : sectionType < 4 := by omega
  have hfield : (first.toNat >>> 2) &&& 0x3 = format := by
    rw [(reader_ops _ 0).1, (reader_ops _ 2).2.2.1]
    exact hformat
  have hbytes : LiteralsSection.headerBytesNeeded first.toNat = needed := by
    rw [LiteralsSection.headerBytesNeeded, hfield, sectionType_kept h htype, hneeded]
    interval_cases sectionType
    · rfl
    · rfl
  have hshort : ¬(first :: tail).length < needed := Nat.not_lt.mpr hlen
  simp only [LiteralsSection.parseFromHeader, hfield, hbytes, sectionType_kept h htype,
    if_neg hshort, keptSizes]
  simp only [(reader_ops _ 0).1, (reader_ops _ 0).2.1, (reader_ops _ _).2.2.1,
    (reader_ops _ _).2.2.2]
  interval_cases sectionType
  · rfl
  · rfl

section Sizes

variable {byte : Nat → Nat} {v sectionType format literalsLen compressedLen : Nat}

theorem keptSizes_narrow (hformat : format < 2) (htype : sectionType < 4)
    (hlen : literalsLen < 1024) (hcompressed : compressedLen < 1024)
    (hv : v = sectionType + format * 4 + literalsLen * 16 + compressedLen * 16384)
    (h0 : byte 0 = v % 256) (h1 : byte 1 = v / 256 % 256) (h2 : byte 2 = v / 256 / 256 % 256) :
    keptSizes format byte = (literalsLen, compressedLen) := by
  rw [keptSizes, if_neg (by omega), if_neg (by omega), h0, h1, h2]
  apply Prod.ext
  · simp only
    omega
  · simp only
    omega

theorem keptSizes_medium (htype : sectionType < 4)
    (hlen : literalsLen < 16384) (hcompressed : compressedLen < 16384)
    (hv : v = sectionType + 2 * 4 + literalsLen * 16 + compressedLen * 262144)
    (h0 : byte 0 = v % 256) (h1 : byte 1 = v / 256 % 256) (h2 : byte 2 = v / 256 / 256 % 256)
    (h3 : byte 3 = v / 256 / 256 / 256 % 256) :
    keptSizes 2 byte = (literalsLen, compressedLen) := by
  rw [keptSizes, if_pos rfl, h0, h1, h2, h3]
  apply Prod.ext
  · simp only
    omega
  · simp only
    omega

theorem keptSizes_wide (htype : sectionType < 4)
    (hlen : literalsLen < 262144) (hcompressed : compressedLen < 262144)
    (hv : v = sectionType + 3 * 4 + literalsLen * 16 + compressedLen * 4194304)
    (h0 : byte 0 = v % 256) (h1 : byte 1 = v / 256 % 256) (h2 : byte 2 = v / 256 / 256 % 256)
    (h3 : byte 3 = v / 256 / 256 / 256 % 256) (h4 : byte 4 = v / 256 / 256 / 256 / 256 % 256) :
    keptSizes 3 byte = (literalsLen, compressedLen) := by
  rw [keptSizes, if_neg (by decide), if_pos rfl, h0, h1, h2, h3, h4]
  apply Prod.ext
  · simp only
    omega
  · simp only
    omega

end Sizes

/-- A compressed header is read back. -/
theorem parseFromHeader_kept {sectionType literalsLen compressedLen : Nat}
    (htype : 2 ≤ sectionType) (htype' : sectionType < 4) (hlen : literalsLen < 2 ^ 18)
    (hcompressed : compressedLen < 2 ^ (sizeFormat literalsLen).2) (rest : List UInt8) :
    LiteralsSection.parseFromHeader (keptHeader sectionType literalsLen compressedLen ++ rest) =
      .ok (⟨literalsLen, some compressedLen, some (if literalsLen < 256 then 1 else 4),
          if sectionType = 2 then .compressed else .treeless⟩,
        (keptHeader sectionType literalsLen compressedLen).length) := by
  have hbyte : ∀ x : Nat, (UInt8.ofNat x).toNat = x % 256 := fun x => UInt8.toNat_ofNat'
  have hlong : 256 ≤ literalsLen → ¬literalsLen < 256 := Nat.not_lt.mpr
  rw [keptHeader_length]
  unfold keptHeader
  rcases sizeFormat_cases hlen with ⟨hf, hb, hl⟩ | ⟨hf, hb, hl, hl'⟩ | ⟨hf, hb, hl, hl'⟩ |
    ⟨hf, hb, hl, hl'⟩
  · rw [hf] at hcompressed
    simp only [hf, hb, toLeBytes, List.cons_append, List.nil_append, Nat.reduceAdd, Nat.reducePow]
    rw [parseFromHeader_of_kept _ (by rw [hbyte]; omega) htype
      (show _ = 0 by rw [hbyte]; omega) (show 3 = _ from rfl) (by simp),
      keptSizes_narrow (by decide) htype' (by omega) hcompressed rfl (hbyte _) (hbyte _) (hbyte _),
      if_pos hl]
    rfl
  · rw [hf] at hcompressed
    simp only [hf, hb, toLeBytes, List.cons_append, List.nil_append, Nat.reduceAdd, Nat.reducePow]
    rw [parseFromHeader_of_kept _ (by rw [hbyte]; omega) htype
      (show _ = 1 by rw [hbyte]; omega) (show 3 = _ from rfl) (by simp),
      keptSizes_narrow (by decide) htype' hl' hcompressed rfl (hbyte _) (hbyte _) (hbyte _),
      if_neg (hlong hl)]
    rfl
  · rw [hf] at hcompressed
    simp only [hf, hb, toLeBytes, List.cons_append, List.nil_append, Nat.reduceAdd, Nat.reducePow]
    rw [parseFromHeader_of_kept _ (by rw [hbyte]; omega) htype
      (show _ = 2 by rw [hbyte]; omega) (show 4 = _ from rfl) (by simp),
      keptSizes_medium htype' hl' hcompressed rfl (hbyte _) (hbyte _) (hbyte _) (hbyte _),
      if_neg (hlong hl)]
    rfl
  · rw [hf] at hcompressed
    simp only [hf, hb, toLeBytes, List.cons_append, List.nil_append, Nat.reduceAdd, Nat.reducePow]
    rw [parseFromHeader_of_kept _ (by rw [hbyte]; omega) htype
      (show _ = 3 by rw [hbyte]; omega) (show 5 = _ from rfl) (by simp),
      keptSizes_wide htype' hl' hcompressed rfl (hbyte _) (hbyte _) (hbyte _) (hbyte _) (hbyte _),
      if_neg (hlong hl)]
    rfl

end Read

end Encoding
