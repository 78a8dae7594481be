import StructuredZstd.Decoding.Scratch

namespace Decoding

open Bits BitIo Fse.Decoder

inductive ModeType where
  | predefined
  | rle
  | fseCompressed
  | repeat
deriving Repr, DecidableEq

/-- The modes byte of the section header. -/
structure CompressionModes where
  byte : Nat
deriving Repr, DecidableEq

structure SequencesHeader where
  numSequences : Nat
  modes : Option CompressionModes
deriving Repr, DecidableEq

structure Sequence where
  ll : Nat
  ml : Nat
  off : Nat
deriving Repr, DecidableEq

namespace CompressionModes

/-- The source panics past three; every caller passes two bits. -/
def decodeMode : Nat → ModeType
  | 0 => .predefined
  | 1 => .rle
  | 2 => .fseCompressed
  | _ => .repeat

def llMode (m : CompressionModes) : ModeType := decodeMode (m.byte >>> 6)

def ofMode (m : CompressionModes) : ModeType := decodeMode ((m.byte >>> 4) &&& 0x3)

def mlMode (m : CompressionModes) : ModeType := decodeMode ((m.byte >>> 2) &&& 0x3)

end CompressionModes

/-- The section header: the count in one of three forms, then the modes byte. -/
def SequencesHeader.parseFromHeader (source : List UInt8) :
    Except SequencesHeaderParseError (SequencesHeader × Nat) :=
  match source with
  | [] => .error (.notEnoughBytes 1 0)
  | first :: _ =>
    let byte (i : Nat) : Nat := (source.getD i 0).toNat
    if first.toNat = 0 then .ok (⟨0, none⟩, 1)
    else if first.toNat ≤ 127 then
      if source.length < 2 then .error (.notEnoughBytes 2 source.length)
      else .ok (⟨first.toNat, some ⟨byte 1⟩⟩, 2)
    else if first.toNat ≤ 254 then
      if source.length < 2 then .error (.notEnoughBytes 2 source.length)
      else
        let numSequences := (first.toNat - 128) <<< 8 + byte 1
        if numSequences ≠ 0 then
          if source.length < 3 then .error (.notEnoughBytes 3 source.length)
          else .ok (⟨numSequences, some ⟨byte 2⟩⟩, 3)
        else .ok (⟨numSequences, none⟩, 2)
    else if source.length < 4 then .error (.notEnoughBytes 4 source.length)
    else .ok (⟨byte 1 + byte 2 <<< 8 + 0x7F00, some ⟨byte 3⟩⟩, 4)

/-- Baseline in the low 24 bits, width in the high eight. -/
def packCodeMeta (bases extraBits : List Nat) : List Nat :=
  List.zipWith (fun base extra => base ||| extra <<< 24) bases extraBits

def llMeta : List Nat := packCodeMeta
  [0, 1, 2, 3, 4, 5, 6, 7, 8, 9, 10, 11, 12, 13, 14, 15, 16, 18, 20, 22, 24, 28, 32, 40, 48,
    64, 128, 256, 512, 1024, 2048, 4096, 8192, 16384, 32768, 65536]
  [0, 0, 0, 0, 0, 0, 0, 0, 0, 0, 0, 0, 0, 0, 0, 0, 1, 1, 1, 1, 2, 2, 3, 3, 4, 6, 7, 8, 9, 10,
    11, 12, 13, 14, 15, 16]

def mlMeta : List Nat := packCodeMeta
  [3, 4, 5, 6, 7, 8, 9, 10, 11, 12, 13, 14, 15, 16, 17, 18, 19, 20, 21, 22, 23, 24, 25, 26,
    27, 28, 29, 30, 31, 32, 33, 34, 35, 37, 39, 41, 43, 47, 51, 59, 67, 83, 99, 131, 259, 515,
    1027, 2051, 4099, 8195, 16387, 32771, 65539]
  [0, 0, 0, 0, 0, 0, 0, 0, 0, 0, 0, 0, 0, 0, 0, 0, 0, 0, 0, 0, 0, 0, 0, 0, 0, 0, 0, 0, 0, 0,
    0, 0, 1, 1, 1, 1, 2, 2, 3, 3, 4, 4, 5, 7, 8, 9, 10, 11, 12, 13, 14, 15, 16]

def llMaxLog : Nat := 9

def mlMaxLog : Nat := 9

def ofMaxLog : Nat := 8

def llDefaultAccLog : Nat := 6

def literalsLengthDefaultDistribution : List Int :=
  [4, 3, 2, 2, 2, 2, 2, 2, 2, 2, 2, 2, 2, 1, 1, 1, 2, 2, 2, 2, 2, 2, 2, 2, 2, 3, 2, 1, 1, 1, 1, 1,
    -1, -1, -1, -1]

def mlDefaultAccLog : Nat := 6

def matchLengthDefaultDistribution : List Int :=
  [1, 4, 3, 2, 2, 2, 2, 2, 2, 1, 1, 1, 1, 1, 1, 1, 1, 1, 1, 1, 1, 1, 1, 1, 1, 1, 1, 1, 1, 1, 1, 1,
    1, 1, 1, 1, 1, 1, 1, 1, 1, 1, 1, 1, 1, 1, -1, -1, -1, -1, -1, -1, -1]

def ofDefaultAccLog : Nat := 5

def offsetDefaultDistribution : List Int :=
  [1, 1, 1, 1, 1, 1, 2, 2, 2, 1, 1, 1, 1, 1, 1, 1, 1, 1, 1, 1, 1, 1, 1, 1, -1, -1, -1, -1, -1]

def predefinedLlTable : SeqFSETable :=
  ((FSETableImpl.new maxLiteralLengthCode).buildFromProbabilities llDefaultAccLog
    literalsLengthDefaultDistribution).2.enrichWithPackedSeqMeta llMeta

def predefinedMlTable : SeqFSETable :=
  ((FSETableImpl.new maxMatchLengthCode).buildFromProbabilities mlDefaultAccLog
    matchLengthDefaultDistribution).2.enrichWithPackedSeqMeta mlMeta

def predefinedOfTable : SeqFSETable :=
  ((FSETableImpl.new maxOffsetCode).buildFromProbabilities ofDefaultAccLog
    offsetDefaultDistribution).2.enrichForOffsets

def predefinedOfLongShare : Nat := 48

/-- The share of long offsets in a table, scaled to the reference size. -/
def computeOffsetsLongShare (offsets : SeqFSETable) : Nat :=
  (offsets.decode.countP (fun entry => 22 < entry.numAdditionalBits)) <<<
    (8 - offsets.accuracyLog)

/-- What the three axes of the section have in common: its limits, its predefined table and the
data its entries carry. -/
structure AxisSpec where
  axis : Axis
  maxLog : Nat
  maxCode : Nat
  seqMeta : SeqMeta
  predefinedTable : SeqFSETable

def AxisSpec.enrich (spec : AxisSpec) (t : SeqFSETable) : SeqFSETable :=
  match spec.seqMeta with
  | .none => t
  | .packed packed => t.enrichWithPackedSeqMeta packed
  | .offsets => t.enrichForOffsets

def llAxis : AxisSpec :=
  ⟨.ll, llMaxLog, maxLiteralLengthCode, .packed llMeta, predefinedLlTable⟩

def ofAxis : AxisSpec :=
  ⟨.off, ofMaxLog, maxOffsetCode, .offsets, predefinedOfTable⟩

def mlAxis : AxisSpec :=
  ⟨.ml, mlMaxLog, maxMatchLengthCode, .packed mlMeta, predefinedMlTable⟩

/-- One axis of `maybe_update_fse_tables`: its table and where it is looked up from now on. The
source marks the axis only after its table is built. -/
def updateAxis (spec : AxisSpec) (mode : ModeType) (source : List UInt8)
    (table : SeqFSETable) (tableSource : SeqTableSource) :
    Except DecodeSequenceError Nat × SeqFSETable × SeqTableSource :=
  match mode with
  | .fseCompressed =>
    match table.buildDecoderFused source spec.maxLog spec.seqMeta with
    | (.error e, table) => (.error (.fseTableError e), table, tableSource)
    | (.ok bytes, table) => (.ok bytes, table, .local)
  | .rle =>
    match source with
    | [] => (.error (.missingByteForRleTable spec.axis), table, tableSource)
    | code :: _ =>
      if spec.maxCode < code.toNat then
        (.error (.invalidRleCode spec.axis code.toNat), table, tableSource)
      else (.ok 1, spec.enrich (table.buildRle code.toNat), .local)
  | .predefined => (.ok 0, table, .predefined spec.predefinedTable)
  | .repeat => (.ok 0, table, tableSource)

/-- The share is kept by a repeated offset table and taken again from a rebuilt one. -/
def updateLongShare (mode : ModeType) (offsets : SeqFSETable) (share : Nat) : Nat :=
  match mode with
  | .fseCompressed | .rle => computeOffsetsLongShare offsets
  | .predefined => predefinedOfLongShare
  | .repeat => share

/-- Set up the tables of a section, literal lengths first, then offsets, then match lengths. A
failing axis leaves the ones before it updated. -/
def maybeUpdateFseTables (header : SequencesHeader) (source : List UInt8) (scratch : FSEScratch) :
    Except DecodeSequenceError Nat × FSEScratch :=
  match header.modes with
  | none => (.error .missingCompressionMode, scratch)
  | some modes =>
    match updateAxis llAxis modes.llMode source scratch.literalLengths scratch.llSource with
    | (.error e, table, src) =>
      (.error e, { scratch with literalLengths := table, llSource := src })
    | (.ok llBytes, table, src) =>
      let scratch := { scratch with literalLengths := table, llSource := src }
      match updateAxis ofAxis modes.ofMode (source.drop llBytes) scratch.offsets
          scratch.ofSource with
      | (.error e, table, src) => (.error e, { scratch with offsets := table, ofSource := src })
      | (.ok ofBytes, table, src) =>
        let scratch := { scratch with
          offsets := table
          ofSource := src
          offsetsLongShare := updateLongShare modes.ofMode table scratch.offsetsLongShare }
        match updateAxis mlAxis modes.mlMode (source.drop (llBytes + ofBytes))
            scratch.matchLengths scratch.mlSource with
        | (.error e, table, src) =>
          (.error e, { scratch with matchLengths := table, mlSource := src })
        | (.ok mlBytes, table, src) =>
          (.ok (llBytes + ofBytes + mlBytes),
            { scratch with matchLengths := table, mlSource := src })

end Decoding
