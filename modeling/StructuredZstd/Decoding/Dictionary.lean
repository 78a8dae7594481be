import StructuredZstd.Decoding.SequenceSection

namespace Decoding

open Bits Fse.Decoder Huff0.Decoder

inductive DictionaryDecodeError where
  | badMagicNum (got : List UInt8)
  | dictionaryTooSmall (got need : Nat)
  | zeroDictionaryId
  | zeroRepeatOffsetInDictionary (index : Nat)
  | fseTableError (e : FSETableError)
  | huffmanTableError (e : HuffmanTableError)
deriving Repr, DecidableEq

namespace Dictionary

def magicNum : List UInt8 := [0x37, 0xA4, 0x30, 0xEC]

/-- A dictionary of content alone. -/
def rawContent (id : Nat) (dictContent : List UInt8) : Dictionary :=
  ⟨id, .new, .new, dictContent, .initial⟩

def fromRawContent (id : Nat) (dictContent : List UInt8) :
    Except DictionaryDecodeError Dictionary :=
  if dictContent = [] then .error (.dictionaryTooSmall 0 1)
  else .ok (rawContent id dictContent)

def buildHuf (raw : List UInt8) : Except DictionaryDecodeError (HuffmanScratch × Nat) :=
  match HuffmanTable.new.buildDecoder raw with
  | (.error e, _) => .error (.huffmanTableError e)
  | (.ok n, table) => .ok ({ HuffmanScratch.new with table := table }, n)

def buildFse (t : SeqFSETable) (raw : List UInt8) (maxLog : Nat) :
    Except DictionaryDecodeError (SeqFSETable × Nat) :=
  match t.buildDecoder raw maxLog with
  | (.error e, _) => .error (.fseTableError e)
  | (.ok n, table) => .ok (table, n)

/-- The offset history behind the tables. -/
def readOffsetHist (raw : List UInt8) : Except DictionaryDecodeError OffsetHist :=
  if raw.length < 12 then .error (.dictionaryTooSmall raw.length 12)
  else
    let offset (i : Nat) := le ((raw.drop (4 * i)).take 4)
    if offset 0 = 0 then .error (.zeroRepeatOffsetInDictionary 0)
    else if offset 1 = 0 then .error (.zeroRepeatOffsetInDictionary 1)
    else if offset 2 = 0 then .error (.zeroRepeatOffsetInDictionary 2)
    else .ok ⟨offset 0, offset 1, offset 2⟩

/-- What follows the id of a serialized dictionary: Huffman table, offset, match length and
literal length tables, offset history, content. -/
def decodeTables (id : Nat) (raw : List UInt8) : Except DictionaryDecodeError Dictionary := do
  let (huf, hufSize) ← buildHuf raw
  let raw := raw.drop hufSize
  let (offsets, ofSize) ← buildFse FSEScratch.new.offsets raw ofMaxLog
  let offsets := offsets.enrichForOffsets
  let raw := raw.drop ofSize
  let (matchLengths, mlSize) ← buildFse FSEScratch.new.matchLengths raw mlMaxLog
  let raw := raw.drop mlSize
  let (literalLengths, llSize) ← buildFse FSEScratch.new.literalLengths raw llMaxLog
  let raw := raw.drop llSize
  let hist ← readOffsetHist raw
  return {
    id := id
    fse := { FSEScratch.new with
      offsets := offsets
      offsetsLongShare := computeOffsetsLongShare offsets
      matchLengths := matchLengths.enrichWithPackedSeqMeta mlMeta
      literalLengths := literalLengths.enrichWithPackedSeqMeta llMeta }
    huf := huf
    dictContent := raw.drop 12
    offsetHist := hist }

def decodeDict (raw : List UInt8) : Except DictionaryDecodeError Dictionary :=
  if raw.length < 8 then .error (.dictionaryTooSmall raw.length 8)
  else if raw.take 4 ≠ magicNum then .error (.badMagicNum (raw.take 4))
  else
    let id := le ((raw.drop 4).take 4)
    if id = 0 then .error .zeroDictionaryId else decodeTables id (raw.drop 8)

def isSerialized (raw : List UInt8) : Bool := 8 ≤ raw.length ∧ raw.take 4 = magicNum

def fromSerializedOrRawContent (raw : List UInt8) : Except DictionaryDecodeError Dictionary :=
  if isSerialized raw then decodeDict raw
  else .ok (rawContent 0 raw)

/-- The dictionaries there are. -/
inductive Made : Dictionary → Prop where
  | raw (id : Nat) (dictContent : List UInt8) : Made (rawContent id dictContent)
  | decoded {raw : List UInt8} {d : Dictionary} : decodeDict raw = .ok d → Made d

end Dictionary

end Decoding
