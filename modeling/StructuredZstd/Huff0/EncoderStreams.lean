import StructuredZstd.BitIo.ChangeBits
import StructuredZstd.Fse.FseEncoder
import StructuredZstd.Huff0.HufCStream
import StructuredZstd.Huff0.WeightBuild

namespace Huff0.Encoder

open BitIo
open Fse.Encoder (FSETable buildTableFromCountsInto encodeInterleaved)

/-- The FSE form of a description, built over a table that may hold an earlier one; none inside
where the weights go out raw. -/
def encodeWeightDescription (weights : List Nat) (fseTable : FSETable) :
    Option (Option (List UInt8)) :=
  if weights.length ≤ 2 then some none
  else
    let counts := (List.range 13).map (weights.count ·)
    let maxCount := counts.foldl max 0
    if maxCount = weights.length ∨ maxCount ≤ 1 then some none
    else do
      let table ← buildTableFromCountsInto counts 6 false fseTable
      let w ← encodeInterleaved table weights (.ofOutput [])
      let w ← w.flush
      let length := w.output.length
      if 1 < length ∧ (length < weights.length / 2 ∨ 128 < weights.length) ∧ length < 128 then
        some (some w.output)
      else some none

/-- Weights by pairs, the second in the low nibble. -/
def writeNibbles : List Nat → BitWriter → Option BitWriter
  | [], w => some w
  | [weight], w => if weight < 16 then w.writeBits (weight <<< 4) 8 else none
  | weight1 :: weight2 :: weights, w =>
    if weight1 < 16 ∧ weight2 < 16 then do
      let w ← w.writeBits weight2 4
      let w ← w.writeBits weight1 4
      writeNibbles weights w
    else none

def writeRawWeightDescription (weights : List Nat) (w : BitWriter) : Option BitWriter :=
  if weights.length ≤ 128 then do
    let w ← w.writeBits (weights.length + 127) 8
    writeNibbles weights w
  else none

namespace HuffmanTable

/-- The weights a description carries, by the longest code. -/
def weights (t : HuffmanTable) : List Nat :=
  let maxBits := (t.codes.map Prod.snd).foldl max 0
  t.codes.map fun c => if c.2 = 0 then 0 else maxBits - c.2 + 1

/-- The size of the table's description; none inside where neither form can carry it. -/
def tryTableDescriptionSize (t : HuffmanTable) (fseTable : FSETable) : Option (Option Nat) := do
  match ← encodeWeightDescription t.weights.dropLast fseTable with
  | some description => some (some (description.length + 1))
  | none =>
    let rawWeights := t.codes.length - 1
    some (if rawWeights ≤ 128 then some ((rawWeights + 1) / 2 + 1) else none)

/-- Write the description alone. A size query before has encoded it already; encoding it again
gives the same bytes. -/
def writeTable (t : HuffmanTable) (fseTable : FSETable) (w : BitWriter) : Option BitWriter := do
  match ← encodeWeightDescription t.weights.dropLast fseTable with
  | some description =>
    let w ← w.writeBits description.length 8
    w.appendBytes description
  | none => writeRawWeightDescription t.weights.dropLast w

/-- The width of a symbol's code, if it has one. -/
def numBitsForSymbol (t : HuffmanTable) (symbol : Nat) : Option Nat :=
  match t.codes[symbol]? with
  | some (_, numBits) => if numBits = 0 then none else some numBits
  | none => none

/-- The bytes of `data` in one stream, where every symbol has a code. -/
def estimateCompressedSize (t : HuffmanTable) (data : List UInt8) : Option Nat := do
  let bits ← data.mapM fun symbol => t.numBitsForSymbol symbol.toNat
  some (streamBytes bits.sum)

def estimateCompressedSizeFromCounts (t : HuffmanTable) (counts : List Nat) : Nat :=
  streamBytes ((t.codes.zip counts).map fun (code, count) => code.2 * count).sum

/-- The same off the histogram: nothing where a symbol that occurs has no code. -/
def estimateCompressedSizeFromCountsChecked (t : HuffmanTable) (counts : List Nat) : Option Nat := do
  let bits ← counts.zipIdx.mapM fun (count, symbol) =>
    if count = 0 then some 0 else (t.numBitsForSymbol symbol).map (· * count)
  some (streamBytes bits.sum)

/-- The codes of a stream's symbols, last symbol first; a symbol past the table panics. -/
def writeCodes (t : HuffmanTable) : List UInt8 → BitWriter → Option BitWriter
  | [], w => some w
  | symbol :: rest, w => do
    let (code, numBits) ← t.codes[symbol.toNat]?
    let w ← w.writeBits code numBits
    writeCodes t rest w

/-- One stream, padded to fill its last byte. -/
def encodeStream (t : HuffmanTable) (data : List UInt8) (w : BitWriter) : Option BitWriter := do
  let w ← t.writeCodes data.reverse w
  if w.misaligned = 0 then w.writeBits 1 8 else w.writeBits 1 w.misaligned

/-- One of the four streams; an overflow of its room panics. -/
def encodeSegment (t : HuffmanTable) (segment : List UInt8) : Option (List UInt8) := do
  let stream ← HufCStream.new (hufTightCompressBound segment.length t.tableLog)
  let packed := segment.reverse.map fun symbol => t.packedCodes.getD symbol.toNat 0
  let bytes := (stream.encodeOneStream t.tableLog packed).close
  if bytes = [] then none else some bytes

/-- Append a segment's stream; one of the first three must fit its jump-table entry. -/
def appendSegment (t : HuffmanTable) (segment : List UInt8) (listed : Bool) (w : BitWriter) :
    Option (Nat × BitWriter) := do
  let bytes ← t.encodeSegment segment
  let w ← w.withAlignedOutput bytes
  if listed ∧ 2 ^ 16 - 1 < bytes.length then none else some (bytes.length, w)

/-- One stream, after the table's description where it is new. -/
def encode (t : HuffmanTable) (data : List UInt8) (newTable : Option FSETable) (w : BitWriter) :
    Option BitWriter := do
  let w ← match newTable with
    | some fseTable => t.writeTable fseTable w
    | none => some w
  t.encodeStream data w

/-- Four streams behind a table of the sizes of the first three. -/
def encode4x (t : HuffmanTable) (data : List UInt8) (newTable : Option FSETable) (w : BitWriter) :
    Option BitWriter := do
  if data.length < 12 then none
  let w ← match newTable with
    | some fseTable => t.writeTable fseTable w
    | none => some w
  let jumpTable := w.index
  let w ← w.writeBits 0 16
  let w ← w.writeBits 0 16
  let w ← w.writeBits 0 16
  let segmentSize := (data.length + 3) / 4
  let (size1, w) ← t.appendSegment (data.take segmentSize) true w
  let (size2, w) ← t.appendSegment ((data.drop segmentSize).take segmentSize) true w
  let (size3, w) ← t.appendSegment ((data.drop (segmentSize * 2)).take segmentSize) true w
  let (_, w) ← t.appendSegment (data.drop (segmentSize * 3)) false w
  let w ← w.changeBits jumpTable size1 16
  let w ← w.changeBits (jumpTable + 16) size2 16
  w.changeBits (jumpTable + 32) size3 16

end HuffmanTable

end Huff0.Encoder
