import StructuredZstd.Fse.FseDecoder

namespace Decoding

open Fse.Decoder

/-- A write a backend has no room for. -/
structure BackendOverflow where
  tail : Nat
  requested : Nat
  capacity : Nat
deriving Repr, DecidableEq

inductive DecodeBufferError where
  | notEnoughBytesInDictionary (got need : Nat)
  | offsetTooBig (offset bufLen : Nat)
  | zeroOffset
  | outputBufferOverflow (o : BackendOverflow)
deriving Repr, DecidableEq

inductive ExecuteSequencesError where
  | decodebufferError (e : DecodeBufferError)
  | notEnoughBytesForSequence (wanted have_ : Nat)
  | zeroOffset
  | outputBufferOverflow (o : BackendOverflow)
deriving Repr, DecidableEq

/-- The three fields of a sequence, as the errors of their tables name them. -/
inductive Axis where
  | ll
  | off
  | ml
deriving Repr, DecidableEq

inductive DecodeSequenceError where
  | fseDecoderError (e : FSEDecoderError)
  | fseTableError (e : FSETableError)
  | extraPadding (skippedBits : Nat)
  | notEnoughBytesForNumSequences
  | extraBits (bitsRemaining : Int)
  | missingCompressionMode
  | missingByteForRleTable (axis : Axis)
  | invalidRleCode (axis : Axis) (code : Nat)
deriving Repr, DecidableEq

inductive SequencesHeaderParseError where
  | notEnoughBytes (needAtLeast got : Nat)
deriving Repr, DecidableEq

inductive LiteralsSectionParseError where
  | getBitsError (requested remaining : Nat)
  | notEnoughBytes (have_ need : Nat)
deriving Repr, DecidableEq

inductive HuffmanTableError where
  | fseDecoderError (e : FSEDecoderError)
  | fseTableError (e : FSETableError)
  | sourceIsEmpty
  | notEnoughBytesForWeights (gotBytes expectedBytes : Nat)
  | extraPadding (skippedBits : Nat)
  | tooManyWeights (got : Nat)
  | missingWeights
  | leftoverIsNotAPowerOf2 (got : Nat)
  | notEnoughBytesToDecompressWeights (have_ need : Nat)
  | fseTableUsedTooManyBytes (used availableBytes : Nat)
  | notEnoughBytesInSource (got need : Nat)
  | weightBiggerThanMaxNumBits (got : Nat)
  | maxBitsTooHigh (got : Nat)
deriving Repr, DecidableEq

inductive DecompressLiteralsError where
  | missingCompressedSize
  | missingNumStreams
  | huffmanTableError (e : HuffmanTableError)
  | uninitializedHuffmanTable
  | missingBytesForJumpHeader (got : Nat)
  | missingBytesForLiterals (got needed : Nat)
  | extraPadding (skippedBits : Nat)
  | bitstreamReadMismatch (readTil expected : Int)
  | decodedLiteralCountMismatch (decoded expected : Nat)
deriving Repr, DecidableEq

inductive DecompressBlockError where
  | blockContentReadError
  | malformedSectionHeader (expectedLen remainingBytes : Nat)
  | decompressLiteralsError (e : DecompressLiteralsError)
  | literalsSectionParseError (e : LiteralsSectionParseError)
  | sequencesHeaderParseError (e : SequencesHeaderParseError)
  | decodeSequenceError (e : DecodeSequenceError)
  | executeSequencesError (e : ExecuteSequencesError)
  | expandsPastBlockMaximum (size maximum : Nat)
  | contentPastBlockMaximum (size maximum : Nat)
  | literalsOutputOverflow (o : BackendOverflow)
deriving Repr, DecidableEq

inductive BlockHeaderReadError where
  | readError
  | foundReservedBlock
  | blockSizeTooLarge (size : Nat)
deriving Repr, DecidableEq

/-- The types a block header can be read with; the fourth is rejected while parsing. -/
inductive BlockType where
  | raw
  | rle
  | compressed
deriving Repr, DecidableEq

inductive DecodeBlockContentError where
  | readError (step : BlockType)
  | decompressBlockError (e : DecompressBlockError)
  | backendOverflow (step : BlockType)
deriving Repr, DecidableEq

end Decoding
