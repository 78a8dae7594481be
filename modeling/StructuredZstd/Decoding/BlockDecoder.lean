import StructuredZstd.Decoding.LiteralsSection
import StructuredZstd.Decoding.SequenceDecoder

namespace Decoding

/-- What a reader still supplies before it ends or fails. Of a read that comes up short it keeps
`kept` bytes at most: readers differ in what they let go of. -/
structure Reader where
  bytes : List UInt8
  kept : Nat := 0
deriving Repr, DecidableEq

/-- `Read::read_exact`. -/
def Reader.readExact (r : Reader) (n : Nat) : Option (List UInt8) × Reader :=
  if n ≤ r.bytes.length then (some (r.bytes.take n), { r with bytes := r.bytes.drop n })
  else (none, { r with bytes := r.bytes.drop (r.bytes.length - r.kept) })

structure BlockHeader where
  lastBlock : Bool
  blockType : BlockType
  decompressedSize : Nat
  contentSize : Nat
deriving Repr, DecidableEq

namespace BlockHeader

/-- The type bits; the fourth value is reserved. -/
def blockType? (b0 : UInt8) : Option BlockType :=
  match (b0.toNat >>> 1) &&& 0x3 with
  | 0 => some .raw
  | 1 => some .rle
  | 2 => some .compressed
  | _ => none

def contentSizeUnchecked (b0 b1 b2 : UInt8) : Nat :=
  b0.toNat >>> 3 ||| b1.toNat <<< 5 ||| b2.toNat <<< 13

/-- The three bytes of a header. -/
def parse (b0 b1 b2 : UInt8) : Except BlockHeaderReadError BlockHeader :=
  match blockType? b0 with
  | none => .error .foundReservedBlock
  | some type =>
    let size := contentSizeUnchecked b0 b1 b2
    if maxBlockSize < size then .error (.blockSizeTooLarge size)
    else .ok {
      lastBlock := b0.toNat &&& 0x1 = 1
      blockType := type
      decompressedSize := match type with
        | .raw | .rle => size
        | .compressed => 0
      contentSize := match type with
        | .raw | .compressed => size
        | .rle => 1 }

end BlockHeader

def readBlockHeader (r : Reader) : Except BlockHeaderReadError BlockHeader × Reader :=
  match r.readExact 3 with
  | (some [b0, b1, b2], r) => (BlockHeader.parse b0 b1 b2, r)
  | (_, r) => (.error .readError, r)

/-- A raw or RLE block states its output in its header. -/
def blockFitsTheMaximum (header : BlockHeader) (maximum : Nat) :
    Except DecodeBlockContentError Unit :=
  if maximum < header.decompressedSize then
    .error (.decompressBlockError (.expandsPastBlockMaximum header.decompressedSize maximum))
  else .ok ()

def compressedContentFits (header : BlockHeader) (maximum : Nat) :
    Except DecodeBlockContentError Unit :=
  if maximum < header.contentSize then
    .error (.decompressBlockError (.contentPastBlockMaximum header.contentSize maximum))
  else .ok ()

section

variable {B : Type} [BufferBackend B]

/-- A block with no sequences: its literals are its output. -/
def writeLiteralsOnly (buffer : DecodeBuffer B) (literals : List UInt8) :
    Except DecompressBlockError Unit × DecodeBuffer B :=
  if BufferBackend.fixedCapacity B then
    match buffer.tryPush literals with
    | (.error o, buffer) => (.error (.literalsOutputOverflow o), buffer)
    | (.ok _, buffer) => (.ok (), buffer)
  else (.ok (), buffer.push literals)

/-- How many bytes the payload of a literals section takes. -/
def LiteralsSection.payloadLen (ls : LiteralsSection) : Nat :=
  match ls.compressedSize with
  | some n => n
  | none => match ls.lsType with
    | .rle => 1
    | _ => ls.regeneratedSize

/-- The two section headers of a compressed block. -/
structure BlockSections where
  literals : LiteralsSection
  /-- The payload of the literals and what follows it. -/
  literalsSource : List UInt8
  sequences : SequencesHeader
  sequencesSource : List UInt8

/-- Parse both section headers, before either section is decoded. -/
def parseSections (blockMaximum : Nat) (raw : List UInt8) :
    Except DecompressBlockError BlockSections :=
  match LiteralsSection.parseFromHeader raw with
  | .error e => .error (.literalsSectionParseError e)
  | .ok (ls, headerLen) =>
    if blockMaximum < ls.regeneratedSize then
      .error (.expandsPastBlockMaximum ls.regeneratedSize blockMaximum)
    else
      let raw := raw.drop headerLen
      if raw.length < ls.payloadLen then
        .error (.malformedSectionHeader ls.payloadLen raw.length)
      else match SequencesHeader.parseFromHeader (raw.drop ls.payloadLen) with
        | .error e => .error (.sequencesHeaderParseError e)
        | .ok (seqs, seqHeaderLen) =>
          .ok ⟨ls, raw, seqs, (raw.drop ls.payloadLen).drop seqHeaderLen⟩

/-- The sequences section of a block, or its literals alone. -/
def executeBlock (w : Workspace B) (dict : Option Dictionary) (blockMaximum : Nat)
    (sections : BlockSections) (literals : List UInt8) :
    Except DecompressBlockError Unit × Workspace B :=
  let lenBefore := w.buffer.len
  if sections.sequences.numSequences ≠ 0 then
    let buffer := (w.buffer.reserveForBlock blockMaximum).setBlockOutputCeiling blockMaximum
    match decodeAndExecuteSequences sections.sequences sections.sequencesSource w.fse buffer
        w.offsetHist literals literals.length dict with
    | (.error e, fse, buffer, hist) =>
      (.error e, { w with fse := fse, buffer := buffer, offsetHist := hist })
    | (.ok _, fse, buffer, hist) =>
      let w := { w with fse := fse, buffer := buffer, offsetHist := hist }
      let produced := w.buffer.len - lenBefore
      if blockMaximum < produced then (.error (.expandsPastBlockMaximum produced blockMaximum), w)
      else (.ok (), w)
  else if sections.sequencesSource ≠ [] then
    (.error (.decodeSequenceError (.extraBits (sections.sequencesSource.length * 8))), w)
  else
    let (result, buffer) := writeLiteralsOnly w.buffer literals
    (result, { w with buffer := buffer })

/-- `decompress_block_inplace_with_parts`: a compressed block whose content is at hand. -/
def decompressBlockInplace (w : Workspace B) (dict : Option Dictionary) (raw : List UInt8) :
    Except DecompressBlockError Unit × Workspace B :=
  let blockMaximum := w.buffer.blockMaximum
  match parseSections blockMaximum raw with
  | .error e => (.error e, w)
  | .ok sections =>
    match decodeLiteralsZerocopy sections.literals w.huf dict sections.literalsSource
        sections.literals.payloadLen with
    | (.error e, huf) => (.error (.decompressLiteralsError e), { w with huf := huf })
    | (.ok (literals, _), huf) => executeBlock { w with huf := huf } dict blockMaximum sections literals

/-- The body of a block out of a slice. The slice moves on only past a block that was accepted. -/
def decodeBlockContentFromSlice (header : BlockHeader) (w : Workspace B)
    (dict : Option Dictionary) (source : List UInt8) :
    Except DecodeBlockContentError Nat × Workspace B × List UInt8 :=
  match header.blockType with
  | .rle =>
    match source with
    | [] => (.error (.readError .rle), w, source)
    | fill :: rest =>
      match blockFitsTheMaximum header w.buffer.blockMaximum with
      | .error e => (.error e, w, source)
      | .ok _ => match w.buffer.tryExtendAndFill fill header.decompressedSize with
        | (.error _, buffer) =>
          (.error (.backendOverflow .rle), { w with buffer := buffer }, source)
        | (.ok _, buffer) => (.ok 1, { w with buffer := buffer }, rest)
  | .raw =>
    let n := header.decompressedSize
    if source.length < n then (.error (.readError .raw), w, source)
    else match blockFitsTheMaximum header w.buffer.blockMaximum with
      | .error e => (.error e, w, source)
      | .ok _ => match w.buffer.tryPush (source.take n) with
        | (.error _, buffer) =>
          (.error (.backendOverflow .raw), { w with buffer := buffer }, source)
        | (.ok _, buffer) => (.ok n, { w with buffer := buffer }, source.drop n)
  | .compressed =>
    match compressedContentFits header w.buffer.blockMaximum with
    | .error e => (.error e, w, source)
    | .ok _ =>
      let n := header.contentSize
      if source.length < n then (.error (.readError .compressed), w, source)
      else match decompressBlockInplace w dict (source.take n) with
        | (.error e, w) => (.error (.decompressBlockError e), w, source)
        | (.ok _, w) => (.ok n, w, source.drop n)

/-- The body of a block out of a reader, which has given up the bytes whatever comes of them. -/
def decodeBlockContent (header : BlockHeader) (w : Workspace B) (dict : Option Dictionary)
    (source : Reader) : Except DecodeBlockContentError Nat × Workspace B × Reader :=
  match header.blockType with
  | .rle =>
    match source.readExact 1 with
    | (some [fill], source) =>
      match blockFitsTheMaximum header w.buffer.blockMaximum with
      | .error e => (.error e, w, source)
      | .ok _ =>
        (.ok 1, { w with buffer := w.buffer.extendAndFill fill header.decompressedSize }, source)
    | (_, source) => (.error (.readError .rle), w, source)
  | .raw =>
    match blockFitsTheMaximum header w.buffer.blockMaximum with
    | .error e => (.error e, w, source)
    | .ok _ =>
      let n := header.decompressedSize
      let (data, source) := source.readExact n
      let w := { w with buffer := w.buffer.extendFromReader data n }
      if data.isSome then (.ok n, w, source) else (.error (.readError .raw), w, source)
  | .compressed =>
    match compressedContentFits header w.buffer.blockMaximum with
    | .error e => (.error e, w, source)
    | .ok _ =>
      match source.readExact header.contentSize with
      | (none, source) => (.error (.decompressBlockError .blockContentReadError), w, source)
      | (some raw, source) =>
        match decompressBlockInplace w dict raw with
        | (.error e, w) => (.error (.decompressBlockError e), w, source)
        | (.ok _, w) => (.ok header.contentSize, w, source)

end

end Decoding
