import StructuredZstd.Decoding.DecodeBuffer
import StructuredZstd.Huff0.HuffmanDecoder

namespace Decoding

open Fse.Decoder Huff0.Decoder

def maxLiteralLengthCode : Nat := 35

def maxMatchLengthCode : Nat := 52

def maxOffsetCode : Nat := 31

/-- The three most recent offsets. -/
structure OffsetHist where
  first : Nat
  second : Nat
  third : Nat
deriving Repr, DecidableEq

def OffsetHist.initial : OffsetHist := ⟨1, 4, 8⟩

inductive TableSource where
  | local
  | dict
deriving Repr, DecidableEq

inductive SeqTableSource where
  | local
  | dict
  | predefined (table : SeqFSETable)
deriving Repr, DecidableEq

structure HuffmanScratch where
  table : HuffmanTable
  tableSource : TableSource
deriving Repr, DecidableEq

structure FSEScratch where
  offsets : SeqFSETable
  literalLengths : SeqFSETable
  matchLengths : SeqFSETable
  offsetsLongShare : Nat
  ddictIsCold : Bool
  llSource : SeqTableSource
  ofSource : SeqTableSource
  mlSource : SeqTableSource
deriving Repr, DecidableEq

/-- A parsed dictionary. Its own tables are always local ones. -/
structure Dictionary where
  id : Nat
  fse : FSEScratch
  huf : HuffmanScratch
  dictContent : List UInt8
  offsetHist : OffsetHist
deriving Repr, DecidableEq

namespace HuffmanScratch

def new : HuffmanScratch := ⟨.new, .local⟩

/-- The table in use. The source panics on a `dict` source without a dictionary. -/
def hufTable (h : HuffmanScratch) (dict : Option Dictionary) : HuffmanTable :=
  match h.tableSource, dict with
  | .local, _ => h.table
  | .dict, some d => d.huf.table
  | .dict, none => .new

def attachDict (h : HuffmanScratch) : HuffmanScratch := { h with tableSource := .dict }

def detachDict (h : HuffmanScratch) : HuffmanScratch := { h with tableSource := .local }

def markTableLocal (h : HuffmanScratch) : HuffmanScratch := { h with tableSource := .local }

def reinitResolvedFrom (h other : HuffmanScratch) (dict : Option Dictionary) : HuffmanScratch :=
  { h with table := h.table.reinitFrom (other.hufTable dict) }.detachDict

end HuffmanScratch

namespace FSEScratch

def new : FSEScratch where
  offsets := .new maxOffsetCode
  literalLengths := .new maxLiteralLengthCode
  matchLengths := .new maxMatchLengthCode
  offsetsLongShare := 0
  ddictIsCold := false
  llSource := .local
  ofSource := .local
  mlSource := .local

/-- One axis resolved: its own table, the dictionary's or the predefined one. -/
def resolve (source : SeqTableSource) (own : SeqFSETable) (dict : Option SeqFSETable) :
    SeqFSETable :=
  match source, dict with
  | .local, _ => own
  | .dict, some table => table
  | .dict, none => .new 0
  | .predefined table, _ => table

def llTable (f : FSEScratch) (dict : Option Dictionary) : SeqFSETable :=
  resolve f.llSource f.literalLengths (dict.map (·.fse.literalLengths))

def ofTable (f : FSEScratch) (dict : Option Dictionary) : SeqFSETable :=
  resolve f.ofSource f.offsets (dict.map (·.fse.offsets))

def mlTable (f : FSEScratch) (dict : Option Dictionary) : SeqFSETable :=
  resolve f.mlSource f.matchLengths (dict.map (·.fse.matchLengths))

def attachDict (f : FSEScratch) (d : Dictionary) : FSEScratch :=
  { f with
    offsetsLongShare := d.fse.offsetsLongShare
    llSource := .dict
    ofSource := .dict
    mlSource := .dict }

def detachDict (f : FSEScratch) : FSEScratch :=
  { f with llSource := .local, ofSource := .local, mlSource := .local }

def reinitFrom (f other : FSEScratch) (dict : Option Dictionary) : FSEScratch where
  literalLengths := f.literalLengths.reinitFrom (other.llTable dict)
  offsets := f.offsets.reinitFrom (other.ofTable dict)
  matchLengths := f.matchLengths.reinitFrom (other.mlTable dict)
  offsetsLongShare := other.offsetsLongShare
  ddictIsCold := false
  llSource := .local
  ofSource := .local
  mlSource := .local

end FSEScratch

/-- Forget the tables of the last frame; a table that holds nothing is left as it is. -/
def resetEntropy (huf : HuffmanScratch) (fse : FSEScratch) : HuffmanScratch × FSEScratch :=
  let resetPopulated (t : SeqFSETable) : SeqFSETable := if t.isPopulated then t.reset else t
  let fse := { fse with
    literalLengths := resetPopulated fse.literalLengths
    matchLengths := resetPopulated fse.matchLengths
    offsets := resetPopulated fse.offsets
    offsetsLongShare := 0 }.detachDict
  let huf := if huf.table.maxNumBits ≠ 0 then { huf with table := huf.table.reset } else huf
  (huf.detachDict, { fse with ddictIsCold := false })

/-- The state a block is decoded in: the tables, the output and the offset history. The two
byte buffers of the source are cleared before each use and hold nothing between blocks. -/
structure Workspace (B : Type) where
  huf : HuffmanScratch
  fse : FSEScratch
  buffer : DecodeBuffer B
  offsetHist : OffsetHist

namespace Workspace

variable {B : Type} [BufferBackend B]

def new (windowSize : Nat) : Workspace B := ⟨.new, .new, .new windowSize, .initial⟩

def reset (w : Workspace B) (windowSize : Nat) : Workspace B :=
  let (huf, fse) := resetEntropy w.huf w.fse
  ⟨huf, fse, w.buffer.reset windowSize, .initial⟩

def initFromDict (w : Workspace B) (d : Dictionary) : Workspace B :=
  { w with
    fse := { w.fse.attachDict d with ddictIsCold := true }
    huf := w.huf.attachDict
    offsetHist := d.offsetHist }

end Workspace

end Decoding
