import StructuredZstd.Encoding.FastMatcher
import StructuredZstd.Encoding.MatchTable
import StructuredZstd.Lz.SlotTables

namespace Encoding

open Lz
open MatchGeneratorDriver (primeSliceLen)

def prime4Bytes : Nat := 0x9E3779B1
def prime5Bytes : Nat := 889523592379
def prime6Bytes : Nat := 227718039650203
def prime7Bytes : Nat := 58295818150454627
def prime8Bytes : Nat := 0xCF1BBCDCB7A56463

def hashTopBits (product width : Nat) : Nat := product >>> (64 - width)

/-- The hash of the bytes at `idx`, `hashLog` bits wide. -/
def hashPtrRaw (mls : Nat) (data : List UInt8) (idx hashLog : Nat) : Nat :=
  match mls with
  | 4 => (readLe data idx 4 * prime4Bytes % 2 ^ 32) >>> (32 - hashLog)
  | 5 => hashTopBits (readLe data idx 8 <<< (64 - 40) % 2 ^ 64 * prime5Bytes % 2 ^ 64) hashLog
  | 6 => hashTopBits (readLe data idx 8 <<< (64 - 48) % 2 ^ 64 * prime6Bytes % 2 ^ 64) hashLog
  | 7 => hashTopBits (readLe data idx 8 <<< (64 - 56) % 2 ^ 64 * prime7Bytes % 2 ^ 64) hashLog
  | 8 => hashTopBits (readLe data idx 8 * prime8Bytes % 2 ^ 64) hashLog
  | _ => 0

def dictTagMask : Nat := 1 <<< dictTagBits - 1

def fillStep : Nat := 3

namespace FastHashTable

def new (hashLog mls : Nat) : Option FastHashTable :=
  if validParams hashLog mls then some ⟨List.replicate (1 <<< hashLog) 0, hashLog, mls, 0, 0⟩
  else none

def hashPtr (t : FastHashTable) (data : List UInt8) (idx : Nat) : Nat :=
  hashPtrRaw t.mls data idx (t.hashLog + t.tagBits)

/-- A group of a copied dictionary: its first position overwrites, the others take empty slots. -/
def copyGroup (data : List UInt8) (s : Nat) (t : FastHashTable) : FastHashTable :=
  (List.range' 1 (fillStep - 1)).foldl
    (fun t p =>
      if t.slotIsEmpty (t.hashPtr data (s + p)) then
        t.put (t.hashPtr data (s + p)) ((s + p) % 2 ^ 32)
      else t)
    (t.put (t.hashPtr data s) (s % 2 ^ 32))

/-- The word a dictionary table holds for a position, its own tag beside it. -/
def dictWord (pos hat : Nat) : Nat :=
  ((pos % 2 ^ 32) <<< dictTagBits) % 2 ^ 32 ||| (hat &&& dictTagMask)

/-- A group of an attached dictionary. -/
def dictGroup (data : List UInt8) (mls s : Nat) (t : FastHashTable) : FastHashTable :=
  let hat (t : FastHashTable) (pos : Nat) := hashPtrRaw mls data pos (t.hashLog + dictTagBits)
  (List.range' 1 (fillStep - 1)).foldl
    (fun t p =>
      if t.get (hat t (s + p) >>> dictTagBits) = 0 then
        t.put (hat t (s + p) >>> dictTagBits) (dictWord (s + p) (hat t (s + p)))
      else t)
    (t.put (hat t s >>> dictTagBits) (dictWord s (hat t s)))

end FastHashTable

/-- The slices a dictionary is primed in; none where a slice would be too short to hash. -/
def primeCuts (sliceSize minTail : Nat) (rest : List UInt8) : Option (List (List UInt8)) :=
  if rest = [] then some []
  else
    match primeSliceLen sliceSize minTail rest.length with
    | none => none
    | some len =>
      if _h : len = 0 ∨ len < minTail then none
      else (primeCuts sliceSize minTail (rest.drop len)).map (rest.take len :: ·)
termination_by rest.length
decreasing_by
  have hne : 0 < rest.length := List.length_pos_iff.mpr ‹_›
  rw [List.length_drop]
  omega

/-- The shortest slice the Fast backend is primed with. -/
def fastMinPrimedTail : Nat := 5

/-- The Fast matcher with the table of its attached dictionary, and the width the driver resolved
for that table. -/
structure DictionaryFill where
  matcher : FastKernelMatcher
  dictTable : Option FastHashTable
  dictTableHashLog : Option Nat

namespace DictionaryFill

variable (cdictTableLog : Nat → Nat → Nat) (f : DictionaryFill)

def window : FastWindow := f.matcher.window

def setWindow (w : FastWindow) : DictionaryFill :=
  { f with matcher := { f.matcher with window := w } }

/-- The attached dictionary and its table replaced. -/
def setDict (dict : DictAttach × Option FastHashTable) : DictionaryFill :=
  { f.setWindow { f.window with dict := dict.1 } with dictTable := dict.2 }

/-- The live table replaced, and where a copied dictionary's next slice resumes. -/
def setLive (filled : FastHashTable × Nat) : DictionaryFill :=
  { f with matcher := { f.matcher with hashTable := filled.1, dictCopyFillNext := filled.2 } }

/-- The dictionary's state with the slice just committed indexed into its own table; a failed
assertion gives none. -/
def filledDict (dictLen : Nat) : Option (DictAttach × Option FastHashTable) :=
  let historyLen := f.window.committedLen
  let lastHashable := historyLen - hashReadSize
  let dict := { f.window.dict with regionLen := historyLen }
  if dict.primed ∨ historyLen < hashReadSize ∨
      lastHashable < max dict.nextToUpdate f.window.dictIndexFloor then
    some (dict, f.dictTable)
  else
    let mls := f.matcher.hashTable.mls
    let hashLog := f.dictTableHashLog.getD (cdictTableLog f.matcher.hashTable.hashLog dictLen)
    let stale := f.dictTable.any fun t => t.hashLog != hashLog || t.mls != mls
    let dict := if stale then { DictAttach.new with regionLen := historyLen } else dict
    let kept := if stale then none else f.dictTable
    (kept.or (FastHashTable.new hashLog mls)).bind fun t =>
      if t.hashLog + dictTagBits ≤ 32 ∧ lastHashable >>> (32 - dictTagBits) = 0 then
        let filled := strideFill (FastHashTable.dictGroup f.window.live mls) fillStep
          (lastHashable + 2) (max dict.nextToUpdate f.window.dictIndexFloor) t
        some ({ dict with attached := true, nextToUpdate := filled.2 }, some filled.1)
      else none

def primeDictTableForRange (dictLen : Nat) : Option DictionaryFill :=
  (f.filledDict cdictTableLog dictLen).map f.setDict

/-- The live table with the slice just committed indexed into it. -/
def filledLive : FastHashTable × Nat :=
  let historyLen := f.window.committedLen
  let lastHashable := historyLen - hashReadSize
  let fillStart := max f.matcher.dictCopyFillNext f.window.dictIndexFloor
  if historyLen < hashReadSize ∨ lastHashable < fillStart then
    (f.matcher.hashTable, f.matcher.dictCopyFillNext)
  else
    strideFill (FastHashTable.copyGroup f.window.live) fillStep (lastHashable + 2) fillStart
      f.matcher.hashTable

def primeHashTableForDictCopy : DictionaryFill := f.setLive f.filledLive

def takeStagedBlock : Option DictionaryFill :=
  f.matcher.takeStagedBlock.map fun taken => { f with matcher := taken.1 }

def skipMatchingForDictPrime (dictLen : Nat) : Option DictionaryFill :=
  f.takeStagedBlock.bind fun f => f.primeDictTableForRange cdictTableLog dictLen

def skipMatchingForDictCopy : Option DictionaryFill :=
  (f.setDict (f.window.dict.invalidate, none)).takeStagedBlock.map fun f =>
    let f := f.primeHashTableForDictCopy
    f.setWindow { f.window with loadedDictEnd := f.window.committedLen }

/-- Commit the bytes at the history's end: dropping older ones voids the dictionary's table. -/
def commitBlock (len : Nat) : Option DictionaryFill :=
  (f.matcher.commitBlock len).map fun m =>
    { f with
      matcher := m
      dictTable := if f.window.evictedBy len > 0 then none else f.dictTable }

/-- One slice of a dictionary: appended, committed, indexed. -/
def primeSlice (attach : Bool) (dictLen : Nat) (chunk : List UInt8) : Option DictionaryFill :=
  ((f.setWindow (f.window.fillUncommitted chunk)).commitBlock chunk.length).bind fun f =>
    if attach then f.skipMatchingForDictPrime cdictTableLog dictLen
    else f.skipMatchingForDictCopy

/-- Commit and index a dictionary slice by slice. -/
def primeSlices (attach : Bool) (dictLen sliceSize : Nat) (f : DictionaryFill)
    (rest : List UInt8) : Option DictionaryFill :=
  if rest = [] then some f
  else
    match primeSliceLen sliceSize fastMinPrimedTail rest.length with
    | none => none
    | some len =>
      if _h : len < fastMinPrimedTail then none
      else
        (f.primeSlice cdictTableLog attach dictLen (rest.take len)).bind fun f =>
          primeSlices attach dictLen sliceSize f (rest.drop len)
termination_by rest.length
decreasing_by
  have hne : 0 < rest.length := List.length_pos_iff.mpr ‹_›
  simp only [fastMinPrimedTail] at _h
  rw [List.length_drop]
  omega

/-- `prime_with_dictionary` for a matcher whose dictionary is not in place already. -/
def primeWithDictionary (attach : Bool) (sliceSize reachLog : Nat) (dictContent : List UInt8) :
    Option DictionaryFill :=
  if dictContent = [] then some f
  else
    let base := f.window.maxWindowSize
    let floor := dictContent.length - 1 <<< reachLog
    let floored := f.setWindow { f.window with dictIndexFloor := floor }
    let widened :=
      { floored with matcher := floored.matcher.widenForDictionary dictContent.length }
    let hashable := dictContent.length ≥ fastMinPrimedTail
    (widened.primeSlices cdictTableLog attach dictContent.length sliceSize
        (if hashable then dictContent else [])).map fun f =>
      let committed := if hashable then dictContent.length else 0
      f.setWindow
        { f.window with
          maxWindowSize := base + min committed (maxPrimedWindowSize - base)
          dict := f.window.dict.markPrimed
          dictIndexFloor := 0 }

end DictionaryFill

end Encoding
