import StructuredZstd.Encoding.ChunkWindow
import StructuredZstd.Lz.SlotTables

namespace Encoding

open Lz

def zstdHashLogMax : Nat := 30
def slotTagBits : Nat := 8
def taggedPositionLimit : Nat := 1 <<< (32 - slotTagBits)

/-- The positions `advance_epoch` leaves room for above the bias. -/
def positionCeiling : Nat := 1 <<< 31

/-- The hash table of the Fast matcher: `u32` slots, the bias of the current epoch, and how many
low bits of a slot are a tag. -/
structure FastHashTable where
  table : List Nat
  hashLog : Nat
  mls : Nat
  bias : Nat
  tagBits : Nat
deriving Repr, DecidableEq

/-- `validate_params` accepts. -/
def validParams (hashLog mls : Nat) : Bool :=
  decide (1 ≤ hashLog ∧ hashLog ≤ zstdHashLogMax ∧ 4 ≤ mls ∧ mls ≤ 8)

namespace FastHashTable

variable (t : FastHashTable)

/-- The table without its entries, which the first `bind` lays out. -/
def newDeferred (hashLog mls : Nat) : FastHashTable := ⟨[], hashLog, mls, 0, 0⟩

def isTagged : Bool := t.tagBits != 0

/-- Lay the table out at a shape: whether it goes on from the previous frame's, contents and bias
intact. `kept` is what the workspace says of the entries. -/
def bind (kept : Bool) (hashLog mls : Nat) (tagged : Bool) : Option (FastHashTable × Bool) :=
  let tagBits := if tagged then slotTagBits else 0
  if validParams hashLog mls ∧ hashLog + tagBits ≤ 32 then
    let sameShape := t.hashLog == hashLog && t.mls == mls && t.tagBits == tagBits
    if kept && sameShape then
      some ({ t with hashLog := hashLog, mls := mls, tagBits := tagBits }, true)
    else
      some (⟨List.replicate (1 <<< hashLog) 0, hashLog, mls, 0, tagBits⟩, false)
  else none

/-- Stop tagging: only for a table that holds nothing. -/
def untagEmpty : FastHashTable := { t with tagBits := 0 }

def clear : FastHashTable := { t with table := t.table.map fun _ => 0, bias := 0 }

/-- Slide every stored position down. -/
def reduceIndices (dropN : Nat) : FastHashTable :=
  let correction := (((t.bias + dropN) % 2 ^ 32) <<< t.tagBits) % 2 ^ 32
  { t with table := t.table.map (· - correction), bias := 0 }

/-- The next epoch's bias still leaves `positionCeiling` positions above it. -/
def epochFits (span : Nat) : Bool := decide (t.bias + span ≤ u32Max - positionCeiling)

/-- Put every stored position behind the bias, or clear where the bias would grow too large. -/
def advanceEpoch (span : Nat) : FastHashTable :=
  if t.epochFits span then { t with bias := t.bias + span } else t.clear

/-- The raw word in the slot a hash lands on. -/
def slot (hash : Nat) : Nat := t.table.getD (hash >>> t.tagBits) 0

/-- The position stored under a hash, or zero. -/
def get (hash : Nat) : Nat :=
  let raw := t.slot hash
  if t.tagBits ≠ 0 then
    if (raw ^^^ hash) &&& (1 <<< t.tagBits - 1) = 0 then raw >>> t.tagBits else 0
  else raw - t.bias

def slotIsEmpty (hash : Nat) : Bool := t.slot hash - t.bias == 0

/-- The word a slot takes for a position. -/
def stored (hash pos : Nat) : Nat :=
  (((pos + t.bias) % 2 ^ 32) <<< t.tagBits) % 2 ^ 32 ||| (hash &&& (1 <<< t.tagBits - 1))

def put (hash pos : Nat) : FastHashTable :=
  { t with table := t.table.set (hash >>> t.tagBits) (t.stored hash pos) }

end FastHashTable

end Encoding
