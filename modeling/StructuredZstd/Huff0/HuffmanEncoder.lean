import StructuredZstd.Huff0.HuffmanDecoder

namespace Huff0.Encoder

open Fse.Decoder (highestBitSet)

/-- A code as the hot loop reads it: the width in the low byte, the value in the top bits. -/
def packHufCelt (value nbBits : Nat) : Nat :=
  if nbBits = 0 then 0 else nbBits ||| value <<< (64 - nbBits)

/-- The encoder table of `huff0_encoder.rs`: a code and its width for every symbol described, and
the packed codes of all bytes, zero past those. -/
structure HuffmanTable where
  codes : List (Nat × Nat)
  packedCodes : List Nat
  tableLog : Nat
  codes_le : codes.length ≤ 256
  packed_length : packedCodes.length = 256
  dead : ∀ s, codes.length ≤ s → packedCodes.getD s 0 = 0

/-- The first code of every width, and the running minimum, after `k` widths from the longest. -/
def firstCodesStep (perWeight : Nat → Nat) (tableLog k : Nat) (acc : List Nat × Nat) :
    List Nat × Nat :=
  let nbBits := tableLog - k
  (acc.1.set nbBits acc.2, ((acc.2 + perWeight (tableLog + 1 - nbBits)) % 2 ^ 16) >>> 1)

def firstCodes (perWeight : Nat → Nat) (tableLog : Nat) : List Nat :=
  ((List.range tableLog).foldl (fun acc k => firstCodesStep perWeight tableLog k acc)
    (List.replicate 13 0, 0)).1

/-- Hand out the codes of each width in symbol order. -/
def assignCodes (tableLog : Nat) : List Nat → List Nat → List (Nat × Nat)
  | [], _ => []
  | weight :: weights, valPerRank =>
    if weight = 0 then (0, 0) :: assignCodes tableLog weights valPerRank
    else
      let nbBits := tableLog + 1 - weight
      let value := valPerRank.getD nbBits 0
      (value, nbBits) :: assignCodes tableLog weights (valPerRank.set nbBits (value + 1))

theorem assignCodes_length (tableLog : Nat) (weights valPerRank : List Nat) :
    (assignCodes tableLog weights valPerRank).length = weights.length := by
  induction weights generalizing valPerRank with
  | nil => rfl
  | cons w weights ih =>
    rw [assignCodes]
    split
    · simp [ih]
    · simp [ih]

/-- The sum the weights of a complete code bring to a power of two. -/
def weightSum (perWeight : Nat → Nat) : Nat :=
  ((List.range' 1 12).map fun weight => perWeight weight <<< (weight - 1)).sum

/-- The packed codes of a new table over those of a discarded one: the old codes past the new
alphabet are cleared. -/
def packCodes (codes : List (Nat × Nat)) (spare : Option HuffmanTable) : List Nat :=
  codes.map (fun c => packHufCelt c.1 c.2) ++
    match spare with
    | none => List.replicate (256 - codes.length) 0
    | some old =>
      let stale := max old.codes.length codes.length
      List.replicate (stale - codes.length) 0 ++ old.packedCodes.drop stale

namespace HuffmanTable

theorem packCodes_length {codes : List (Nat × Nat)} (h : codes.length ≤ 256)
    (spare : Option HuffmanTable) : (packCodes codes spare).length = 256 := by
  cases spare with
  | none =>
    simp [packCodes]
    omega
  | some old =>
    have := old.codes_le
    simp [packCodes, old.packed_length]
    omega

theorem packCodes_dead {codes : List (Nat × Nat)} (spare : Option HuffmanTable) (s : Nat)
    (hs : codes.length ≤ s) : (packCodes codes spare).getD s 0 = 0 := by
  unfold packCodes
  rw [List.getD_eq_getElem?_getD, List.getElem?_append_right (by simpa using hs),
    List.length_map]
  cases spare with
  | none =>
    simp only [List.getElem?_replicate]
    split <;> rfl
  | some old =>
    simp only
    rcases Nat.lt_or_ge (s - codes.length) (max old.codes.length codes.length - codes.length)
      with h | h
    · rw [List.getElem?_append_left (by simpa using h), List.getElem?_replicate, if_pos h]
      rfl
    · rw [List.getElem?_append_right (by simpa using h), List.length_replicate,
        List.getElem?_drop, ← List.getD_eq_getElem?_getD]
      exact old.dead _ (by omega)

/-- Build a table from weights into a discarded one. A weight above twelve, more than 256 symbols,
weights that do not complete a code and a log past the thirteen entries of `val_per_rank` panic. -/
def buildFromWeightsReusing (weights : List Nat) (spare : Option HuffmanTable) :
    Option HuffmanTable :=
  if weights.all (· ≤ 12) then
    let perWeight (weight : Nat) : Nat := weights.count weight
    let sum := weightSum perWeight
    let tableLog := highestBitSet sum - 1
    if h : sum.isPowerOfTwo ∧ weights.length ≤ 256 ∧ tableLog ≤ 12 then
      let codes := assignCodes tableLog weights (firstCodes perWeight tableLog)
      some
        { codes := codes
          packedCodes := packCodes codes spare
          tableLog := tableLog
          codes_le := (assignCodes_length _ _ _).trans_le h.2.1
          packed_length := packCodes_length ((assignCodes_length _ _ _).trans_le h.2.1) spare
          dead := packCodes_dead spare }
    else none
  else none

def buildFromWeights (weights : List Nat) : Option HuffmanTable :=
  buildFromWeightsReusing weights none

end HuffmanTable

end Huff0.Encoder

namespace Huff0.Decoder.HuffmanTable

/-- The encoder table of the code lengths a description gave; `none` inside is a panic of the
builder. -/
def toEncoderTable (t : HuffmanTable) : Option (Option Encoder.HuffmanTable) :=
  if t.bits = [] ∨ t.maxNumBits = 0 then none
  else
    some (Encoder.HuffmanTable.buildFromWeights
      (t.bits.map fun numBits => if numBits = 0 then 0 else t.maxNumBits - numBits + 1))

/-- Read a description without filling the decode table. -/
def buildWeightsOnly (t : HuffmanTable) (source : List UInt8) :
    Except Decoding.HuffmanTableError Nat × HuffmanTable :=
  match { t with packedDecode := [] }.readWeights source with
  | (.error e, t) => (.error e, t)
  | (.ok bytesUsed, t) => match t.computeHuffmanBits with
    | (.error e, t) => (.error e, t)
    | (.ok _, t) => (.ok bytesUsed, t)

end Huff0.Decoder.HuffmanTable
