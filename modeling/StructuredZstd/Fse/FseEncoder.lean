import StructuredZstd.BitIo.BitWriter
import StructuredZstd.Fse.Distribution

namespace Fse.Encoder

open Bits BitIo

/-- The coding transform of one symbol, in 16.16 fixed point. -/
structure SymbolTT where
  deltaNbBits : Nat := 0
  deltaFindState : Int := 0
deriving Repr, DecidableEq

structure SymbolStates where
  startState : Option Nat := none
  probability : Int := 0
  maxNumBits : Option Nat := none
deriving Repr, DecidableEq

/-- A transition's outcome: how many bits it emits and the state it lands on. -/
structure State where
  numBits : Nat
  index : Nat
deriving Repr, DecidableEq

def maxFseTableSize : Nat := 1 <<< 9

/-- The encoder table of `fse_encoder.rs`. The per-symbol arrays are indexed by a byte, and hold
defaults from `liveSymbols` on. -/
structure FSETable where
  states : Nat → SymbolStates
  tableSize : Nat
  stateTableFlat : List Nat
  symbolTT : Nat → SymbolTT
  liveSymbols : Nat
  flat_length : stateTableFlat.length = maxFseTableSize
  dead : ∀ s, liveSymbols ≤ s → states s = {} ∧ symbolTT s = {}

namespace FSETable

def blank : FSETable where
  states := fun _ => {}
  tableSize := 0
  stateTableFlat := List.replicate maxFseTableSize 0
  symbolTT := fun _ => {}
  liveSymbols := 0
  flat_length := by simp
  dead _ _ := ⟨rfl, rfl⟩

/-- The transition on `symbol` out of state `idx`. A slot outside the table is the source's
undefined behaviour. -/
def nextState (t : FSETable) (symbol idx : Nat) : Option State :=
  let tt := t.symbolTT symbol
  let value := t.tableSize + idx
  let nbBits := (value + tt.deltaNbBits) >>> 16
  let slot : Int := (value >>> nbBits : Nat) + tt.deltaFindState
  if 0 ≤ slot ∧ slot < t.tableSize then some ⟨nbBits, t.stateTableFlat.getD slot.toNat 0⟩
  else none

/-- The state a stream starts from; an absent symbol panics. -/
def startState (t : FSETable) (symbol : Nat) : Option State := do
  let index ← (t.states symbol).startState
  some ⟨0, index⟩

def accLog (t : FSETable) : Nat := Nat.log2 t.tableSize

end FSETable

/-- The bits a transition out of `index` emits, given its width. -/
def transitionBits (index numBits : Nat) : Nat := index &&& (1 <<< numBits - 1)

/-- Phase 1: the `-1` symbols go to the top of the table. -/
def distributeLowProb : List Int → Nat → List Nat → Int → List Nat × Int
  | [], _, tableSymbol, highThreshold => (tableSymbol, highThreshold)
  | prob :: probs, symbol, tableSymbol, highThreshold =>
    if prob = -1 then
      distributeLowProb probs (symbol + 1)
        (tableSymbol.set highThreshold.toNat (symbol % 256)) (highThreshold - 1)
    else distributeLowProb probs (symbol + 1) tableSymbol highThreshold

/-- How far phase 1 moves the running slot count on. -/
def bump (prob : Int) : Nat :=
  if prob = -1 then 1 else if 0 < prob then prob.toNat else 0

/-- The running slot counts: entry `s` is the first slot of symbol `s` in symbol order. -/
def cumulative (probs : List Int) : List Nat :=
  probs.scanl (fun acc prob => acc + bump prob) 0

def step (tableSize : Nat) : Nat := (tableSize >>> 1) + (tableSize >>> 3) + 3

/-- The inner `while` of phase 2; a full round of the table bounds it. -/
def skipLowProbArea (tableSize : Nat) (highThreshold : Int) : Nat → Nat → Nat
  | 0, position => position
  | fuel + 1, position =>
    if (position : Int) > highThreshold then
      skipLowProbArea tableSize highThreshold fuel
        ((position + step tableSize) &&& (tableSize - 1))
    else position

/-- Phase 2, the copies of one symbol. -/
def spreadSymbol (tableSize : Nat) (highThreshold : Int) (symbol : Nat) :
    Nat → Nat → List Nat → Nat × List Nat
  | 0, position, tableSymbol => (position, tableSymbol)
  | n + 1, position, tableSymbol =>
    spreadSymbol tableSize highThreshold symbol n
      (skipLowProbArea tableSize highThreshold tableSize
        ((position + step tableSize) &&& (tableSize - 1)))
      (tableSymbol.set position (symbol % 256))

/-- Phase 2: the positive symbols are spread over the rest of the table. -/
def spread (tableSize : Nat) (highThreshold : Int) :
    List Int → Nat → Nat → List Nat → Nat × List Nat
  | [], _, position, tableSymbol => (position, tableSymbol)
  | prob :: probs, symbol, position, tableSymbol =>
    if prob ≤ 0 then spread tableSize highThreshold probs (symbol + 1) position tableSymbol
    else
      let (position, tableSymbol) :=
        spreadSymbol tableSize highThreshold symbol prob.toNat position tableSymbol
      spread tableSize highThreshold probs (symbol + 1) position tableSymbol

/-- Phase 3: each slot is filed under its symbol. -/
def scatter : List Nat → Nat → List Nat → List Nat → List Nat
  | [], _, _, flat => flat
  | s :: symbols, u, cursor, flat =>
    scatter symbols (u + 1) (cursor.set s (cursor.getD s 0 + 1)) (flat.set (cursor.getD s 0) u)

/-- The transform of a present symbol whose slots start at `total`; other probabilities are
unreachable. -/
def transform (accLog total : Nat) (prob : Int) : Option SymbolTT :=
  if prob = -1 ∨ prob = 1 then
    some ⟨accLog <<< 16 - 1 <<< accLog, total - 1⟩
  else if 1 < prob then
    let p := prob.toNat
    let maxBitsOut := accLog - Nat.log2 (p - 1)
    some ⟨maxBitsOut <<< 16 - p <<< maxBitsOut, total - prob⟩
  else none

/-- The start state of a transform: upstream's `FSE_initCState2`. -/
def initState (tt : SymbolTT) (flat : List Nat) : Nat :=
  let initNbBitsOut := (tt.deltaNbBits + 1 <<< 15) >>> 16
  let initValue := initNbBitsOut <<< 16 - tt.deltaNbBits
  flat.getD ((initValue >>> initNbBitsOut : Nat) + tt.deltaFindState).toNat 0

/-- Phase 4 for one symbol: its transform, start state and widest transition. -/
def symbolEntry (accLog : Nat) (flat : List Nat) (total : Nat) (prob : Int) :
    Option (SymbolStates × SymbolTT) :=
  if prob = 0 then
    some ({}, ⟨(accLog + 1) <<< 16 - 1 <<< accLog, 0⟩)
  else do
    let tt ← transform accLog total prob
    let maxNumBits := (2 * 1 <<< accLog - 1 + tt.deltaNbBits) >>> 16
    some ({ startState := some (initState tt flat), probability := prob,
            maxNumBits := some maxNumBits }, tt)

/-- Phase 4: the entries of all symbols, `total` counting the slots of those before. -/
def symbolTables (accLog : Nat) (flat : List Nat) :
    List Int → Nat → Option (List (SymbolStates × SymbolTT))
  | [], _ => some []
  | prob :: probs, total => do
    let entry ← symbolEntry accLog flat total prob
    let rest ← symbolTables accLog flat probs (total + prob.natAbs)
    some (entry :: rest)

theorem scatter_length (symbols : List Nat) (u : Nat) (cursor flat : List Nat) :
    (scatter symbols u cursor flat).length = flat.length := by
  induction symbols generalizing u cursor flat with
  | nil => rfl
  | cons s symbols ih => simp [scatter, ih]

/-- Overwrite a table: the symbols an earlier build left above the new alphabet are cleared. -/
def FSETable.install (out : FSETable) (tableSize : Nat) (tableSymbol cumul : List Nat)
    (entries : List (SymbolStates × SymbolTT)) : FSETable where
  states s := match entries[s]? with
    | some e => e.1
    | none => if s < out.liveSymbols then {} else out.states s
  tableSize := tableSize
  stateTableFlat := scatter tableSymbol 0 cumul out.stateTableFlat
  symbolTT s := match entries[s]? with
    | some e => e.2
    | none => if s < out.liveSymbols then {} else out.symbolTT s
  liveSymbols := entries.length
  flat_length := by rw [scatter_length, out.flat_length]
  dead s hs := by
    simp only [List.getElem?_eq_none hs]
    split
    · exact ⟨rfl, rfl⟩
    · exact out.dead s (by omega)

/-- Build the table of a normalized distribution into a table that may hold an earlier one. -/
def buildTableFromProbabilitiesInto (probs : List Int) (accLog : Nat) (out : FSETable) :
    Option FSETable :=
  let tableSize := 1 <<< accLog
  if maxFseTableSize < tableSize then none
  else
    let (tableSymbol, highThreshold) :=
      distributeLowProb probs 0 (List.replicate tableSize 0) (tableSize - 1)
    let cumul := cumulative probs
    let (position, tableSymbol) := spread tableSize highThreshold probs 0 0 tableSymbol
    if position ≠ 0 ∨ cumul.getD probs.length 0 ≠ tableSize then none
    else do
      let flat := scatter tableSymbol 0 cumul out.stateTableFlat
      let entries ← symbolTables accLog flat probs 0
      some (out.install tableSize tableSymbol cumul entries)

def buildTableFromProbabilities (probs : List Int) (accLog : Nat) : Option FSETable :=
  buildTableFromProbabilitiesInto probs accLog FSETable.blank

/-- The field of one probability: its value and width, short below the low threshold. -/
def ncountField (maxRemainingValue : Nat) (p : Int) : Nat × Nat :=
  let bitsToWrite := Nat.log2 maxRemainingValue + 1
  let lowThreshold := (1 <<< bitsToWrite - 1) - maxRemainingValue
  let mask := 1 <<< (bitsToWrite - 1) - 1
  let value := (p + 1).toNat
  if value < lowThreshold then (value, bitsToWrite - 1)
  else if mask < value then (value + lowThreshold, bitsToWrite)
  else (value, bitsToWrite)

/-- The zeros after a zero probability, in groups of three. -/
def writeZeroRun (len : Nat) (prob : Nat → Int) :
    Nat → Nat → Nat → BitWriter → Option (Nat × BitWriter)
  | 0, _, _, _ => none
  | fuel + 1, probIdx, zeros, w =>
    if probIdx < len ∧ prob probIdx = 0 then
      if zeros + 1 = 3 then do
        let w ← w.writeBits 3 2
        writeZeroRun len prob fuel (probIdx + 1) 0 w
      else writeZeroRun len prob fuel (probIdx + 1) (zeros + 1) w
    else do
      let w ← w.writeBits zeros 2
      some (probIdx, w)

/-- The loop of `write_ncount`; every round takes up a symbol, which bounds it. -/
def writeProbabilities (len : Nat) (prob : Nat → Int) (probabilitySum : Nat) :
    Nat → Nat → Nat → BitWriter → Option BitWriter
  | 0, _, _, _ => none
  | fuel + 1, probabilityCounter, probIdx, w =>
    if probabilityCounter < probabilitySum then do
      let p := prob probIdx
      let field := ncountField (probabilitySum - probabilityCounter + 1) p
      let w ← w.writeBits field.1 field.2
      if p = -1 then
        writeProbabilities len prob probabilitySum fuel (probabilityCounter + 1) (probIdx + 1) w
      else if 0 < p then
        writeProbabilities len prob probabilitySum fuel (probabilityCounter + p.toNat)
          (probIdx + 1) w
      else do
        let (probIdx, w) ← writeZeroRun len prob (len + 1) (probIdx + 1) 0 w
        writeProbabilities len prob probabilitySum fuel probabilityCounter probIdx w
    else some w

/-- Write the description of a normalized distribution, padded to a byte. -/
def writeNcount (len : Nat) (prob : Nat → Int) (accLog : Nat) (w : BitWriter) :
    Option BitWriter := do
  if w.index % 8 ≠ 0 then none
  let w ← w.writeBits (accLog - 5) 4
  let w ← writeProbabilities len prob (1 <<< accLog) (len + 1) 0 0 w
  w.writeBits 0 w.misaligned

/-- What `writeZeroRun` writes, counted. -/
def zeroRunBits (len : Nat) (prob : Nat → Int) : Nat → Nat → Nat → Nat → Option (Nat × Nat)
  | 0, _, _, _ => none
  | fuel + 1, probIdx, zeros, bits =>
    if probIdx < len ∧ prob probIdx = 0 then
      if zeros + 1 = 3 then zeroRunBits len prob fuel (probIdx + 1) 0 (bits + 2)
      else zeroRunBits len prob fuel (probIdx + 1) (zeros + 1) bits
    else some (probIdx, bits + 2)

/-- What `writeProbabilities` writes, counted. -/
def probabilityBits (len : Nat) (prob : Nat → Int) (probabilitySum : Nat) :
    Nat → Nat → Nat → Nat → Option Nat
  | 0, _, _, _ => none
  | fuel + 1, probabilityCounter, probIdx, bits =>
    if probabilityCounter < probabilitySum then
      let maxRemainingValue := probabilitySum - probabilityCounter + 1
      let bitsToWrite := Nat.log2 maxRemainingValue + 1
      let lowThreshold := (1 <<< bitsToWrite - 1) - maxRemainingValue
      let p := prob probIdx
      let bits := if (p + 1).toNat < lowThreshold then bits + (bitsToWrite - 1)
        else bits + bitsToWrite
      if p = -1 then
        probabilityBits len prob probabilitySum fuel (probabilityCounter + 1) (probIdx + 1) bits
      else if 0 < p then
        probabilityBits len prob probabilitySum fuel (probabilityCounter + p.toNat)
          (probIdx + 1) bits
      else do
        let (probIdx, bits) ← zeroRunBits len prob (len + 1) (probIdx + 1) 0 bits
        probabilityBits len prob probabilitySum fuel probabilityCounter probIdx bits
    else some bits

/-- The size of the description in bits, filled up to a byte. -/
def ncountHeaderBits (len : Nat) (prob : Nat → Int) (accLog : Nat) : Option Nat := do
  let bits ← probabilityBits len prob (1 <<< accLog) (len + 1) 0 0 4
  let misaligned := bits % 8
  some (if misaligned ≠ 0 then bits + (8 - misaligned) else bits)

def FSETable.writeTable (t : FSETable) (w : BitWriter) : Option BitWriter :=
  writeNcount 256 (fun i => (t.states i).probability) t.accLog w

/-- Emit the transition on `symbol` and move on to the state it lands on. -/
def encodeSymbolWithState (t : FSETable) (w : BitWriter) (stateIndex symbol : Nat) :
    Option (Nat × BitWriter) := do
  let next ← t.nextState symbol stateIndex
  let w ← w.writeBits (transitionBits stateIndex next.numBits) next.numBits
  some (next.index, w)

/-- The transitions of a run of symbols, first to last. -/
def encodeSymbols (t : FSETable) : List Nat → Nat → BitWriter → Option (Nat × BitWriter)
  | [], state, w => some (state, w)
  | x :: xs, state, w => do
    let (state, w) ← encodeSymbolWithState t w state x
    encodeSymbols t xs state w

/-- The end mark, filled up to a byte. -/
def writeEndMark (w : BitWriter) : Option BitWriter :=
  if w.misaligned = 0 then w.writeBits 1 8 else w.writeBits 1 w.misaligned

/-- Encode with one state, last symbol first. -/
def encode (t : FSETable) (data : List Nat) (w : BitWriter) : Option BitWriter := do
  let w ← t.writeTable w
  let last ← data.getLast?
  let start ← t.startState last
  let (state, w) ← encodeSymbols t data.dropLast.reverse start.index w
  let w ← w.writeBits state t.accLog
  writeEndMark w

/-- One symbol for the second state, then one for the first. -/
def encodePair (t : FSETable) (x y state1 state2 : Nat) (w : BitWriter) :
    Option (Nat × Nat × BitWriter) := do
  let (state2, w) ← encodeSymbolWithState t w state2 x
  let (state1, w) ← encodeSymbolWithState t w state1 y
  some (state1, state2, w)

/-- The pairs of the main loop, which the source unrolls by two. -/
def encodePairs (t : FSETable) : List Nat → Nat → Nat → BitWriter → Option (Nat × Nat × BitWriter)
  | [], state1, state2, w => some (state1, state2, w)
  | [_], _, _, _ => none
  | x :: y :: rest, state1, state2, w => do
    let (state1, state2, w) ← encodePair t x y state1 state2 w
    encodePairs t rest state1 state2 w

/-- The two start states, and the odd symbol that brings the rest to pairs. The symbols come
last first, as the source walks its index down. -/
def startInterleaved (t : FSETable) : List Nat → Bool → BitWriter →
    Option (Nat × Nat × List Nat × BitWriter)
  | a :: b :: c :: rest, true, w => do
    let s1 ← t.startState a
    let s2 ← t.startState b
    let (state1, w) ← encodeSymbolWithState t w s1.index c
    some (state1, s2.index, rest, w)
  | a :: b :: rest, false, w => do
    let s2 ← t.startState a
    let s1 ← t.startState b
    some (s1.index, s2.index, rest, w)
  | _, _, _ => none

/-- The pair that leaves a multiple of four symbols to the main loop. -/
def encodeLeadingPair (t : FSETable) (remaining : Nat) (symbols : List Nat) (state1 state2 : Nat)
    (w : BitWriter) : Option (Nat × Nat × List Nat × BitWriter) :=
  if remaining &&& 2 ≠ 0 then
    match symbols with
    | x :: y :: rest => do
      let (state1, state2, w) ← encodePair t x y state1 state2 w
      some (state1, state2, rest, w)
    | _ => none
  else some (state1, state2, symbols, w)

/-- Encode with two states taking turns. -/
def encodeInterleaved (t : FSETable) (data : List Nat) (w : BitWriter) : Option BitWriter := do
  let w ← t.writeTable w
  if data.length < 2 then none
  let (state1, state2, rest, w) ← startInterleaved t data.reverse (data.length % 2 = 1) w
  let (state1, state2, rest, w) ← encodeLeadingPair t (data.length - 2) rest state1 state2 w
  let (state1, state2, w) ← encodePairs t rest state1 state2 w
  let w ← w.writeBits state2 t.accLog
  let w ← w.writeBits state1 t.accLog
  writeEndMark w

end Fse.Encoder
