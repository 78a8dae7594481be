import StructuredZstd.BitIo.BitReaderReversed

namespace Fse.Decoder

open Bits BitIo

inductive FSETableError where
  | accLogIsZero
  | accLogTooBig (got max : Nat)
  | getBitsError (requested remaining : Nat)
  | probabilityCounterMismatch (got expectedSum : Nat) (symbolProbabilities : List Int)
  | tooManySymbols (got : Nat)
  | invalidProbability (value : Int) (tableSize accuracyLog : Nat)
  | tableInvariantViolation (prob : Int) (symbol numBits accuracyLog : Nat)
deriving Repr, DecidableEq

inductive FSEDecoderError where
  | tableIsUninitialized
  | invalidTableShape (decodeLen accuracyLog : Nat)
deriving Repr, DecidableEq

/-- A decode entry: what the state machine needs, and a constructor that may drop the symbol. -/
class FseEntry (E : Type) extends Inhabited E where
  numBits : E → Nat
  newState : E → Nat
  withSeqMeta : E → Nat → Nat → E
  fromRaw : Nat → Nat → Nat → E

/-- The entry of the weight tables, which keeps the symbol. -/
structure Entry where
  newState : Nat := 0
  symbol : Nat := 0
  numBits : Nat := 0
deriving Repr, DecidableEq, Inhabited

instance : FseEntry Entry where
  numBits := Entry.numBits
  newState := Entry.newState
  withSeqMeta e _ _ := e
  fromRaw newState symbol numBits := ⟨newState, symbol, numBits⟩

/-- The entry of the sequence tables: the symbol is replaced by what it stands for. -/
structure SeqSymbol where
  newState : Nat := 0
  numBits : Nat := 0
  numAdditionalBits : Nat := 0
  baseValue : Nat := 0
deriving Repr, DecidableEq, Inhabited

instance : FseEntry SeqSymbol where
  numBits := SeqSymbol.numBits
  newState := SeqSymbol.newState
  withSeqMeta e baseValue numAdditionalBits :=
    { e with baseValue := baseValue, numAdditionalBits := numAdditionalBits }
  fromRaw newState _ numBits := { newState := newState, numBits := numBits }

/-- What the build fuses into the entries of a sequence table. -/
inductive SeqMeta where
  | none
  | packed (codes : List Nat)
  | offsets
deriving Repr, DecidableEq

/-- The decode table; `decode` is the live span of the fixed array of `cap` entries. -/
structure FSETableImpl (E : Type) (cap : Nat) where
  maxSymbol : Nat
  decode : List E := []
  symbolSpreadBuffer : List Nat := []
  accuracyLog : Nat := 0
  symbolProbabilities : List Int := []
deriving Repr, DecidableEq

def entryMaxAccuracyLog : Nat := 16

def accLogOffset : Nat := 5

/-- The index of the highest set bit plus one; the source panics on zero. -/
def highestBitSet (x : Nat) : Nat := if x = 0 then 0 else Nat.log2 x + 1

def nextPosition (p tableSize : Nat) : Nat :=
  (p + ((tableSize >>> 1) + (tableSize >>> 3) + 3)) &&& (tableSize - 1)

/-- Pass 1: the `-1` symbols at the top of the spread, each with its counter at one. -/
def placeLowProb : List Int → Nat → List Nat → Nat → List Nat → List Nat × Nat × List Nat
  | [], _, spread, negativeIdx, symbolNext => (spread, negativeIdx, symbolNext)
  | prob :: probs, symbol, spread, negativeIdx, symbolNext =>
    if prob = -1 then
      placeLowProb probs (symbol + 1) (spread.set (negativeIdx - 1) (symbol % 256))
        (negativeIdx - 1) (symbolNext.set symbol 1)
    else placeLowProb probs (symbol + 1) spread negativeIdx symbolNext

/-- Overwrite eight bytes from `pos`. -/
def copyEight (buf : List Nat) (pos byte : Nat) : List Nat :=
  buf.take pos ++ List.replicate 8 byte ++ buf.drop (pos + 8)

/-- Eight copies of a symbol at `pos`, then eight more for every further eight of its run. -/
def layRun (byte : Nat) : Nat → List Nat → Nat → List Nat
  | 0, buf, _ => buf
  | k + 1, buf, pos => layRun byte k (copyEight buf pos byte) (pos + 8)

/-- The in-order stage of the fast spread. -/
def layInOrder : List Int → Nat → List Nat → Nat → List Nat → List Nat × List Nat
  | [], _, inOrder, _, symbolNext => (inOrder, symbolNext)
  | prob :: probs, symbol, inOrder, pos, symbolNext =>
    if prob ≤ 0 then layInOrder probs (symbol + 1) inOrder pos symbolNext
    else
      layInOrder probs (symbol + 1)
        (layRun (symbol % 256) ((prob.toNat + 7) / 8) inOrder pos) (pos + prob.toNat)
        (symbolNext.set symbol prob.toNat)

/-- The distribution stage of the fast spread, two symbols a round. -/
def distributePairs (tableSize : Nat) (inOrder : List Nat) : Nat → Nat → Nat → List Nat → List Nat
  | 0, _, _, spread => spread
  | k + 1, s, position, spread =>
    let step := (tableSize >>> 1) + (tableSize >>> 3) + 3
    distributePairs tableSize inOrder k (s + 2) ((position + 2 * step) &&& (tableSize - 1))
      ((spread.set position (inOrder.getD s 0)).set
        ((position + step) &&& (tableSize - 1)) (inOrder.getD (s + 1) 0))

/-- The inner `while` of the general spread; a full round of the table bounds it. -/
def skipLowProb (tableSize negativeIdx : Nat) : Nat → Nat → Nat
  | 0, position => position
  | fuel + 1, position =>
    if negativeIdx ≤ position then
      skipLowProb tableSize negativeIdx fuel (nextPosition position tableSize)
    else position

def spreadRun (tableSize negativeIdx symbol : Nat) : Nat → Nat → List Nat → Nat × List Nat
  | 0, position, spread => (position, spread)
  | n + 1, position, spread =>
    spreadRun tableSize negativeIdx symbol n
      (skipLowProb tableSize negativeIdx tableSize (nextPosition position tableSize))
      (spread.set position (symbol % 256))

/-- The general spread, taken when there are `-1` symbols. -/
def spreadAround (tableSize negativeIdx : Nat) :
    List Int → Nat → Nat → List Nat → List Nat → List Nat × List Nat
  | [], _, _, spread, symbolNext => (spread, symbolNext)
  | prob :: probs, symbol, position, spread, symbolNext =>
    if prob ≤ 0 then
      spreadAround tableSize negativeIdx probs (symbol + 1) position spread symbolNext
    else
      let (position, spread) :=
        spreadRun tableSize negativeIdx symbol prob.toNat position spread
      spreadAround tableSize negativeIdx probs (symbol + 1) position spread
        (symbolNext.set symbol prob.toNat)

def fseFastSpreadBuf : Nat := 512 + 8

/-- Both passes: the symbol of every state and the counters the build starts from. -/
def spreadSymbols (probs : List Int) (tableSize : Nat) : List Nat × List Nat :=
  let (spread, negativeIdx, symbolNext) :=
    placeLowProb probs 0 (List.replicate tableSize 0) tableSize (List.replicate 256 0)
  if negativeIdx = tableSize then
    let (inOrder, symbolNext) :=
      layInOrder probs 0 (List.replicate fseFastSpreadBuf 0) 0 symbolNext
    (distributePairs tableSize inOrder ((tableSize + 1) / 2) 0 0 spread, symbolNext)
  else spreadAround tableSize negativeIdx probs 0 0 spread symbolNext

section Build

variable {E : Type} [FseEntry E] {cap : Nat}

/-- The fused enrichment of one entry. -/
def enrich (entry : E) (symbol : Nat) : SeqMeta → E
  | .none => entry
  | .packed packed =>
    let m := packed.getD symbol 0
    FseEntry.withSeqMeta entry (m &&& 0x00FFFFFF) ((m >>> 24) % 256)
  | .offsets =>
    if symbol < 32 then FseEntry.withSeqMeta entry (1 <<< symbol) symbol else entry

/-- The build step: every state takes the next count of its symbol. A count of zero, which the
source asserts away, fails the gate here. -/
def buildEntries (probs : List Int) (accuracyLog : Nat) (seqMeta : SeqMeta) :
    List Nat → List Nat → Except FSETableError (List E)
  | [], _ => .ok []
  | symbol :: spread, symbolNext => do
    let nextState := symbolNext.getD symbol 0
    let highBit := highestBitSet nextState
    let nb := (2 ^ 32 + (accuracyLog + 1) - highBit) % 2 ^ 32 % 256
    if accuracyLog < nb then
      throw (.tableInvariantViolation (probs.getD symbol 0) symbol nb accuracyLog)
    let entry := FseEntry.fromRaw ((nextState <<< nb - 1 <<< accuracyLog) % 2 ^ 16) symbol nb
    let rest ← buildEntries probs accuracyLog seqMeta spread
      (symbolNext.set symbol (nextState + 1))
    return enrich entry symbol seqMeta :: rest

/-- The `n` bits of the header at `bitPos`. -/
def fieldAt (source : List UInt8) (bitPos n : Nat) : Nat :=
  (le ((source.drop (bitPos >>> 3)).take 8) >>> (bitPos &&& 7)) &&& (1 <<< n - 1)

def readBits (source : List UInt8) (bitPos n : Nat) : Except FSETableError Nat :=
  if 8 * source.length - bitPos < n then .error (.getBitsError n (8 * source.length - bitPos))
  else .ok (fieldAt source bitPos n)

/-- The two-bit skip counts after a zero probability; every full count has one more after it. -/
def readSkips (source : List UInt8) (maxSymbols : Nat) :
    Nat → Nat → List Int → Except FSETableError Nat × List Int
  | 0, bitPos, probs => (.ok bitPos, probs)
  | fuel + 1, bitPos, probs =>
    match readBits source bitPos 2 with
    | .error e => (.error e, probs)
    | .ok skipAmount =>
      if maxSymbols < probs.length + skipAmount then
        (.error (.tooManySymbols (probs.length + skipAmount)), probs)
      else if skipAmount ≠ 3 then (.ok (bitPos + 2), probs ++ List.replicate skipAmount 0)
      else readSkips source maxSymbols fuel (bitPos + 2) (probs ++ List.replicate skipAmount 0)

/-- A field of the header as the value it codes, and the bits it really takes: a small value
gives its top bit back. -/
def unfoldValue (maxRemainingValue uncheckedValue : Nat) : Nat × Nat :=
  let bitsToRead := highestBitSet maxRemainingValue
  let lowThreshold := (1 <<< bitsToRead - 1) - maxRemainingValue
  let mask := 1 <<< (bitsToRead - 1) - 1
  let smallValue := uncheckedValue &&& mask
  if smallValue < lowThreshold then (smallValue, bitsToRead - 1)
  else if mask < uncheckedValue then (uncheckedValue - lowThreshold, bitsToRead)
  else (uncheckedValue, bitsToRead)

/-- The probability loop. Every round stores a symbol, so the symbol limit bounds it. -/
def readProbabilityLoop (source : List UInt8) (maxSymbols probabilitySum : Nat) :
    Nat → Nat → Nat → List Int → Except FSETableError Nat × List Int
  | 0, bitPos, _, probs => (.ok bitPos, probs)
  | fuel + 1, bitPos, probabilityCounter, probs =>
    if probabilityCounter < probabilitySum then
      let maxRemainingValue := probabilitySum - probabilityCounter + 1
      match readBits source bitPos (highestBitSet maxRemainingValue) with
      | .error e => (.error e, probs)
      | .ok uncheckedValue =>
        let (value, width) := unfoldValue maxRemainingValue uncheckedValue
        let prob := (value : Int) - 1
        if maxSymbols ≤ probs.length then
          (.error (.tooManySymbols (probs.length + 1)), probs)
        else if prob ≠ 0 then
          readProbabilityLoop source maxSymbols probabilitySum fuel (bitPos + width)
            (probabilityCounter + prob.natAbs) (probs ++ [prob])
        else
          match readSkips source maxSymbols (maxSymbols + 1) (bitPos + width) (probs ++ [prob]) with
          | (.error e, probs) => (.error e, probs)
          | (.ok bitPos, probs) =>
            readProbabilityLoop source maxSymbols probabilitySum fuel bitPos
              probabilityCounter probs
    else if probabilityCounter ≠ probabilitySum then
      (.error (.probabilityCounterMismatch probabilityCounter probabilitySum probs), probs)
    else (.ok bitPos, probs)

namespace FSETableImpl

def new (maxSymbol : Nat) : FSETableImpl E cap := { maxSymbol := maxSymbol }

def reset (t : FSETableImpl E cap) : FSETableImpl E cap :=
  { t with symbolProbabilities := [], symbolSpreadBuffer := [], decode := [], accuracyLog := 0 }

def reinitFrom (t other : FSETableImpl E cap) : FSETableImpl E cap :=
  { t.reset with decode := other.decode, accuracyLog := other.accuracyLog }

def isPopulated (t : FSETableImpl E cap) : Bool := t.decode.length ≠ 0

/-- Build the decode table from the stored probabilities; a failed build resets the table. -/
def buildDecodingTableMeta (t : FSETableImpl E cap) (seqMeta : SeqMeta) :
    Except FSETableError Unit × FSETableImpl E cap :=
  let tableSize := 1 <<< t.accuracyLog
  if t.maxSymbol + 1 < t.symbolProbabilities.length then
    (.error (.tooManySymbols t.symbolProbabilities.length), t.reset)
  else if cap < tableSize then
    (.error (.accLogTooBig t.accuracyLog (Nat.log2 cap)), t.reset)
  else
    let (spread, symbolNext) := spreadSymbols t.symbolProbabilities tableSize
    match buildEntries t.symbolProbabilities t.accuracyLog seqMeta spread symbolNext with
    | .error e => (.error e, t.reset)
    | .ok entries => (.ok (), { t with decode := entries, symbolSpreadBuffer := spread })

/-- Build from a distribution the caller holds, checked before anything is stored. -/
def buildFromProbabilities (t : FSETableImpl E cap) (accLog : Nat) (probs : List Int) :
    Except FSETableError Unit × FSETableImpl E cap :=
  if accLog = 0 then (.error .accLogIsZero, t)
  else if entryMaxAccuracyLog < accLog then
    (.error (.accLogTooBig accLog entryMaxAccuracyLog), t)
  else if t.maxSymbol + 1 < probs.length then (.error (.tooManySymbols probs.length), t)
  else
    let tableSize := 1 <<< accLog
    match probs.find? (fun p => p < -1 ∨ (tableSize : Int) < p) with
    | some p => (.error (.invalidProbability p tableSize accLog), t)
    | none =>
      let probabilitySum := (probs.map (fun p => if p = -1 then 1 else p.toNat)).sum
      if probabilitySum ≠ tableSize then
        (.error (.probabilityCounterMismatch probabilitySum tableSize probs), t)
      else
        { t with symbolProbabilities := probs, accuracyLog := accLog }.buildDecodingTableMeta .none

/-- Read the header. A failed read keeps what it has stored so far. -/
def readProbabilities (t : FSETableImpl E cap) (source : List UInt8) (maxLog : Nat) :
    Except FSETableError Nat × FSETableImpl E cap :=
  let t := { t with symbolProbabilities := [] }
  match readBits source 0 4 with
  | .error e => (.error e, t)
  | .ok log =>
    let t := { t with accuracyLog := accLogOffset + log }
    if entryMaxAccuracyLog < t.accuracyLog then
      (.error (.accLogTooBig t.accuracyLog entryMaxAccuracyLog), t)
    else if maxLog < t.accuracyLog then (.error (.accLogTooBig t.accuracyLog maxLog), t)
    else if t.accuracyLog = 0 then (.error .accLogIsZero, t)
    else
      match readProbabilityLoop source (t.maxSymbol + 1) (1 <<< t.accuracyLog)
          (t.maxSymbol + 2) 4 0 [] with
      | (.error e, probs) => (.error e, { t with symbolProbabilities := probs })
      | (.ok bitPos, probs) =>
        (.ok ((bitPos + 7) / 8), { t with symbolProbabilities := probs })

/-- Read a header and build its table, the sequence data fused in. A failed read leaves the old
entries under the new accuracy log; a failed build resets the table. -/
def buildDecoderFused (t : FSETableImpl E cap) (source : List UInt8) (maxLog : Nat)
    (seqMeta : SeqMeta) : Except FSETableError Nat × FSETableImpl E cap :=
  match { t with accuracyLog := 0 }.readProbabilities source (min maxLog entryMaxAccuracyLog) with
  | (.error e, t) => (.error e, t)
  | (.ok bytesRead, t) =>
    match t.buildDecodingTableMeta seqMeta with
    | (.error e, t) => (.error e, t)
    | (.ok _, t) => (.ok bytesRead, t)

def buildDecoder (t : FSETableImpl E cap) (source : List UInt8) (maxLog : Nat) :
    Except FSETableError Nat × FSETableImpl E cap :=
  t.buildDecoderFused source maxLog .none

/-- Read a header only; the old entries are given up first. -/
def readTableProbabilities (t : FSETableImpl E cap) (source : List UInt8) (maxLog : Nat) :
    Except FSETableError Nat × FSETableImpl E cap :=
  { t with accuracyLog := 0, decode := [] }.readProbabilities source
    (min maxLog entryMaxAccuracyLog)

end FSETableImpl

/-- The tables of the sequence section. -/
abbrev SeqFSETable := FSETableImpl SeqSymbol 512

namespace FSETableImpl

/-- Attach baselines and widths to the entries of a table already built. -/
def enrichWithPackedSeqMeta (t : SeqFSETable) (packed : List Nat) : SeqFSETable :=
  { t with decode := t.decode.mapIdx fun i entry =>
      let sym := t.symbolSpreadBuffer.getD i 0
      if sym < packed.length then
        let m := packed.getD sym 0
        { entry with baseValue := m &&& 0x00FFFFFF, numAdditionalBits := (m >>> 24) % 256 }
      else { entry with baseValue := 0, numAdditionalBits := 0 } }

def enrichForOffsets (t : SeqFSETable) : SeqFSETable :=
  { t with decode := t.decode.mapIdx fun i entry =>
      let code := t.symbolSpreadBuffer.getD i 0
      if code < 32 then { entry with baseValue := 1 <<< code, numAdditionalBits := code }
      else { entry with baseValue := 0, numAdditionalBits := 0 } }

/-- The one-state table of an RLE field. -/
def buildRle (t : SeqFSETable) (symbol : Nat) : SeqFSETable :=
  { t.reset with symbolSpreadBuffer := [symbol], decode := [{}] }

end FSETableImpl

/-- The state of a decoder is the entry it stands on. -/
def readEntry (t : FSETableImpl E cap) (idx : Nat) : E := t.decode.getD idx default

/-- Start a stream: the first state is read as a plain number. -/
def initState (t : FSETableImpl E cap) (bits : BitReaderReversed) :
    Except FSEDecoderError (E × BitReaderReversed) :=
  if t.decode.length = 0 then .error .tableIsUninitialized
  else if t.decode.length ≠ 1 <<< t.accuracyLog then
    .error (.invalidTableShape t.decode.length t.accuracyLog)
  else
    let (newState, bits) := bits.getBits t.accuracyLog
    .ok (readEntry t newState, bits)

/-- Move on to the state the next bits select. -/
def updateState (t : FSETableImpl E cap) (state : E) (bits : BitReaderReversed) :
    E × BitReaderReversed :=
  let (add, bits) := bits.getBits (FseEntry.numBits state)
  (readEntry t (FseEntry.newState state + add), bits)

/-- As `updateState`, with the bits already in the container. -/
def updateStateFast (t : FSETableImpl E cap) (state : E) (bits : BitReaderReversed) :
    E × BitReaderReversed :=
  let (add, bits) := bits.getBitsUnchecked (FseEntry.numBits state)
  (readEntry t (FseEntry.newState state + add), bits)

end Build

section Stream

variable {cap : Nat}

/-- Decode `n` symbols from a state, moving on between them. -/
def decodeRun (t : FSETableImpl Entry cap) :
    Nat → Entry → BitReaderReversed → List Nat × BitReaderReversed
  | 0, _, r => ([], r)
  | 1, state, r => ([state.symbol], r)
  | n + 2, state, r =>
    let (next, r) := updateState t state r
    let (symbols, r) := decodeRun t (n + 1) next r
    (state.symbol :: symbols, r)

/-- Decode `n` symbols from two states taking turns. -/
def decodeAlternating (t : FSETableImpl Entry cap) :
    Nat → Entry → Entry → BitReaderReversed → List Nat × BitReaderReversed
  | 0, _, _, r => ([], r)
  | 1, state, _, r => ([state.symbol], r)
  | 2, state, other, r => ([state.symbol, other.symbol], r)
  | n + 3, state, other, r =>
    let (next, r) := updateState t state r
    let (symbols, r) := decodeAlternating t (n + 2) other next r
    (state.symbol :: symbols, r)

/-- Decode a stream of `n` symbols, as the round trip of `fse/mod.rs` does. -/
def decodeStream (t : FSETableImpl Entry cap) (n : Nat) (payload : List UInt8) :
    Option (List Nat × BitReaderReversed) :=
  let (skippedBits, r) := (BitReaderReversed.new payload).skipPadding
  if 8 < skippedBits then none
  else match initState t r with
    | .error _ => none
    | .ok (state, r) => some (decodeRun t n state r)

/-- Decode an interleaved stream of `n` symbols; the first state is read first. -/
def decodeInterleaved (t : FSETableImpl Entry cap) (n : Nat) (payload : List UInt8) :
    Option (List Nat × BitReaderReversed) :=
  let (skippedBits, r) := (BitReaderReversed.new payload).skipPadding
  if 8 < skippedBits then none
  else match initState t r with
    | .error _ => none
    | .ok (state1, r) => match initState t r with
      | .error _ => none
      | .ok (state2, r) => some (decodeAlternating t n state1 state2 r)

end Stream

end Fse.Decoder
