import Mathlib.Tactic.Ring
import StructuredZstd.Lz.Parse

namespace Encoding.Sequences

/-- The shortest match a sequence can carry. -/
def minMatch : Nat := 3

/-- `litLen` literals, then `matchLen` bytes copied from `offset` back. -/
structure ExternalSequence where
  offset : Nat
  litLen : Nat
  matchLen : Nat
deriving Repr, DecidableEq

namespace ExternalSequence

def delimiter (litLen : Nat) : ExternalSequence := ⟨0, litLen, 0⟩

def isDelimiter (s : ExternalSequence) : Bool := s.offset == 0 && s.matchLen == 0

def len (s : ExternalSequence) : Nat := s.litLen + s.matchLen

/-- The fields are 32-bit ones. -/
structure InU32 (s : ExternalSequence) : Prop where
  offset : s.offset < 2 ^ 32
  litLen : s.litLen < 2 ^ 32
  matchLen : s.matchLen < 2 ^ 32

end ExternalSequence

section Merging

/-- One round of the merge: `kept` sequences stand at the front, `index` is the one in hand. -/
def mergeStep (state : List ExternalSequence × Nat) (index : Nat) : List ExternalSequence × Nat :=
  let (sequences, kept) := state
  match sequences[index]? with
  | none => state
  | some sequence =>
    if sequence.isDelimiter then
      match sequences[index + 1]? with
      | some next =>
        let litLen := (next.litLen + sequence.litLen) % 2 ^ 32
        (sequences.set (index + 1) { next with litLen := litLen }, kept)
      | none => (sequences, kept)
    else (sequences.set kept sequence, kept + 1)

/-- The array after the merge, and how many sequences remain at its front. -/
def mergeBlockDelimiters (sequences : List ExternalSequence) : List ExternalSequence × Nat :=
  (List.range sequences.length).foldl mergeStep (sequences, 0)

end Merging

inductive SequenceError where
  | lengthMismatch
  | matchTooShort (index : Nat)
  | offsetTooFar (index : Nat)
  | zeroOffset (index : Nat)
  | blockTooLarge
  | matchMismatch (index : Nat)
deriving Repr, DecidableEq

/-- A 64-bit sum; `none` where it overflows. -/
def u64Add (a b : Nat) : Option Nat := if a + b < 2 ^ 64 then some (a + b) else none

/-- `xs[start..stop]`; `none` where the source panics. -/
def slice {α : Type} (xs : List α) (start stop : Nat) : Option (List α) :=
  if start ≤ stop ∧ stop ≤ xs.length then some ((xs.drop start).take (stop - start)) else none

section Checks

variable (srcLen window dictLen : Nat) (explicitDelimiters : Bool) (maxBlock : Nat)

/-- The sequences from number `index` on; the result is the position they end at. -/
def validateLoop : Nat → Nat → Nat → List ExternalSequence → Option (Except SequenceError Nat)
  | _, position, _, [] => some (.ok position)
  | index, position, blockStart, sequence :: rest =>
    match u64Add position sequence.litLen with
    | none => none
    | some position =>
      if sequence.isDelimiter then
        if explicitDelimiters then
          if maxBlock < position - blockStart then some (.error .blockTooLarge)
          else validateLoop (index + 1) position position rest
        else validateLoop (index + 1) position blockStart rest
      else if sequence.offset = 0 then some (.error (.zeroOffset index))
      else if sequence.matchLen < minMatch then some (.error (.matchTooShort index))
      else
        match if window < position then some window else u64Add position dictLen with
        | none => none
        | some reach =>
          if reach < sequence.offset then some (.error (.offsetTooFar index))
          else
            match u64Add position sequence.matchLen with
            | none => none
            | some position =>
              if srcLen < position then some (.error .lengthMismatch)
              else validateLoop (index + 1) position blockStart rest

/-- Whether the parse is one of `srcLen` bytes that a decoder can follow; `none` where a sum
overflows. -/
def validateParse (sequences : List ExternalSequence) : Option (Except SequenceError Unit) :=
  (validateLoop srcLen window dictLen explicitDelimiters maxBlock 0 0 0 sequences).map fun
    | .error e => .error e
    | .ok position =>
      let covered :=
        if explicitDelimiters then decide (position = srcLen) else decide (position ≤ srcLen)
      if covered then .ok () else .error .lengthMismatch

end Checks

section Reproduction

variable (src dict : List UInt8)

/-- The bytes a match copies against those of the input at `position`: first what comes from the
tail of the dictionary, then what comes from the input itself. -/
def compareMatch (index position offset : Nat) (target : List UInt8) :
    Option (Except SequenceError Unit) :=
  let len := target.length
  let fromDict := if position < offset then min (offset - position) len else 0
  let dictPart : Option (Except SequenceError Unit) :=
    if 0 < fromDict then
      if dict.length < offset - position then some (.error (.offsetTooFar index))
      else
        let start := dict.length - (offset - position)
        (slice dict start (start + fromDict)).map fun copied =>
          if copied = target.take fromDict then .ok () else .error (.matchMismatch index)
    else some (.ok ())
  match dictPart with
  | none => none
  | some (.error e) => some (.error e)
  | some (.ok _) =>
    if fromDict < len then
      if position + fromDict < offset then none
      else
        let start := position + fromDict - offset
        (slice src start (start + (len - fromDict))).map fun copied =>
          if copied = target.drop fromDict then .ok () else .error (.matchMismatch index)
    else some (.ok ())

def reproducesLoop : Nat → Nat → List ExternalSequence → Option (Except SequenceError Unit)
  | _, _, [] => some (.ok ())
  | index, position, sequence :: rest =>
    match u64Add position sequence.litLen with
    | none => some (.error .lengthMismatch)
    | some position =>
      if sequence.isDelimiter then reproducesLoop (index + 1) position rest
      else
        match (u64Add position sequence.matchLen).filter (· ≤ src.length) with
        | none => some (.error .lengthMismatch)
        | some stop =>
          match slice src position stop with
          | none => none
          | some target =>
            match compareMatch src dict index position sequence.offset target with
            | none => none
            | some (.error e) => some (.error e)
            | some (.ok _) => reproducesLoop (index + 1) stop rest

/-- Whether the parse decodes to `src`; `none` where the source panics. -/
def parseReproduces (sequences : List ExternalSequence) : Option (Except SequenceError Unit) :=
  reproducesLoop src dict 0 0 sequences

end Reproduction

/-- The input a parse decodes to, on a machine whose `usize` ends at `limit`; `sequences` are those
not taken yet. -/
structure RebuiltSource where
  sequences : List ExternalSequence
  literals : List UInt8
  dict : List UInt8
  window : Nat
  litAt : Nat
  litLeft : Nat
  matchLeft : Nat
  offset : Nat
  produced : Nat
  history : List UInt8
  len : Nat
deriving Repr, DecidableEq

namespace RebuiltSource

variable (limit : Nat)

def checkedAdd (a b : Nat) : Option Nat := if a + b < limit then some (a + b) else none

/-- The plain `+` of a release build. -/
def wrappingAdd (a b : Nat) : Nat := (a + b) % limit

/-- The sequences from number `index` on, `position` bytes and `lits` literals in; the result is
both where they end. -/
def newLoop (literalsLen dictLen window : Nat) :
    Nat → Nat → Nat → List ExternalSequence → Except SequenceError (Nat × Nat)
  | _, position, lits, [] => .ok (position, lits)
  | index, position, lits, sequence :: rest =>
    match (checkedAdd limit lits sequence.litLen).filter (· ≤ literalsLen) with
    | none => .error .lengthMismatch
    | some lits =>
      let position := wrappingAdd limit position sequence.litLen
      if sequence.matchLen = 0 then newLoop literalsLen dictLen window (index + 1) position lits rest
      else if sequence.offset = 0 then .error (.zeroOffset index)
      else
        let pastReach :=
          if window < position then decide (window < sequence.offset)
          else (checkedAdd limit position dictLen).any fun reach => decide (reach < sequence.offset)
        if pastReach then .error (.offsetTooFar index)
        else
          match checkedAdd limit position sequence.matchLen with
          | none => .error .lengthMismatch
          | some position => newLoop literalsLen dictLen window (index + 1) position lits rest

def new (sequences : List ExternalSequence) (literals dict : List UInt8) (window : Nat) :
    Except SequenceError RebuiltSource :=
  match newLoop limit literals.length dict.length window 0 0 0 sequences with
  | .error e => .error e
  | .ok (position, lits) =>
    match checkedAdd limit position (literals.length - lits) with
    | none => .error .lengthMismatch
    | some len => .ok ⟨sequences, literals, dict, window, 0, 0, 0, 0, 0, [], len⟩

/-- One round of `copy_match`: the bytes it appends; `none` for an index below zero or past the
end. -/
def copyPiece (s : RebuiltSource) (left : Nat) : Option (List UInt8) :=
  if s.produced < s.offset then
    let back := s.offset - s.produced
    if s.dict.length < back then none
    else
      let start := s.dict.length - back
      slice s.dict start (start + min left back)
  else if s.history.length < s.offset then none
  else
    let start := s.history.length - s.offset
    slice s.history start (start + min left s.offset)

/-- The rounds of `copy_match`. A round appends a byte at least, so `fuel` for as many as are
wanted is enough; a match at offset 0 would go on for ever. -/
def copyLoop : Nat → Nat → RebuiltSource → Option RebuiltSource
  | _, 0, s => some s
  | 0, _ + 1, _ => none
  | fuel + 1, left + 1, s =>
    (s.copyPiece (left + 1)).bind fun piece =>
      copyLoop fuel (left + 1 - piece.length)
        { s with
          history := s.history ++ piece
          produced := wrappingAdd limit s.produced piece.length }

def copyMatch (s : RebuiltSource) (want : Nat) : Option RebuiltSource :=
  (copyLoop limit want want s).map fun s => { s with matchLeft := s.matchLeft - want }

/-- The loop of `read`: the bytes that go into `room` bytes of the buffer. -/
def fill : Nat → Nat → RebuiltSource → Option (List UInt8 × RebuiltSource)
  | 0, _, _ => none
  | fuel + 1, room, s =>
    if room = 0 then some ([], s)
    else if 0 < s.litLeft then
      let n := min s.litLeft room
      (slice s.literals s.litAt (s.litAt + n)).bind fun chunk =>
        (fill fuel (room - chunk.length)
          { s with
            history := s.history ++ chunk
            litAt := s.litAt + n
            litLeft := s.litLeft - n
            produced := wrappingAdd limit s.produced n }).map fun (bytes, s) => (chunk ++ bytes, s)
    else if 0 < s.matchLeft then
      (s.copyMatch limit (min s.matchLeft room)).bind fun s' =>
        let chunk := s'.history.drop s.history.length
        (fill fuel (room - chunk.length) s').map fun (bytes, s) => (chunk ++ bytes, s)
    else
      match s.sequences with
      | sequence :: rest =>
        fill fuel room
          { s with
            sequences := rest
            litLeft := sequence.litLen
            matchLeft := sequence.matchLen
            offset := sequence.offset }
      | [] =>
        if s.litAt < s.literals.length then
          fill fuel room { s with litLeft := s.literals.length - s.litAt }
        else some ([], s)

/-- How far back the history is kept between reads. -/
def keep (s : RebuiltSource) : Nat :=
  if 0 < s.matchLeft then max s.window s.offset else s.window

/-- Let go of what no match can reach, once it is as much again. -/
def trim (s : RebuiltSource) : RebuiltSource :=
  if 2 * s.keep < limit ∧ 2 * s.keep < s.history.length then
    { s with history := s.history.drop (s.history.length - s.keep) }
  else s

/-- Read into a buffer of `size` bytes. Two rounds for each byte, one for each sequence and one for
the trailing literals are enough. -/
def read (s : RebuiltSource) (size : Nat) : Option (List UInt8 × RebuiltSource) :=
  (fill limit (2 * size + s.sequences.length + 2) size s).map fun (bytes, s) =>
    (bytes, s.trim limit)

def readAll : RebuiltSource → List Nat → Option (List (List UInt8) × RebuiltSource)
  | s, [] => some ([], s)
  | s, size :: sizes =>
    (s.read limit size).bind fun (bytes, s) =>
      (readAll s sizes).map fun (chunks, s) => (bytes :: chunks, s)

end RebuiltSource

/-- What a matcher reports: literals and a match, or literals alone. -/
inductive Sequence where
  | triple (literalLen offset matchLen : Nat)
  | literals (len : Nat)
deriving Repr, DecidableEq

/-- A parse being replayed; `sequences` are those from the one the next block continues on. -/
structure SequenceReplay where
  sequences : List ExternalSequence
  litTaken : Nat
  matchTaken : Nat
  delimited : Bool
deriving Repr, DecidableEq

namespace SequenceReplay

def new (sequences : List ExternalSequence) : SequenceReplay :=
  ⟨sequences, 0, 0, sequences.any ExternalSequence.isDelimiter⟩

/-- The loop of `walk` over the sequences left: what it reports, the literals not reported yet and
the bytes of the block no sequence covered, and where it stops. -/
def walkLoop : List ExternalSequence → Nat → Nat → Nat → Nat →
    List Sequence × Nat × Nat × List ExternalSequence × Nat × Nat
  | [], litTaken, matchTaken, remaining, literals =>
    ([], literals, remaining, [], litTaken, matchTaken)
  | sequence :: rest, litTaken, matchTaken, remaining, literals =>
    if remaining = 0 then ([], literals, remaining, sequence :: rest, litTaken, matchTaken)
    else
      let take := min (sequence.litLen - litTaken) remaining
      let litTaken := litTaken + take
      let literals := literals + take
      let remaining := remaining - take
      if litTaken < sequence.litLen then
        ([], literals, remaining, sequence :: rest, litTaken, matchTaken)
      else
        let take := min (sequence.matchLen - matchTaken) remaining
        let reported :=
          if minMatch ≤ take then [Sequence.triple literals sequence.offset take] else []
        let literals := if minMatch ≤ take then 0 else literals + take
        let matchTaken := matchTaken + take
        let remaining := remaining - take
        if matchTaken = sequence.matchLen then
          let (more, stop) := walkLoop rest 0 0 remaining literals
          (reported ++ more, stop)
        else
          -- the match goes on past the block, so the loop ends here
          (reported, literals, remaining, sequence :: rest, litTaken, matchTaken)

/-- Report the parse for the next `len` bytes. -/
def walk (r : SequenceReplay) (len : Nat) : List Sequence × SequenceReplay :=
  let (reported, literals, remaining, sequences, litTaken, matchTaken) :=
    walkLoop r.sequences r.litTaken r.matchTaken len 0
  let literals := literals + remaining
  (reported ++ if 0 < literals then [.literals literals] else [],
    { r with sequences := sequences, litTaken := litTaken, matchTaken := matchTaken })

/-- Step past `len` bytes of the parse. -/
def skip (r : SequenceReplay) (len : Nat) : SequenceReplay := (r.walk len).2

/-- The bytes up to the next delimiter that ends a region with something in it. -/
def regionLen : List ExternalSequence → Nat → Nat → Nat → Option Nat
  | [], _, _, _ => none
  | sequence :: rest, litTaken, matchTaken, len =>
    let len := len + (sequence.litLen - litTaken + (sequence.matchLen - matchTaken))
    if sequence.isDelimiter ∧ 0 < len then some len else regionLen rest 0 0 len

def fixedBlockLen (r : SequenceReplay) : Option Nat :=
  if r.delimited then regionLen r.sequences r.litTaken r.matchTaken 0 else none

end SequenceReplay

end Encoding.Sequences
