import StructuredZstd.Bits.Bytes
import StructuredZstd.Huff0.HuffmanEncoder

namespace Huff0.Encoder

open Bits

/-- A bit container that fills from the top. Only the low byte of the count is real. -/
structure Container where
  word : Nat := 0
  pos : Nat := 0
deriving Repr, DecidableEq

namespace Container

/-- Add a packed code. The fast add leaves the code's width in the low bits of the word. -/
def add (fast : Bool) (c : Container) (elt : Nat) : Container where
  word := (c.word >>> (elt &&& 0xFF)) ||| if fast then elt else (elt >>> 8) <<< 8
  pos := (c.pos + if fast then elt else elt &&& 0xFF) % 2 ^ 64

def addSlow (c : Container) (elts : List Nat) : Container := elts.foldl (add false) c

/-- A group of an unrolled round: all fast but the last, which `lastFast` decides. -/
def addGroup (lastFast : Bool) : Container → List Nat → Container
  | c, [] => c
  | c, [elt] => c.add lastFast elt
  | c, elt :: elts => addGroup lastFast (c.add true elt) elts

/-- Fold the second container into the first. -/
def merge (c c1 : Container) : Container where
  word := (c.word >>> (c1.pos &&& 0xFF)) ||| c1.word
  pos := (c.pos + c1.pos) % 2 ^ 64

end Container

/-- `HufCStream` before its close: the bytes behind the cursor, those the last store left beyond
it, and how far the cursor may go. -/
structure HufCStream where
  container : Container
  committed : List UInt8
  scratch : List UInt8
  room : Nat
  overflow : Bool
deriving Repr, DecidableEq

namespace HufCStream

def new (dstCapacity : Nat) : Option HufCStream :=
  if dstCapacity ≤ 8 then none else some ⟨{}, [], [], dstCapacity - 8, false⟩

/-- Store the container at the cursor and move on by its whole bytes. -/
def flushBits (fast : Bool) (s : HufCStream) : HufCStream :=
  let nbBits := s.container.pos &&& 0xFF
  let bytes := toLeBytes 8 (s.container.word >>> ((64 - nbBits) % 64))
  let cursor := s.committed.length + nbBits >>> 3
  let clamped := !fast && s.room < cursor
  let cursor := if clamped then s.room else cursor
  let stored := s.committed ++ bytes
  { s with
    container := { s.container with pos := s.container.pos &&& 7 }
    committed := stored.take cursor
    scratch := stored.drop cursor
    overflow := s.overflow || clamped }

def endMark : Nat := 1 ||| 1 <<< 63

/-- The bytes of the stream, with the end mark in the last; an overflow writes none. -/
def close (s : HufCStream) : List UInt8 :=
  let s := { s with container := s.container.add false endMark }.flushBits false
  if s.overflow then []
  else s.committed ++ s.scratch.take (if 0 < s.container.pos &&& 0xFF then 1 else 0)

/-- The dual-container rounds: two groups, the second gathered on its own and merged in. -/
def pairRounds (unroll : Nat) (fastFlush lastFast : Bool) :
    Nat → HufCStream → List Nat → HufCStream
  | 0, s, _ => s
  | n + 1, s, elts =>
    let s := { s with container := s.container.addGroup lastFast (elts.take unroll) }.flushBits
      fastFlush
    let second := Container.addGroup lastFast {} ((elts.drop unroll).take unroll)
    let s := { s with container := s.container.merge second }.flushBits fastFlush
    pairRounds unroll fastFlush lastFast n s (elts.drop (2 * unroll))

/-- A multiple of the unroll factor: a group alone where it is an odd one, then the pairs. -/
def groupRounds (unroll : Nat) (fastFlush lastFast : Bool) (s : HufCStream) (elts : List Nat) :
    HufCStream :=
  if elts.length % (2 * unroll) ≠ 0 then
    let s := { s with container := s.container.addGroup lastFast (elts.take unroll) }.flushBits
      fastFlush
    let elts := elts.drop unroll
    pairRounds unroll fastFlush lastFast (elts.length / (2 * unroll)) s elts
  else pairRounds unroll fastFlush lastFast (elts.length / (2 * unroll)) s elts

/-- `encode_unrolled_body`, over the packed codes of the data from its end. -/
def encodeUnrolled (unroll : Nat) (fastFlush lastFast : Bool) (s : HufCStream) (elts : List Nat) :
    HufCStream :=
  let rem := elts.length % unroll
  let s :=
    if 0 < rem then
      { s with container := s.container.addSlow (elts.take rem) }.flushBits fastFlush
    else s
  s.groupRounds unroll fastFlush lastFast (elts.drop rem)

/-- The unroll factor and the fast steps each table log allows. -/
def encodeOneStream (tableLog : Nat) (s : HufCStream) (elts : List Nat) : HufCStream :=
  match tableLog with
  | 11 => s.encodeUnrolled 5 true false elts
  | 10 => s.encodeUnrolled 5 true true elts
  | 9 => s.encodeUnrolled 6 true false elts
  | 8 => s.encodeUnrolled 7 true false elts
  | 7 => s.encodeUnrolled 8 true false elts
  | _ => s.encodeUnrolled 4 false false elts

end HufCStream

/-- An upper bound on the bytes of a stream, with slack for its close. -/
def hufTightCompressBound (srcSize tableLog : Nat) : Nat := (srcSize * tableLog) >>> 3 + 8 + 16

end Huff0.Encoder
