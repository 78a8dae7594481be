import Mathlib.Data.List.Basic

namespace Encoding

/-- A reader that comes to an end without an error. A read may give less than it is asked for,
but it gives something while anything is left. -/
class Read (ρ : Type) where
  read : ρ → Nat → List UInt8 × ρ
  left : ρ → List UInt8
  length_read : ∀ r n, (read r n).1.length ≤ n
  read_left : ∀ r n, (read r n).1 ++ left (read r n).2 = left r
  read_ne_nil : ∀ r n, 0 < n → left r ≠ [] → (read r n).1 ≠ []

/-- What a fill comes to: the source and the buffer after it, the bytes it appended, and whether
the input ended. -/
structure Filled (S : Type) where
  source : S
  buf : List UInt8
  appended : Nat
  reachedEof : Bool

class OwnedBlockSource (S : Type) where
  fillBlock : S → List UInt8 → Nat → Option Nat → Filled S
  exactRemaining : S → Option Nat

/-- An input held in memory. -/
structure SliceBlockSource where
  bytes : List UInt8
deriving Repr, DecidableEq

namespace SliceBlockSource

def fillBlock (s : SliceBlockSource) (buf : List UInt8) (blockCapacity : Nat) (_ : Option Nat) :
    Filled SliceBlockSource :=
  let want := blockCapacity - buf.length
  let take := min want s.bytes.length
  let rest := s.bytes.drop take
  { source := ⟨rest⟩
    buf := buf ++ s.bytes.take take
    appended := take
    reachedEof := take < want ∨ rest = [] }

instance : OwnedBlockSource SliceBlockSource where
  fillBlock := fillBlock
  exactRemaining s := some s.bytes.length

end SliceBlockSource

/-- A reader, with the byte it was asked for past the last full block. -/
structure ReaderBlockSource (ρ : Type) where
  reader : ρ
  peeked : Option UInt8
deriving Repr, DecidableEq

namespace ReaderBlockSource

variable {ρ : Type} [Read ρ]

def new (reader : ρ) : ReaderBlockSource ρ := ⟨reader, none⟩

/-- How far the buffer is grown before the first read. -/
def initialTarget (filled blockCapacity : Nat) : Option Nat → Nat
  | some remaining => filled + min (min remaining blockCapacity) (blockCapacity - filled)
  | none => blockCapacity

/-- `resize` to a length no shorter, with zeros. -/
def grow (buf : List UInt8) (len : Nat) : List UInt8 := buf ++ List.replicate (len - buf.length) 0

def growTo (buf : List UInt8) (target : Nat) : List UInt8 :=
  if buf.length < target then grow buf target else buf

/-- Room for one more byte at the least, and for twice the buffer within the block. -/
def widen (buf : List UInt8) (filled blockCapacity : Nat) : List UInt8 :=
  if filled = buf.length then
    grow buf (min (max (buf.length * 2) (filled + 1)) blockCapacity)
  else buf

/-- A read into `buf[filled..]`. -/
def readInto (reader : ρ) (buf : List UInt8) (filled : Nat) : Nat × List UInt8 × ρ :=
  let (chunk, reader) := Read.read reader (buf.length - filled)
  (chunk.length, buf.take filled ++ chunk ++ buf.drop (filled + chunk.length), reader)

/-- Read until the block is full or a read gives nothing. -/
def fillLoop (blockCapacity filled : Nat) (buf : List UInt8) (reader : ρ) :
    Nat × List UInt8 × ρ × Bool :=
  -- no read passes the end of the block, so past it is at it
  if blockCapacity ≤ filled then (filled, buf, reader, false)
  else
    match readInto reader (widen buf filled blockCapacity) filled with
    | (0, buf, reader) => (filled, buf, reader, true)
    | (newBytes + 1, buf, reader) => fillLoop blockCapacity (filled + (newBytes + 1)) buf reader
termination_by blockCapacity - filled

/-- One byte past a full block tells whether the block is the last. -/
def probe (reader : ρ) : Option UInt8 × ρ × Bool :=
  match Read.read reader 1 with
  | ([], reader) => (none, reader, true)
  | (byte :: _, reader) => (some byte, reader, false)

def fillBlock (s : ReaderBlockSource ρ) (buf : List UInt8) (blockCapacity : Nat)
    (sizeHintRemaining : Option Nat) : Filled (ReaderBlockSource ρ) :=
  let start := buf.length
  let buf := buf ++ s.peeked.toList
  let filled := buf.length
  let buf := growTo buf (initialTarget filled blockCapacity sizeHintRemaining)
  let (filled, buf, reader, reachedEof) := fillLoop blockCapacity filled buf s.reader
  let (peeked, reader, reachedEof) :=
    if ¬ reachedEof ∧ filled = blockCapacity then probe reader else (none, reader, reachedEof)
  { source := ⟨reader, peeked⟩
    buf := buf.take filled
    appended := filled - start
    reachedEof := reachedEof }

instance : OwnedBlockSource (ReaderBlockSource ρ) where
  fillBlock := fillBlock
  exactRemaining _ := none

end ReaderBlockSource

/-- A source of fixed bytes: a fill takes what it is asked for, and knows when it took the last. -/
class LawfulBlockSource (S : Type) [OwnedBlockSource S] where
  pending : S → List UInt8
  fillBlock_eq : ∀ (s : S) (buf : List UInt8) (want : Nat) (hint : Option Nat),
    (pending s ≠ [] → 0 < want) →
    ∃ s', OwnedBlockSource.fillBlock s buf (buf.length + want) hint =
        ⟨s', buf ++ (pending s).take want, min want (pending s).length,
          (pending s).length ≤ want⟩ ∧
      pending s' = (pending s).drop want
  exactRemaining_eq : ∀ (s : S) (n : Nat),
    OwnedBlockSource.exactRemaining s = some n → n = (pending s).length

theorem SliceBlockSource.fillBlock_eq (s : SliceBlockSource) (buf : List UInt8) (want : Nat)
    (hint : Option Nat) :
    s.fillBlock buf (buf.length + want) hint =
      ⟨⟨s.bytes.drop want⟩, buf ++ s.bytes.take want, min want s.bytes.length,
        s.bytes.length ≤ want⟩ := by
  have heof : (min want s.bytes.length < want ∨ s.bytes.drop want = []) ↔
      s.bytes.length ≤ want := by
    rw [List.drop_eq_nil_iff]
    omega
  have htake : s.bytes.take (min want s.bytes.length) = s.bytes.take want :=
    List.take_eq_take_min.symm
  have hdrop : s.bytes.drop (min want s.bytes.length) = s.bytes.drop want :=
    List.drop_eq_drop_min.symm
  simp only [fillBlock, Nat.add_sub_cancel_left, hdrop, htake, heof]

instance : LawfulBlockSource SliceBlockSource where
  pending := SliceBlockSource.bytes
  fillBlock_eq s buf want hint _ := ⟨_, s.fillBlock_eq buf want hint, rfl⟩
  exactRemaining_eq _ _ h := (Option.some.inj h).symm

namespace ReaderBlockSource

variable {ρ : Type} [Read ρ]

theorem length_grow {buf : List UInt8} {len : Nat} (h : buf.length ≤ len) :
    (grow buf len).length = len := by
  rw [grow, List.length_append, List.length_replicate]
  omega

theorem take_grow {buf : List UInt8} {filled : Nat} (len : Nat) (h : filled ≤ buf.length) :
    (grow buf len).take filled = buf.take filled := List.take_append_of_le_length h

theorem growTo_spec (buf : List UInt8) {target blockCapacity : Nat} (h : buf.length ≤ blockCapacity)
    (ht : target ≤ blockCapacity) :
    buf.length ≤ (growTo buf target).length ∧ (growTo buf target).length ≤ blockCapacity ∧
      (growTo buf target).take buf.length = buf := by
  rw [growTo]
  split
  · rw [length_grow (by omega), take_grow _ (Nat.le_refl _), List.take_length]
    exact ⟨by omega, ht, rfl⟩
  · exact ⟨Nat.le_refl _, h, List.take_length⟩

/-- There is room for a read, and what was read before is kept. -/
theorem widen_spec {buf : List UInt8} {filled blockCapacity : Nat} (h : filled ≤ buf.length)
    (hb : buf.length ≤ blockCapacity) (hf : filled < blockCapacity) :
    filled < (widen buf filled blockCapacity).length ∧
      (widen buf filled blockCapacity).length ≤ blockCapacity ∧
      (widen buf filled blockCapacity).take filled = buf.take filled := by
  rw [widen]
  split
  · rw [length_grow (by omega), take_grow _ h]
    exact ⟨by omega, by omega, rfl⟩
  · exact ⟨by omega, hb, rfl⟩

/-- A read gives the next bytes; none are the end. -/
theorem readInto_spec {r r' : ρ} {buf buf' : List UInt8} {filled newBytes : Nat}
    (h : filled ≤ buf.length) (hr : readInto r buf filled = (newBytes, buf', r')) :
    filled + newBytes ≤ buf.length ∧ buf'.length = buf.length ∧
      newBytes ≤ (Read.left r).length ∧
      buf'.take (filled + newBytes) = buf.take filled ++ (Read.left r).take newBytes ∧
      Read.left r' = (Read.left r).drop newBytes ∧
      (newBytes = 0 → filled < buf.length → Read.left r = []) := by
  have hle := Read.length_read r (buf.length - filled)
  have hleft := Read.read_left r (buf.length - filled)
  have hne := Read.read_ne_nil r (buf.length - filled)
  rw [readInto] at hr
  cases hread : Read.read r (buf.length - filled) with
  | mk chunk r1 =>
    simp only [hread, Prod.mk.injEq] at hr hle hleft hne
    obtain ⟨rfl, rfl, rfl⟩ := hr
    have htake : (buf.take filled).length = filled := List.length_take_of_le h
    refine ⟨by omega, ?_, ?_, ?_, ?_, ?_⟩
    · simp only [List.length_append, htake, List.length_drop]
      omega
    · rw [← hleft, List.length_append]
      omega
    · rw [← hleft, List.take_left, List.take_append_of_le_length (by simp [htake]),
        List.take_of_length_le (by simp [htake])]
    · rw [← hleft, List.drop_left]
    · intro h0 hroom
      by_contra hne'
      exact hne (by omega) hne' (List.length_eq_zero_iff.mp h0)

/-- The loop takes the block's bytes and no more, and only a short block ends the input. -/
theorem fillLoop_spec (blockCapacity filled : Nat) (buf : List UInt8) (r : ρ)
    (h : filled ≤ buf.length) (hb : buf.length ≤ blockCapacity) :
    ∃ (buf' : List UInt8) (r' : ρ), fillLoop blockCapacity filled buf r =
        (filled + min (blockCapacity - filled) (Read.left r).length, buf', r',
          decide ((Read.left r).length < blockCapacity - filled)) ∧
      buf'.take (filled + min (blockCapacity - filled) (Read.left r).length) =
        buf.take filled ++ (Read.left r).take (blockCapacity - filled) ∧
      Read.left r' = (Read.left r).drop (blockCapacity - filled) := by
  fun_induction fillLoop blockCapacity filled buf r with
  | case1 filled buf r hfull =>
    have hf : filled = blockCapacity := by omega
    exact ⟨buf, r, by simp [hf], by simp [hf], by simp [hf]⟩
  | case2 filled buf r hfull buf1 r1 hread =>
    obtain ⟨hroom, hcap, hkept⟩ := widen_spec h hb (by omega)
    obtain ⟨-, -, -, htake, hleft, hnil⟩ := readInto_spec (Nat.le_of_lt hroom) hread
    have hend : Read.left r = [] := hnil rfl hroom
    have hshort : 0 < blockCapacity - filled := by omega
    refine ⟨buf1, r1, by simp [hend, hshort], ?_, by simp [hleft, hend]⟩
    simpa [hend, hkept] using htake
  | case3 filled buf r hfull newBytes buf1 r1 hread ih =>
    obtain ⟨hroom, hcap, hkept⟩ := widen_spec h hb (by omega)
    obtain ⟨hle, hlen, hnew, htake, hleft, -⟩ := readInto_spec (Nat.le_of_lt hroom) hread
    rw [Nat.succ_eq_add_one] at hle hnew htake hleft
    obtain ⟨buf', r', hloop, hbuf, hrest⟩ := ih (by omega) (by omega)
    have hlength : (Read.left r1).length = (Read.left r).length - (newBytes + 1) := by
      rw [hleft, List.length_drop]
    have hsum : filled + (newBytes + 1) +
        min (blockCapacity - (filled + (newBytes + 1))) (Read.left r1).length =
        filled + min (blockCapacity - filled) (Read.left r).length := by omega
    have hcapacity : blockCapacity - filled =
        newBytes + 1 + (blockCapacity - (filled + (newBytes + 1))) := by omega
    have heof : (Read.left r1).length < blockCapacity - (filled + (newBytes + 1)) ↔
        (Read.left r).length < blockCapacity - filled := by omega
    refine ⟨buf', r', ?_, ?_, ?_⟩
    · rw [hloop, hsum, decide_eq_decide.mpr heof]
    · have hsplit := @List.take_add _ (Read.left r) (newBytes + 1)
        (blockCapacity - (filled + (newBytes + 1)))
      rw [← hsum, hbuf, htake, hkept, hleft, List.append_assoc, hcapacity, hsplit]
    · rw [hrest, hleft, List.drop_drop, hcapacity]

theorem probe_spec (r : ρ) : ∃ peeked r', probe r = (peeked, r', decide (Read.left r = [])) ∧
    peeked.toList ++ Read.left r' = Read.left r := by
  have hle := Read.length_read r 1
  have hleft := Read.read_left r 1
  have hne := Read.read_ne_nil r 1 Nat.one_pos
  rw [probe]
  cases hread : Read.read r 1 with
  | mk chunk r1 =>
    rw [hread] at hle hleft hne
    match chunk with
    | [] =>
      have hend : Read.left r = [] := by
        by_contra h
        exact hne h rfl
      exact ⟨none, r1, by simp [hend], hleft⟩
    | [byte] =>
      refine ⟨some byte, r1, ?_, hleft⟩
      rw [← hleft]
      simp
    | _ :: _ :: _ => simp at hle

theorem initialTarget_le {filled blockCapacity : Nat} (hint : Option Nat)
    (h : filled ≤ blockCapacity) : initialTarget filled blockCapacity hint ≤ blockCapacity := by
  cases hint with
  | none => exact Nat.le_refl _
  | some remaining =>
    rw [initialTarget]
    omega

/-- Whatever the reads, a fill takes the next bytes and says whether they were the last. -/
theorem fillBlock_eq (s : ReaderBlockSource ρ) (buf : List UInt8) (want : Nat) (hint : Option Nat)
    (hwant : s.peeked.toList ++ Read.left s.reader ≠ [] → 0 < want) :
    ∃ s' : ReaderBlockSource ρ, s.fillBlock buf (buf.length + want) hint =
        ⟨s', buf ++ (s.peeked.toList ++ Read.left s.reader).take want,
          min want (s.peeked.toList ++ Read.left s.reader).length,
          (s.peeked.toList ++ Read.left s.reader).length ≤ want⟩ ∧
      s'.peeked.toList ++ Read.left s'.reader =
        (s.peeked.toList ++ Read.left s.reader).drop want := by
  have hpeeked : s.peeked.toList.length ≤ want := by
    cases hp : s.peeked with
    | none => exact Nat.zero_le _
    | some b => exact hwant (by simp [hp])
  generalize hlook : s.peeked.toList = look at *
  generalize hall : look ++ Read.left s.reader = all
  have hfits : (buf ++ look).length ≤ buf.length + want := by
    rw [List.length_append]
    omega
  obtain ⟨hlow, hhigh, hkept⟩ := growTo_spec (buf ++ look) hfits (initialTarget_le hint hfits)
  obtain ⟨buf1, r1, hloop, htake, hleft⟩ := fillLoop_spec (buf.length + want) (buf ++ look).length
    _ s.reader hlow hhigh
  rw [hkept] at htake
  have hroom : buf.length + want - (buf ++ look).length = want - look.length := by
    rw [List.length_append]
    omega
  rw [hroom] at hloop htake hleft
  have hlen : all.length = look.length + (Read.left s.reader).length := by
    rw [← hall, List.length_append]
  have htaken : buf ++ look ++ (Read.left s.reader).take (want - look.length) =
      buf ++ all.take want := by
    rw [← hall, List.append_assoc, List.take_append, List.take_of_length_le hpeeked]
  have hrest : Read.left r1 = all.drop want := by
    rw [hleft, ← hall, List.drop_append, List.drop_eq_nil_of_le hpeeked, List.nil_append]
  have hfilled : (buf ++ look).length + min (want - look.length) (Read.left s.reader).length =
      buf.length + min want all.length := by
    rw [List.length_append]
    omega
  rw [hfilled] at hloop htake
  rw [htaken] at htake
  have happended : buf.length + min want all.length - buf.length = min want all.length :=
    Nat.add_sub_cancel_left ..
  simp only [fillBlock, hlook, hloop, htake, happended]
  by_cases hshort : (Read.left s.reader).length < want - look.length
  · have hle : all.length ≤ want := by omega
    exact ⟨⟨r1, none⟩, by simp [hshort, hle], hrest⟩
  · have hfull : buf.length + min want all.length = buf.length + want := by omega
    obtain ⟨peeked, r2, hprobe, hpending⟩ := probe_spec r1
    refine ⟨⟨r2, peeked⟩, ?_, hpending.trans hrest⟩
    simp [hshort, hfull, hprobe, hrest, List.drop_eq_nil_iff]

instance : LawfulBlockSource (ReaderBlockSource ρ) where
  pending s := s.peeked.toList ++ Read.left s.reader
  fillBlock_eq s buf want hint h := s.fillBlock_eq buf want hint h
  exactRemaining_eq _ _ h := nomatch h

end ReaderBlockSource

end Encoding
