import StructuredZstd.Decoding.InlineExec
import StructuredZstd.Decoding.LawfulBackends

namespace Decoding

open Lz

/-- The caller's slice in memory; a sequence may be written up to `sequenceCap`. -/
structure UserSlice where
  slice : List UInt8
  head : Nat
  tail : Nat
  sequenceCap : Nat
deriving Repr, DecidableEq

namespace UserSlice

/-- The part of the slice that is written, as the backend the decoder sees. -/
def view (b : UserSlice) : UserSliceBackend :=
  ⟨b.slice.length, b.slice.take b.tail, b.head, b.sequenceCap⟩

structure Wf (b : UserSlice) : Prop where
  head_le : b.head ≤ b.tail
  tail_le : b.tail ≤ b.sequenceCap
  cap_le : b.sequenceCap ≤ b.slice.length

/-- Take over what was written behind the tail. -/
def advance (b : UserSlice) (total : Nat) (slice : List UInt8) : UserSlice :=
  { b with slice := slice, tail := b.tail + total }

def execSequenceBounded (b : UserSlice) (litSrc : List UInt8)
    (litLength offset matchLength : Nat) : Option UserSlice :=
  (execSequenceBoundedCopy b.slice b.tail litSrc litLength offset matchLength).map
    (b.advance (litLength + matchLength))

def execSequenceInline (b : UserSlice) (litSrc : List UInt8)
    (litLength offset matchLength : Nat) : Option (Except ExecuteSequencesError UserSlice) :=
  if b.sequenceCap < b.tail + (litLength + matchLength) + 15 then
    match sequenceOutputFits litLength matchLength b.tail b.sequenceCap 0 with
    | .error e => some (.error e)
    | .ok _ => (b.execSequenceBounded litSrc litLength offset matchLength).map .ok
  else
    (execSequenceBody false b.slice b.tail litSrc litLength offset matchLength).map fun slice =>
      .ok (b.advance (litLength + matchLength) slice)

def execSequenceInlineAvx2 (b : UserSlice) (litSrc : List UInt8)
    (litLength offset matchLength : Nat) : Option (Except ExecuteSequencesError UserSlice) :=
  match sequenceOutputFits litLength matchLength b.tail b.sequenceCap 0 with
  | .error e => some (.error e)
  | .ok _ =>
    if b.sequenceCap - b.tail < litLength + matchLength + 31 then
      (b.execSequenceBounded litSrc litLength offset matchLength).map .ok
    else
      (execSequenceBody true b.slice b.tail litSrc litLength offset matchLength).map fun slice =>
        .ok (b.advance (litLength + matchLength) slice)

/-- The executor of a CPU tier. -/
def execInline (b : UserSlice) (wide : Bool) (litSrc : List UInt8)
    (litLength offset matchLength : Nat) : Option (Except ExecuteSequencesError UserSlice) :=
  if wide then b.execSequenceInlineAvx2 litSrc litLength offset matchLength
  else b.execSequenceInline litSrc litLength offset matchLength

def execSequenceInlineDict (b : UserSlice) (wide : Bool) (litSrc : List UInt8) (litLength : Nat)
    (dictSrc : List UInt8) (matchLength : Nat) : Option (Except ExecuteSequencesError UserSlice) :=
  match sequenceOutputFits litLength matchLength b.tail b.sequenceCap 0 with
  | .error e => some (.error e)
  | .ok _ =>
    (execSequenceDictBody wide b.slice b.tail b.sequenceCap litSrc litLength dictSrc
      matchLength).map fun slice => .ok (b.advance (litLength + matchLength) slice)

/-- The slice after `data` was written behind the tail: what was there stays, and so does whatever
lies past the cap. -/
structure Took (b : UserSlice) (data : List UInt8) (b' : UserSlice) : Prop where
  wf : b'.Wf
  view_eq : b'.view = b.view.append data
  kept : ∀ slot, slot < b.tail ∨ b.sequenceCap ≤ slot → b'.slice[slot]? = b.slice[slot]?

section Specs

variable {b : UserSlice} {litSrc dictSrc data slice : List UInt8}
  {litLength offset matchLength slack : Nat}

theorem Wf.view_bytes (h : b.Wf) : b.view.written.length = b.tail := by
  have := h.tail_le
  have := h.cap_le
  exact List.length_take_of_le (by omega)

theorem Wf.took (h : b.Wf) (hw : Written b.slice (b.slice.take b.tail ++ data) slack slice)
    (hroom : b.tail + data.length + slack ≤ b.sequenceCap) :
    b.Took data (b.advance data.length slice) := by
  have hhead := h.head_le
  have hcap := h.cap_le
  have hbelow : (b.slice.take b.tail).length = b.tail := List.length_take_of_le (by omega)
  have hout : (b.slice.take b.tail ++ data).length = b.tail + data.length := by
    rw [List.length_append, hbelow]
  have hfront : slice.take (b.tail + data.length) = b.slice.take b.tail ++ data := by
    rw [← hout]
    exact hw.front
  refine ⟨⟨?_, ?_, ?_⟩, ?_, ?_⟩
  · change b.head ≤ b.tail + data.length
    omega
  · change b.tail + data.length ≤ b.sequenceCap
    omega
  · exact hcap.trans_eq hw.length.symm
  · simp only [view, advance, UserSliceBackend.append, hfront, hw.length]
  · rintro slot (hlow | hhigh)
    · have hslot := congrArg (·[slot]?) hfront
      simp only [List.getElem?_take_of_lt (show slot < b.tail + data.length by omega),
        List.getElem?_append_left (show slot < (b.slice.take b.tail).length by omega),
        List.getElem?_take_of_lt hlow] at hslot
      exact hslot
    · obtain ⟨k, hk⟩ := Nat.exists_eq_add_of_le (hroom.trans hhigh)
      have hslot := congrArg (·[k]?) hw.rest
      simp only [hout, List.getElem?_drop] at hslot
      rwa [hk]

/-- Whichever copy is taken, exact or overshooting, the literals and the match are written, when
they fit below the cap. -/
theorem Wf.copies (h : b.Wf) (hread : LiteralsReadable litSrc litLength) (hpos : 0 < offset)
    (hle : offset ≤ b.tail + litLength) (hmatch : 0 < matchLength)
    (hfit : b.tail + (litLength + matchLength) ≤ b.sequenceCap) {new : List UInt8}
    (hnew : b.slice.take b.tail ++ litSrc.take litLength ++ new =
      copyMatch offset matchLength (b.slice.take b.tail ++ litSrc.take litLength)) :
    (∃ b', b.execSequenceBounded litSrc litLength offset matchLength = some b' ∧
      b.Took (litSrc.take litLength ++ new) b') ∧
    ∀ wide, b.tail + (litLength + matchLength) + maxWildcopyOvershoot wide ≤ b.sequenceCap →
      ∃ slice, execSequenceBody wide b.slice b.tail litSrc litLength offset matchLength =
          some slice ∧
        b.Took (litSrc.take litLength ++ new) (b.advance (litLength + matchLength) slice) := by
  have hcap := h.cap_le
  have hlits : (litSrc.take litLength).length = litLength := by
    obtain ⟨hrounded, -, -⟩ := rounds_mul (show 0 < 16 by decide) litLength
    exact List.length_take_of_le (hrounded.trans hread)
  have hbase : (b.slice.take b.tail ++ litSrc.take litLength).length = b.tail + litLength := by
    rw [List.length_append, hlits, List.length_take_of_le (by omega)]
  have hlen : (litSrc.take litLength ++ new).length = litLength + matchLength := by
    have hall := congrArg List.length hnew
    rw [List.length_append, hbase, length_copyMatch hpos (by omega), hbase] at hall
    rw [List.length_append, hlits]
    omega
  constructor
  · have hshort : litLength ≤ litSrc.length := by
      rw [List.length_take] at hlits
      omega
    obtain ⟨slice, hcopy, hw⟩ := execSequenceBoundedCopy_written b.slice b.tail hshort hpos hle
      (show b.tail + (litLength + matchLength) ≤ b.slice.length by omega)
    rw [← hnew, List.append_assoc] at hw
    refine ⟨b.advance (litLength + matchLength) slice, ?_, ?_⟩
    · simp only [execSequenceBounded, hcopy, Option.map_some]
    · rw [← hlen]
      exact h.took hw (by omega)
  · intro wide hroom
    obtain ⟨slice, hcopy, hw⟩ := execSequenceBody_written b.slice b.tail wide hread hpos hle hmatch
      (by omega)
    rw [← hnew, List.append_assoc] at hw
    refine ⟨slice, hcopy, ?_⟩
    rw [← hlen]
    exact h.took hw (by omega)

/-- A sequence that fits below the cap is executed; one that does not is refused, and writes
nothing. -/
theorem Wf.execInline (h : b.Wf) (wide : Bool) (hread : LiteralsReadable litSrc litLength)
    (hpos : 0 < offset) (hle : offset ≤ b.tail + litLength) (hmatch : 0 < matchLength)
    {new : List UInt8} (hnew : b.slice.take b.tail ++ litSrc.take litLength ++ new =
      copyMatch offset matchLength (b.slice.take b.tail ++ litSrc.take litLength)) :
    (b.tail + (litLength + matchLength) ≤ b.sequenceCap →
      ∃ b', b.execInline wide litSrc litLength offset matchLength = some (.ok b') ∧
        b.Took (litSrc.take litLength ++ new) b') ∧
    (¬b.tail + (litLength + matchLength) ≤ b.sequenceCap →
      ∃ e, b.execInline wide litSrc litLength offset matchLength = some (.error e)) := by
  have htail := h.tail_le
  constructor
  · intro hfit
    obtain ⟨⟨b', hexact, htook⟩, hbody⟩ := h.copies hread hpos hle hmatch hfit hnew
    have hok : sequenceOutputFits litLength matchLength b.tail b.sequenceCap 0 = .ok () :=
      if_neg (by omega)
    cases wide with
    | true =>
      simp only [UserSlice.execInline, if_true, execSequenceInlineAvx2, hok]
      split
      · exact ⟨b', by rw [hexact, Option.map_some], htook⟩
      · obtain ⟨slice, hcopy, htook⟩ := hbody true (by
          change b.tail + (litLength + matchLength) + 31 ≤ b.sequenceCap
          omega)
        exact ⟨_, by rw [hcopy, Option.map_some], htook⟩
    | false =>
      simp only [UserSlice.execInline, Bool.false_eq_true, if_false, execSequenceInline, hok]
      split
      · exact ⟨b', by rw [hexact, Option.map_some], htook⟩
      · obtain ⟨slice, hcopy, htook⟩ := hbody false (by
          change b.tail + (litLength + matchLength) + 15 ≤ b.sequenceCap
          omega)
        exact ⟨_, by rw [hcopy, Option.map_some], htook⟩
  · intro hover
    have herr : sequenceOutputFits litLength matchLength b.tail b.sequenceCap 0 =
        .error (.outputBufferOverflow ⟨b.tail, litLength + matchLength, b.sequenceCap⟩) :=
      if_pos (by omega)
    cases wide with
    | true =>
      simp only [UserSlice.execInline, if_true, execSequenceInlineAvx2, herr]
      exact ⟨_, rfl⟩
    | false =>
      simp only [UserSlice.execInline, Bool.false_eq_true, if_false, execSequenceInline, herr]
      rw [if_pos (by omega)]
      exact ⟨_, rfl⟩

theorem Wf.execInlineDict (h : b.Wf) (wide : Bool) (hread : LiteralsReadable litSrc litLength)
    (hdict : matchLength ≤ dictSrc.length) (hmatch : 0 < matchLength) :
    (b.tail + (litLength + matchLength) ≤ b.sequenceCap →
      ∃ b', b.execSequenceInlineDict wide litSrc litLength dictSrc matchLength = some (.ok b') ∧
        b.Took (litSrc.take litLength ++ dictSrc.take matchLength) b') ∧
    (¬b.tail + (litLength + matchLength) ≤ b.sequenceCap →
      ∃ e, b.execSequenceInlineDict wide litSrc litLength dictSrc matchLength =
        some (.error e)) := by
  have htail := h.tail_le
  have hcap := h.cap_le
  simp only [execSequenceInlineDict]
  constructor
  · intro hfit
    have hok : sequenceOutputFits litLength matchLength b.tail b.sequenceCap 0 = .ok () :=
      if_neg (by omega)
    have hlen : (litSrc.take litLength ++ dictSrc.take matchLength).length =
        litLength + matchLength := by
      obtain ⟨hrounded, -, -⟩ := rounds_mul (show 0 < 16 by decide) litLength
      rw [List.length_append, List.length_take_of_le (hrounded.trans hread),
        List.length_take_of_le hdict]
    obtain ⟨slice, slack, hcopy, hw, -, hroom⟩ := execSequenceDictBody_written b.slice b.tail wide
      hread hdict hmatch hfit hcap
    rw [List.append_assoc] at hw
    refine ⟨b.advance (litLength + matchLength) slice, ?_, ?_⟩
    · simp only [hok, hcopy, Option.map_some]
    · rw [← hlen]
      exact h.took hw (by omega)
  · intro hover
    have herr : sequenceOutputFits litLength matchLength b.tail b.sequenceCap 0 =
        .error (.outputBufferOverflow ⟨b.tail, litLength + matchLength, b.sequenceCap⟩) :=
      if_pos (by omega)
    simp only [herr]
    exact ⟨_, rfl⟩

end Specs

end UserSlice

end Decoding
