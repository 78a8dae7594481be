import Mathlib.Data.List.GetD
import StructuredZstd.Decoding.InlineExec
import StructuredZstd.Decoding.LawfulBackends
import StructuredZstd.Ring.QueueRuns

namespace Ring.RingBuffer

open Bits.Circular Lz
open Decoding

/-- Room for a sequence and the widest overshoot, up to the end of the ring or to its head; a sum
past `usize` is past both. -/
def inlineExecDictOk (r : RingBuffer) (litLength matchLength : Nat) : Bool :=
  let reach := r.tail + litLength + matchLength + 31
  (if r.head ≤ r.tail then reach < r.cap else reach < r.head) ∧
    r.len + litLength + matchLength ≤ r.maxCapacity

/-- And, on a ring that has gone round, a match source behind slot 0. -/
def inlineExecOk (r : RingBuffer) (litLength matchLength offset : Nat) : Bool :=
  r.inlineExecDictOk litLength matchLength ∧ (r.head ≤ r.tail ∨ offset ≤ r.tail + litLength)

def inlineExecCommit (r : RingBuffer) (newTail : Nat) : RingBuffer :=
  { r with tail := if newTail = r.cap then 0 else newTail }

def execSequenceInline (r : RingBuffer) (wide : Bool) (litSrc : List UInt8)
    (litLength offset matchLength : Nat) : Option (Except ExecuteSequencesError RingBuffer) :=
  match sequenceOutputFits litLength matchLength r.tail r.cap (maxWildcopyOvershoot wide) with
  | .error e => some (.error e)
  | .ok _ =>
    (execSequenceBody wide r.buf r.tail litSrc litLength offset matchLength).map fun buf =>
      .ok ({ r with buf := buf }.inlineExecCommit (r.tail + (litLength + matchLength)))

def execSequenceInlineDict (r : RingBuffer) (wide : Bool) (litSrc : List UInt8) (litLength : Nat)
    (dictSrc : List UInt8) (matchLength : Nat) :
    Option (Except ExecuteSequencesError RingBuffer) :=
  match sequenceOutputFits litLength matchLength r.tail r.cap 0 with
  | .error e => some (.error e)
  | .ok _ =>
    (execSequenceDictBody wide r.buf r.tail r.cap litSrc litLength dictSrc matchLength).map
      fun buf => .ok ({ r with buf := buf }.inlineExecCommit (r.tail + (litLength + matchLength)))

/-- The ring as the queue it stores. -/
def queue (r : RingBuffer) : Decoding.RingBuffer :=
  ⟨r.content, r.head, r.cap, r.maxCapacity, r.growthLimit⟩

section Specs

variable {r r' : RingBuffer} {litSrc dictSrc lits data mem : List UInt8}
  {litLength offset matchLength slack : Nat}

theorem Wf.queue (h : r.Wf) : r.queue.Wf :=
  ⟨(length_content r).trans_le h.len_le, h.head_le⟩

theorem Wf.queue_tail (h : r.Wf) : r.queue.tail = r.tail := by
  have hlen : r.queue.tail = r.wrap (r.head + r.content.length) := rfl
  rw [hlen, length_content]
  rcases Nat.eq_zero_or_pos r.cap with hzero | hcap
  · have hhead := h.head_le
    have htail := h.tail_le
    have hnone := h.len_le
    rw [hzero] at hhead htail hnone
    rw [wrap, hzero, if_pos (Nat.zero_le _)]
    omega
  · rw [h.wrap_eq (h.len_le.trans (Nat.sub_le ..)) hcap, ← h.tail_eq hcap]

theorem Wf.queue_inlineExecDictOk (h : r.Wf) (litLength matchLength : Nat) :
    r.queue.inlineExecDictOk litLength matchLength = r.inlineExecDictOk litLength matchLength := by
  have hlen : r.queue.live.length = r.len := length_content r
  simp only [Decoding.RingBuffer.inlineExecDictOk, inlineExecDictOk, h.queue_tail, hlen]
  rfl

/-- A stretch written behind the tail, which overshoots into free slots only, is appended. -/
theorem Wf.written (h : r.Wf) (hcap : 0 < r.cap)
    (hw : Written r.buf (r.buf.take r.tail ++ data) slack mem)
    (hroom : r.tail + data.length + slack < if r.head ≤ r.tail then r.cap else r.head) :
    let r' := { r with buf := mem }.inlineExecCommit (r.tail + data.length)
    r'.Wf ∧ r'.content = r.content ++ data ∧ r'.cap = r.cap ∧
      ∀ slot, r.Live slot → r'.buf.getD slot default = r.buf.getD slot default := by
  have hhead := h.head_le
  have htail := h.tail_le
  have hmem := h.memory hcap
  have hshort : r.tail + data.length < r.cap := by
    split_ifs at hroom <;> omega
  have hout : (r.buf.take r.tail ++ data).length = r.tail + data.length := by
    rw [List.length_append, List.length_take_of_le (by omega)]
  have hfront : ∀ slot < r.tail + data.length,
      mem.getD slot default = (r.buf.take r.tail ++ data).getD slot default := by
    intro slot hslot
    rw [← hw.front, getD_take (by omega)]
  have hlive : ∀ slot, r.Live slot → mem.getD slot default = r.buf.getD slot default := by
    intro slot hslot
    simp only [Live] at hslot
    rcases Nat.lt_or_ge slot r.tail with hbelow | habove
    · have hin : slot < (r.buf.take r.tail).length := by
        rw [List.length_take_of_le (by omega)]
        exact hbelow
      rw [hfront slot (by omega), List.getD_append _ _ _ _ hin, getD_take hbelow]
    · -- past the tail only the upper segment of a ring that has gone round is live
      have hfar : r.tail + data.length + slack ≤ slot := by
        split_ifs at hroom hslot <;> omega
      obtain ⟨k, hk⟩ := Nat.exists_eq_add_of_le hfar
      have hrest := congrArg (List.getD · k default) hw.rest
      simp only [hout, getD_drop] at hrest
      rwa [hk]
  have happends : r.Appends mem data := by
    refine ⟨⟨hw.length, hlive⟩, ?_⟩
    intro j hj
    have hwrap : r.wrap (r.tail + j) = r.tail + j := if_neg (by omega)
    have hlen : (r.buf.take r.tail).length = r.tail := List.length_take_of_le (by omega)
    rw [hwrap, hfront _ (by omega), List.getD_append_right _ _ _ _ (by omega), hlen,
      Nat.add_sub_cancel_left]
  have hfree : data.length ≤ r.free := by
    have hlen := len_eq r
    rw [h.free_eq]
    split_ifs at hroom hlen <;> omega
  have hwrap : r.wrap (r.tail + data.length) = r.tail + data.length := if_neg (by omega)
  obtain ⟨hwf, hcontent⟩ := happends.content h hcap hfree
  rw [hwrap] at hwf hcontent
  have hcommit : { r with buf := mem }.inlineExecCommit (r.tail + data.length) =
      { r with buf := mem, tail := r.tail + data.length } := by
    rw [inlineExecCommit, if_neg (by omega : ¬r.tail + data.length = r.cap)]
  simp only [hcommit]
  exact ⟨hwf, hcontent, trivial, hlive⟩

/-- Behind the memory up to the tail a match is what it is behind the content, when its source lies
in both. -/
theorem Wf.copied (h : r.Wf) (hcap : 0 < r.cap) (hpos : 0 < offset)
    (hlen : offset ≤ r.len + lits.length) (hlow : r.head ≤ r.tail ∨ offset ≤ r.tail + lits.length)
    (hcopy : r.buf.take r.tail ++ lits ++ data =
      copyMatch offset matchLength (r.buf.take r.tail ++ lits)) :
    r.content ++ lits ++ data = copyMatch offset matchLength (r.content ++ lits) := by
  have hhead := h.head_le
  have htail := h.tail_le
  have hmem := h.memory hcap
  have hslices := h.asSlices hcap
  simp only [RingBuffer.asSlices, dataSliceLengths] at hslices
  split_ifs at hslices with hflat
  · -- the content is the end of what lies before the tail
    have hsplit : r.buf.take r.tail = r.buf.take r.head ++ r.content := by
      rw [← hslices, List.take_zero, List.append_nil, ← List.take_add,
        Nat.add_sub_cancel' hflat]
    have hreach : offset ≤ (r.content ++ lits).length := by
      rw [List.length_append, length_content]
      exact hlen
    have hall := copyMatch_append (n := matchLength) hpos hreach (r.buf.take r.head)
    rw [← List.append_assoc, ← hsplit] at hall
    rw [hall, hsplit] at hcopy
    simp only [List.append_assoc] at hcopy ⊢
    exact List.append_cancel_left hcopy
  · -- what lies before the tail is the end of the content
    have hreach : offset ≤ (r.buf.take r.tail ++ lits).length := by
      rw [List.length_append, List.length_take_of_le (by omega)]
      exact hlow.resolve_left hflat
    have hall := copyMatch_append (n := matchLength) hpos hreach
      ((r.buf.drop r.head).take (r.cap - r.head))
    rw [← List.append_assoc, hslices] at hall
    rw [hall, ← hcopy, ← hslices]
    simp only [List.append_assoc]

theorem sequenceOutputFits_ok {tail cap overshoot : Nat}
    (h : tail + (litLength + matchLength) + overshoot ≤ cap) :
    sequenceOutputFits litLength matchLength tail cap overshoot = .ok () := by
  simp only [sequenceOutputFits]
  rw [if_neg (by omega)]

/-- A ring with room for a sequence and its overshoot, and the end of that room. -/
theorem inlineExecDictOk_room (hok : r.inlineExecDictOk litLength matchLength = true) (h : r.Wf) :
    0 < r.cap ∧ r.tail + (litLength + matchLength) + 31 < r.cap ∧
      r.tail + (litLength + matchLength) + 31 < if r.head ≤ r.tail then r.cap else r.head := by
  have hhead := h.head_le
  simp only [inlineExecDictOk, decide_eq_true_eq] at hok
  obtain ⟨hfit, -⟩ := hok
  split_ifs at hfit ⊢ <;> omega

theorem maxWildcopyOvershoot_le (wide : Bool) : maxWildcopyOvershoot wide ≤ 31 := by
  cases wide <;> decide

/-- Past its gate the inline executor appends the literals and the match, and the content before
them stays where it is. -/
theorem Wf.execSequenceInline (h : r.Wf) (wide : Bool) (hread : LiteralsReadable litSrc litLength)
    (hpos : 0 < offset) (hle : offset ≤ r.len + litLength) (hmatch : 0 < matchLength)
    (hok : r.inlineExecOk litLength matchLength offset = true) :
    ∃ r', r.execSequenceInline wide litSrc litLength offset matchLength = some (.ok r') ∧ r'.Wf ∧
      r'.content = copyMatch offset matchLength (r.content ++ litSrc.take litLength) ∧
      ∀ slot, r.Live slot → r'.buf.getD slot default = r.buf.getD slot default := by
  simp only [inlineExecOk, decide_eq_true_eq] at hok
  obtain ⟨hdict, hlow⟩ := hok
  obtain ⟨hcap, hfit, hroom⟩ := inlineExecDictOk_room hdict h
  have hover := maxWildcopyOvershoot_le wide
  have hmem := h.memory hcap
  have htail := h.tail_le
  have hlits : (litSrc.take litLength).length = litLength := by
    obtain ⟨hrounded, -, -⟩ := rounds_mul (show 0 < 16 by decide) litLength
    exact List.length_take_of_le (hrounded.trans hread)
  have hbase : (r.buf.take r.tail ++ litSrc.take litLength).length = r.tail + litLength := by
    rw [List.length_append, hlits, List.length_take_of_le (by omega)]
  have hbelow : offset ≤ r.tail + litLength := by
    rcases hlow with hflat | hlow
    · have hlen := len_eq r
      rw [if_pos hflat] at hlen
      omega
    · exact hlow
  obtain ⟨mem, hbody, hw⟩ := execSequenceBody_written r.buf r.tail wide hread
    hpos hbelow hmatch (by omega)
  obtain ⟨new, hnew⟩ := Lz.prefix_copyMatch offset matchLength
    (r.buf.take r.tail ++ litSrc.take litLength)
  have hlen : (litSrc.take litLength ++ new).length = litLength + matchLength := by
    have hall := congrArg List.length hnew
    rw [List.length_append, hbase, length_copyMatch hpos (by omega), hbase] at hall
    rw [List.length_append, hlits]
    omega
  rw [← hnew, List.append_assoc] at hw
  obtain ⟨hwf, hcontent, -, hlive⟩ := h.written hcap hw (by rw [hlen]; omega)
  rw [hlen] at hwf hcontent hlive
  refine ⟨_, ?_, hwf, ?_, hlive⟩
  · simp only [RingBuffer.execSequenceInline]
    rw [sequenceOutputFits_ok (by omega)]
    simp only [hbody, Option.map_some]
  · rw [hcontent, ← List.append_assoc]
    exact h.copied hcap hpos (by rw [hlits]; exact hle) (by rwa [hlits]) hnew

/-- And the dictionary one. -/
theorem Wf.execSequenceInlineDict (h : r.Wf) (wide : Bool)
    (hread : LiteralsReadable litSrc litLength) (hdict : matchLength ≤ dictSrc.length)
    (hmatch : 0 < matchLength) (hok : r.inlineExecDictOk litLength matchLength = true) :
    ∃ r', r.execSequenceInlineDict wide litSrc litLength dictSrc matchLength = some (.ok r') ∧
      r'.Wf ∧ r'.content = r.content ++ litSrc.take litLength ++ dictSrc.take matchLength ∧
      ∀ slot, r.Live slot → r'.buf.getD slot default = r.buf.getD slot default := by
  obtain ⟨hcap, hfit, hroom⟩ := inlineExecDictOk_room hok h
  have hover := maxWildcopyOvershoot_le wide
  have hmem := h.memory hcap
  have hlits : (litSrc.take litLength).length = litLength := by
    obtain ⟨hrounded, -, -⟩ := rounds_mul (show 0 < 16 by decide) litLength
    exact List.length_take_of_le (hrounded.trans hread)
  have hlen : (litSrc.take litLength ++ dictSrc.take matchLength).length =
      litLength + matchLength := by
    rw [List.length_append, hlits, List.length_take_of_le hdict]
  obtain ⟨mem, slack, hbody, hw, hslack, -⟩ := execSequenceDictBody_written r.buf r.tail
    wide hread hdict hmatch (show _ ≤ r.cap by omega) (by omega)
  rw [List.append_assoc] at hw
  obtain ⟨hwf, hcontent, -, hlive⟩ := h.written hcap hw (by rw [hlen]; omega)
  rw [hlen] at hwf hcontent hlive
  refine ⟨_, ?_, hwf, hcontent.trans (List.append_assoc ..).symm, hlive⟩
  simp only [RingBuffer.execSequenceInlineDict]
  rw [sequenceOutputFits_ok (by omega)]
  simp only [hbody, Option.map_some]

end Specs

end Ring.RingBuffer
