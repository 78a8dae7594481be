import StructuredZstd.Huff0.ContainerBits
import StructuredZstd.Huff0.EmittedStreams
import StructuredZstd.Huff0.TableCoverage

namespace Huff0.Encoder

open Bits BitIo

namespace HufCStream

variable {s : HufCStream} {bits : Stack} {log room unroll dst : Nat}

/-- A flush inside the room: the whole bytes are committed, the others stay behind the cursor. -/
theorem flushBits_eq (fast : Bool) (hin : s.committed.length + s.container.held / 8 ≤ s.room) :
    s.flushBits fast =
      { s with
        container := { s.container with pos := s.container.pos &&& 7 }
        committed := s.committed ++
          (toLeBytes 8 (s.container.word >>> ((64 - s.container.held) % 64))).take
            (s.container.held / 8)
        scratch := (toLeBytes 8 (s.container.word >>> ((64 - s.container.held) % 64))).drop
          (s.container.held / 8) } := by
  have hbytes : (s.container.pos &&& 0xFF) >>> 3 = s.container.held / 8 :=
    Nat.shiftRight_eq_div_pow _ 3
  have hclamp : (!fast &&
      decide (s.room < s.committed.length + s.container.held / 8)) = false := by
    rw [decide_eq_false (Nat.not_lt.mpr hin), Bool.and_false]
  simp only [flushBits, hbytes, hclamp, Bool.false_eq_true, if_false, Bool.or_false,
    List.take_length_add_append, List.drop_length_add_append]
  rfl

theorem held_flushed (c : Container) :
    ({ c with pos := c.pos &&& 7 } : Container).held = c.held % 8 := by
  rw [Container.held_eq, Container.held_eq]
  simp only [show c.pos &&& 7 = c.pos % 8 from Nat.and_two_pow_sub_one_eq_mod _ 3]
  omega

/-- What the container holds comes out of the shift. -/
theorem chunk_eq {c : Container} (h : c.Holds 0 bits) (hpos : 0 < bits.len) :
    c.word >>> ((64 - c.held) % 64) = bits.value := by
  have hfits := h.fits
  have htop := h.top
  rw [Nat.pow_zero, Nat.mul_one, Nat.add_zero] at htop
  rwa [h.held_eq, Nat.mod_eq_of_lt (by omega)]

/-- A flush settles the lowest bits and keeps the rest of them on top of the word. -/
theorem flushBits_contents (fast : Bool) (h : s.container.Holds 0 bits)
    (hin : s.committed.length + bits.len / 8 ≤ s.room) :
    (s.flushBits fast).container.Holds 0 (bits.above (8 * (bits.len / 8))) ∧
      (Stack.ofBytes (s.flushBits fast).committed).on (bits.above (8 * (bits.len / 8))) =
        (Stack.ofBytes s.committed).on bits := by
  have hfits := h.fits
  have hdiv := Nat.div_add_mod bits.len 8
  rw [flushBits_eq fast (by rwa [h.held_eq]), h.held_eq]
  constructor
  · refine ⟨?_, ?_, ?_⟩
    · rw [held_flushed, h.held_eq, Stack.above_len]
      omega
    · rw [Stack.above_len]
      omega
    · have htop := h.top
      simp only [Stack.above_len, Nat.pow_zero, Nat.mul_one] at htop ⊢
      rw [show 64 - (bits.len - 8 * (bits.len / 8) + 0) =
        64 - (bits.len + 0) + 8 * (bits.len / 8) by omega, Nat.shiftRight_add, htop,
        Nat.shiftRight_eq_div_pow]
      rfl
  · apply Stack.on_above _ _ _ (Nat.mul_div_le _ _)
    · simp only [Stack.ofBytes_len, List.length_append, List.length_take, toLeBytes_length]
      omega
    · simp only [Stack.ofBytes_value, Stack.ofBytes_len, le_append, le_take, le_toLeBytes]
      congr 2
      rcases Nat.eq_zero_or_pos bits.len with h0 | hpos
      · simp only [h0, Nat.zero_div, Nat.mul_zero, Nat.pow_zero, Nat.mod_one]
      · have hword : bits.value % 2 ^ (8 * 8) = bits.value :=
          Nat.mod_eq_of_lt (bits.lt.trans_le (Nat.pow_le_pow_right (by decide) (by omega)))
        rw [← h.held_eq, chunk_eq h hpos, hword]

/-- A stream on its way to some bits, with the codes of these fields still to come. -/
structure WritingTo (log room : Nat) (all : Stack) (s : HufCStream) (rest : List Nat) : Prop where
  counted : ∃ n, s.Counted n room
  contents : ∃ fields bits, rest = fields.map packField ∧ (∀ f ∈ fields, FitsIn log f) ∧
    s.container.Holds 0 bits ∧ ((Stack.ofBytes s.committed).on bits).pushAll fields = all

variable {all : Stack} {fields : List (Nat × Nat)}

/-- Codes gathered on top of fewer than eight bits. -/
def Gathers (log unroll : Nat) (gather : Container → List Nat → Container) : Prop :=
  ∀ (c : Container) (bits : Stack) (fields : List (Nat × Nat)), c.Holds 0 bits → bits.len < 8 →
    (∀ f ∈ fields, FitsIn log f) → fields.length ≤ unroll →
      (gather c (fields.map packField)).Holds 0 (bits.pushAll fields)

theorem WritingTo.keeps {gather : Container → List Nat → Container}
    (hgather : Gathers log unroll gather) (hk : unroll * log ≤ 56) (fast : Bool)
    (hall : all.len / 8 ≤ room) (hdst : room + 8 ≤ dst) :
    Keeps (flushWithin dst fast) unroll (WritingTo log room all) gather := by
  intro s elts rest hlen h
  obtain ⟨n, hcounted⟩ := h.counted
  obtain ⟨fields, bits, hmap, hfits, hholds, htotal⟩ := h.contents
  obtain ⟨now, later, rfl, rfl, rfl⟩ := List.append_eq_map_iff.mp hmap
  rw [List.length_map] at hlen
  have hnow : ∀ f ∈ now, FitsIn log f := fun f hf => hfits f (List.mem_append_left _ hf)
  have hheld := hcounted.held_lt
  rw [hholds.held_eq] at hheld
  have hgathered := hgather _ _ now hholds hheld hnow hlen
  have hsum : Container.fieldBits now ≤ 56 :=
    (Container.fieldBits_le hnow).trans ((Nat.mul_le_mul_right _ hlen).trans hk)
  -- what is written so far is below the total
  have hlower : 8 * s.committed.length + (bits.len + Container.fieldBits now) ≤ all.len := by
    rw [← htotal, Stack.pushAll_len, List.map_append, List.sum_append]
    simp only [Stack.on, Stack.ofBytes_len, Container.fieldBits]
    omega
  have hn : n = 8 * s.committed.length + bits.len := by
    rw [← hcounted.bits_eq, hholds.held_eq]
  have hroom := hcounted.room_eq
  obtain ⟨hholds', hcontents⟩ := @flushBits_contents
    { s with container := gather s.container (now.map packField) } (bits.pushAll now) fast hgathered (by
      rw [Stack.pushAll_len]
      simp only [Container.fieldBits] at hlower
      simp only [hroom]
      omega)
  refine ⟨_, flushWithin_counted hcounted fast (by omega) hdst, ⟨n + Container.fieldBits now, ?_⟩,
    later, _, rfl, fun f hf => hfits f (List.mem_append_right _ hf), hholds', ?_⟩
  · apply hcounted.round fast _ hsum (by omega)
    rw [hgathered.held_eq, Stack.pushAll_len, hholds.held_eq]
    rfl
  · rw [hcontents, Stack.on_pushAll, ← Stack.pushAll_append]
    exact htotal

theorem gathers_slow (hlog : log ≤ 12) (hk : unroll * log ≤ 57) :
    Gathers log unroll Container.addSlow := by
  intro c bits fields h hlt hfields hlen
  have hsum := Container.fieldBits_le hfields
  have hgroup := Nat.mul_le_mul_right log hlen
  exact h.addSlow hlog hfields (by omega)

/-- A group of codes whose fast ones leave four bits free, with seven spare. -/
theorem group_holds (hlog : log ≤ 12) {lastFast : Bool} (hfast : (unroll - 1) * log ≤ 53)
    (hlast : unroll * log ≤ if lastFast then 53 else 57) {c : Container} {bits : Stack}
    {spare : Nat} (h : c.Holds spare bits) (hspare : bits.len + spare ≤ 7)
    (hfields : ∀ f ∈ fields, FitsIn log f) (hlen : fields.length ≤ unroll) :
    (c.addGroup lastFast (fields.map packField)).Holds spare (bits.pushAll fields) := by
  have hsum := Container.fieldBits_le hfields
  have hgroup := Nat.mul_le_mul_right log hlen
  have hbefore : (fields.length - 1) * log ≤ (unroll - 1) * log :=
    Nat.mul_le_mul_right log (Nat.sub_le_sub_right hlen 1)
  apply h.addGroup hlog hfields
  · omega
  · split at hlast
    · rename_i hl
      rw [if_pos hl]
      omega
    · rename_i hl
      rw [if_neg hl]
      omega

theorem gathers_group (hlog : log ≤ 12) {lastFast : Bool} (hfast : (unroll - 1) * log ≤ 53)
    (hlast : unroll * log ≤ if lastFast then 53 else 57) :
    Gathers log unroll (Container.addGroup lastFast) :=
  fun _ _ _ h hlt => group_holds hlog hfast hlast h (Nat.le_of_lt_succ hlt)

/-- The second container starts blank, with the first one's seven bits to spare. -/
theorem gathers_merged (hlog : log ≤ 12) {lastFast : Bool} (hfast : (unroll - 1) * log ≤ 53)
    (hlast : unroll * log ≤ if lastFast then 53 else 57) :
    Gathers log unroll fun c elts => c.merge (Container.addGroup lastFast {} elts) := by
  intro c bits fields h hlt hfields hlen
  have hsecond := group_holds hlog hfast hlast (Container.holds_blank (show 7 ≤ 64 by decide))
    (Nat.le_refl 7) hfields hlen
  have := h.merge hsecond (Nat.le_of_lt_succ hlt)
  rwa [Stack.on_pushAll, Stack.on_empty] at this

theorem encodeUnrolledWith_contents (hlog : log ≤ 12) (hpos : 0 < unroll) (fast lastFast : Bool)
    (hfast : (unroll - 1) * log ≤ 53) (hlast : unroll * log ≤ if lastFast then 53 else 57)
    (hk : unroll * log ≤ 56) (hall : all.len / 8 ≤ room) (hdst : room + 8 ≤ dst) {elts : List Nat}
    (h : WritingTo log room all s elts) :
    ∃ s', encodeUnrolledWith (flushWithin dst fast) unroll lastFast s elts = some s' ∧
      WritingTo log room all s' [] :=
  encodeUnrolledWith_run (WritingTo.keeps (gathers_group hlog hfast hlast) hk fast hall hdst)
    (WritingTo.keeps (gathers_merged hlog hfast hlast) hk fast hall hdst)
    (WritingTo.keeps (gathers_slow hlog (hk.trans (by decide))) hk fast hall hdst) hpos h

/-- Whatever the table log dispatches to, the bits written are those of the codes. -/
theorem encodeOneStreamWithin_contents (hlog : log ≤ 12) (hall : all.len / 8 ≤ room)
    (hdst : room + 8 ≤ dst) {elts : List Nat} (h : WritingTo log room all s elts) :
    ∃ s', encodeOneStreamWithin dst log s elts = some s' ∧ WritingTo log room all s' [] := by
  have hrun : ∀ unroll fast lastFast, 0 < unroll → (unroll - 1) * log ≤ 53 →
      (unroll * log ≤ if lastFast then 53 else 57) → unroll * log ≤ 56 →
      ∃ s', encodeUnrolledWith (flushWithin dst fast) unroll lastFast s elts = some s' ∧
        WritingTo log room all s' [] :=
    fun unroll fast lastFast hpos hfast hlast hk =>
      encodeUnrolledWith_contents hlog hpos fast lastFast hfast hlast hk hall hdst h
  unfold encodeOneStreamWithin
  split
  · exact hrun _ _ _ (by decide) (by decide) (by decide) (by decide)
  · exact hrun _ _ _ (by decide) (by decide) (by decide) (by decide)
  · exact hrun _ _ _ (by decide) (by decide) (by decide) (by decide)
  · exact hrun _ _ _ (by decide) (by decide) (by decide) (by decide)
  · exact hrun _ _ _ (by decide) (by decide) (by decide) (by decide)
  · exact hrun _ _ _ (by decide) (by omega) (by rw [if_neg Bool.false_ne_true]; omega) (by omega)

/-- A close stores the end mark behind the bits held and counts their last byte in. -/
theorem close_eq (h : s.container.Holds 0 bits) (hlt : bits.len < 8) (hfits : s.overflow = false)
    (hin : s.committed.length + (bits.len + 1) / 8 ≤ s.room) :
    s.close = s.committed ++ (toLeBytes 8 (bits.push 1 1).value).take
      ((bits.len + 1) / 8 + if 0 < (bits.len + 1) % 8 then 1 else 0) := by
  have hmark : (s.container.add false endMark).Holds 0 (bits.push 1 1) :=
    h.add false (show 1 < 2 ^ 1 by decide) (by decide) (by
      rw [if_neg Bool.false_ne_true]
      omega)
  have hheld : (s.container.add false endMark).held = bits.len + 1 := hmark.held_eq
  have hchunk := chunk_eq hmark (Nat.succ_pos _)
  have hleft := held_flushed (s.container.add false endMark)
  rw [hheld] at hchunk hleft
  rw [close, flushBits_eq false (by simp only [hheld]; exact hin)]
  simp only [hheld, hchunk, hfits, Bool.false_eq_true, if_false]
  rw [show ((s.container.add false endMark).pos &&& 7) &&& 0xFF = (bits.len + 1) % 8 from hleft,
    List.append_assoc, ← List.take_add]

/-- The stream ends in a byte filled up with the end mark. -/
theorem close_contents (h : WritingTo log room all s []) (hroom : (all.len + 1) / 8 ≤ room) :
    s.close.length = all.len / 8 + 1 ∧ le s.close = all.value + 2 ^ all.len := by
  obtain ⟨n, hcounted⟩ := h.counted
  obtain ⟨fields, bits, hnil, -, hholds, hall⟩ := h.contents
  rw [List.map_eq_nil_iff.mp hnil.symm, Stack.pushAll_nil] at hall
  have hlen : 8 * s.committed.length + bits.len = all.len := congrArg Stack.len hall
  have hn : n = all.len := by
    rw [← hcounted.bits_eq, hholds.held_eq, hlen]
  subst hn
  refine ⟨close_length hcounted hroom, ?_⟩
  have hheld := hcounted.held_lt
  rw [hholds.held_eq] at hheld
  have hin : s.committed.length + (bits.len + 1) / 8 ≤ s.room := by
    rw [hcounted.room_eq]
    omega
  have hlast := (bits.push 1 1).lt
  have hword : (bits.push 1 1).value < 2 ^ (8 * 8) :=
    hlast.trans_le (Nat.pow_le_pow_right (by decide) (by rw [Stack.push_len]; omega))
  have hwhole : (bits.push 1 1).value <
      2 ^ (8 * ((bits.len + 1) / 8 + if 0 < (bits.len + 1) % 8 then 1 else 0)) := by
    apply hlast.trans_le (Nat.pow_le_pow_right (by decide) _)
    rw [Stack.push_len]
    split <;> omega
  rw [close_eq hholds hheld hcounted.fits hin, le_append, le_take, le_toLeBytes,
    Nat.mod_eq_of_lt hword, Nat.mod_eq_of_lt hwhole, ← hall,
    Stack.push_value_of_lt _ (show 1 < 2 ^ 1 by decide)]
  simp only [Stack.on, Stack.ofBytes_value, Stack.ofBytes_len, Nat.pow_add]
  ring

theorem closeWithin_close (h : WritingTo log room all s []) (hdst : all.len / 8 + 8 ≤ dst) :
    s.closeWithin dst = some s.close := by
  obtain ⟨fields, bits, hnil, -, -, hall⟩ := h.contents
  rw [List.map_eq_nil_iff.mp hnil.symm, Stack.pushAll_nil] at hall
  have hlen : 8 * s.committed.length + bits.len = all.len := congrArg Stack.len hall
  exact if_pos (by omega)

theorem new_blank (h : new dst = some s) : s.container = {} ∧ s.committed = [] := by
  unfold new at h
  split at h
  · cases h
  · cases h
    exact ⟨rfl, rfl⟩

end HufCStream

namespace HuffmanTable

/-- `encodeSegment` with every store checked against the room made for it. -/
def encodeSegmentWithin (t : HuffmanTable) (dst : Nat) (segment : List UInt8) :
    Option (List UInt8) := do
  let stream ← HufCStream.new dst
  let packed := segment.reverse.map fun symbol => t.packedCodes.getD symbol.toNat 0
  let stream ← stream.encodeOneStreamWithin dst t.tableLog packed
  let bytes ← stream.closeWithin dst
  if bytes = [] then none else some bytes

variable {t : HuffmanTable} {data : List UInt8}

theorem encodeSegmentWithin_eq {bytes : List UInt8}
    (h : t.encodeSegmentWithin (hufTightCompressBound data.length t.tableLog) data = some bytes) :
    t.encodeSegment data = some bytes := by
  simp only [encodeSegmentWithin, Option.bind_eq_bind, Option.bind_eq_some_iff] at h
  obtain ⟨s, hs, s', hs', closed, hclosed, h⟩ := h
  unfold HufCStream.closeWithin at hclosed
  split at hclosed
  · cases hclosed
    cases HufCStream.encodeOneStreamWithin_refines hs'
    simp only [encodeSegment, hs, Option.bind_eq_bind, Option.bind_some]
    exact h
  · cases hclosed

/-- The packed codes of a stream's symbols are those of its fields. -/
theorem Sound.packed_fields (h : t.Sound) (hdata : t.Encodes data) :
    (data.map fun s => t.packedCodes.getD s.toNat 0) = (t.codeFields data).map packField ∧
      ∀ f ∈ t.codeFields data, FitsIn t.tableLog f := by
  have hcode : ∀ s ∈ data, ∃ c n, t.codes[s.toNat]? = some (c, n) ∧
      t.codes.getD s.toNat (0, 0) = (c, n) := by
    intro s hs
    have hget := List.getElem?_eq_getElem (hdata.lt hs)
    refine ⟨_, _, hget, ?_⟩
    rw [List.getD_eq_getElem?_getD, hget]
    rfl
  constructor
  · rw [codeFields, List.map_map]
    apply List.map_congr_left
    intro s hs
    obtain ⟨c, n, hget, hfield⟩ := hcode s hs
    rw [h.packed _ _ _ hget, Function.comp_apply, hfield]
    rfl
  · intro f hf
    obtain ⟨s, hs, rfl⟩ := List.mem_map.mp hf
    obtain ⟨c, n, hget, hfield⟩ := hcode s hs
    rw [hfield]
    exact ⟨h.code_lt _ _ _ hget, h.width_le _ _ _ hget⟩

/-- Every store of a segment stays in its room, and its bytes are the codes under the end mark. -/
theorem Sound.encodeSegmentWithin (h : t.Sound) (hdata : t.Encodes data) :
    ∃ stream,
      t.encodeSegmentWithin (hufTightCompressBound data.length t.tableLog) data = some stream ∧
      stream.length = t.bitsOf data / 8 + 1 ∧
      le stream = (Stack.empty.pushAll (t.codeFields data.reverse)).value + 2 ^ t.bitsOf data := by
  have hrev : t.Encodes data.reverse := hdata.subset (List.reverse_subset.mpr (List.Subset.refl _))
  obtain ⟨hpacked, hfits⟩ := h.packed_fields hrev
  obtain ⟨s, hs, hcounted⟩ := HufCStream.new_counted data.length t.tableLog
  have hblank := HufCStream.new_blank hs
  have hbits := h.bitsOf_le data
  have hlen : (Stack.empty.pushAll (t.codeFields data.reverse)).len = t.bitsOf data := by
    rw [Stack.pushAll_len, codeFields_sum, bitsOf_reverse, Stack.empty_len, Nat.zero_add]
  have hbound : hufTightCompressBound data.length t.tableLog =
      data.length * t.tableLog / 8 + 24 := by
    rw [hufTightCompressBound, Nat.shiftRight_eq_div_pow]
  have hstart : HufCStream.WritingTo t.tableLog (data.length * t.tableLog / 8 + 16)
      (Stack.empty.pushAll (t.codeFields data.reverse)) s
      (data.reverse.map fun s => t.packedCodes.getD s.toNat 0) := by
    refine ⟨⟨0, hcounted⟩, _, Stack.empty, hpacked, hfits, ?_, ?_⟩
    · rw [hblank.1]
      exact Container.holds_blank (by decide)
    · rw [hblank.2, Stack.ofBytes_nil, Stack.on_empty]
  obtain ⟨s', hs', hend⟩ := HufCStream.encodeOneStreamWithin_contents h.log_le (by omega)
    (show _ ≤ hufTightCompressBound data.length t.tableLog by omega) hstart
  obtain ⟨hlength, hvalue⟩ := HufCStream.close_contents hend (by omega)
  rw [hlen] at hlength hvalue
  refine ⟨s'.close, ?_, hlength, hvalue⟩
  have hne : s'.close ≠ [] := by
    intro h0
    rw [h0] at hlength
    cases hlength
  have hclose := HufCStream.closeWithin_close hend
    (show (Stack.empty.pushAll (t.codeFields data.reverse)).len / 8 + 8 ≤
      hufTightCompressBound data.length t.tableLog by omega)
  simp only [HuffmanTable.encodeSegmentWithin, hs, hs', hclose, Option.bind_eq_bind,
    Option.bind_some, if_neg hne]

/-- The unrolled encoder writes the stream of the plain one, byte for byte, and no store of it ends
past the room it is given. -/
theorem encodeSegment_eq_encodeStream {weights : List Nat} {spare : Option HuffmanTable}
    (hbuild : buildFromWeightsReusing weights spare = some t) (hdata : t.Encodes data) :
    ∃ stream, t.encodeSegment data = some stream ∧
      t.encodeSegmentWithin (hufTightCompressBound data.length t.tableLog) data = some stream ∧
      ∀ (w : BitWriter) (bytes : List UInt8), w.Full bytes →
        (t.encodeStream data w).bind BitWriter.flush = some (.ofOutput (bytes ++ stream)) := by
  have h := buildFromWeightsReusing_sound hbuild
  obtain ⟨stream, hstream, hlen, hvalue⟩ := h.encodeSegmentWithin hdata
  refine ⟨stream, encodeSegmentWithin_eq hstream, hstream, ?_⟩
  intro w bytes hw
  obtain ⟨w', more, hw', hfull, hlen', hvalue'⟩ := h.encodeStream_bits hdata hw
  have : more = stream := le_injective (hlen'.trans hlen.symm) (hvalue'.trans hvalue.symm)
  rw [hw', Option.bind_some, hfull.flush, this]

/-- Three symbols more than a group of eight and a pair of them, for the table of eight codes of up
to seven bits. -/
def unevenSegment : List UInt8 := (List.replicate 3 [7, 0, 6, 1, 5, 2, 4, 3, 0]).flatten

theorem encodeSegment_eq_encodeStream_uneven : ∃ t stream,
    buildFromWeightsReusing [7, 6, 5, 4, 3, 2, 1, 1] none = some t ∧
      t.encodeSegment unevenSegment = some stream ∧
      (t.encodeStream unevenSegment (.ofOutput [7])).bind BitWriter.flush =
        some (.ofOutput ([7] ++ stream)) := by
  obtain ⟨t, ht⟩ := Option.isSome_iff_exists.mp
    (show (buildFromWeightsReusing [7, 6, 5, 4, 3, 2, 1, 1] none).isSome by decide)
  have hget : t = (buildFromWeightsReusing [7, 6, 5, 4, 3, 2, 1, 1] none).get (by decide) := by
    simp only [ht, Option.get_some]
  have hdata : t.Encodes unevenSegment := by
    rw [hget, Encodes]
    decide +kernel
  obtain ⟨stream, hsegment, -, hplain⟩ := encodeSegment_eq_encodeStream ht hdata
  exact ⟨t, stream, ht, hsegment, hplain _ [7] (BitWriter.full_ofOutput [7])⟩

end HuffmanTable

end Huff0.Encoder
