import StructuredZstd.Fse.ReusedTables
import StructuredZstd.Huff0.EncoderStreams
import StructuredZstd.Huff0.TableInverse
import StructuredZstd.Huff0.WeightStream

namespace Huff0.Encoder

open Bits BitIo
open Fse.Encoder (FSETable buildTableFromCountsInto encodeInterleaved lastCounted lastCounted_spec)
open Fse.Decoder (FSETableImpl Entry)
open Huff0.Decoder (Carries carries_encoded carries_raw nibbleBytes)

section Weights

variable {weights : List Nat}

theorem weightCounts_sum (h : ∀ w ∈ weights, w ≤ 12) :
    ((List.range 13).map (weights.count ·)).sum = weights.length := by
  induction weights with
  | nil => rfl
  | cons w weights ih =>
    have hw := h w List.mem_cons_self
    have ih := ih fun x hx => h x (List.mem_cons_of_mem _ hx)
    have hone : ((List.range 13).map fun i => if w = i then 1 else 0).sum = 1 := by
      interval_cases w <;> rfl
    simp only [List.count_cons, beq_iff_eq, List.length_cons]
    rw [List.sum_map_add, ih, hone]

theorem weightCounts_getD {w : Nat} (hw : w ≤ 12) :
    ((List.range 13).map (weights.count ·)).getD w 0 = weights.count w := by
  rw [List.getD_eq_getElem?_getD, List.getElem?_map, List.getElem?_range (by omega)]
  rfl

theorem le_foldl_max (l : List Nat) (start : Nat) :
    start ≤ l.foldl max start ∧ ∀ x ∈ l, x ≤ l.foldl max start := by
  induction l generalizing start with
  | nil => exact ⟨Nat.le_refl _, by simp⟩
  | cons y l ih =>
    obtain ⟨hstart, hall⟩ := ih (max start y)
    refine ⟨(Nat.le_max_left _ _).trans hstart, ?_⟩
    intro x hx
    rcases List.mem_cons.mp hx with rfl | hx
    · exact (Nat.le_max_right _ _).trans hstart
    · exact hall x hx

theorem HuffmanTable.foldl_max_le {l : List Nat} {b start : Nat} (hs : start ≤ b) (h : ∀ x ∈ l, x ≤ b) :
    l.foldl max start ≤ b := by
  induction l generalizing start with
  | nil => exact hs
  | cons x l ih =>
    exact ih (Nat.max_le.mpr ⟨hs, h x List.mem_cons_self⟩) fun y hy => h y (List.mem_cons_of_mem _ hy)

/-- Weights that no single one makes up are of two kinds at least. -/
theorem mixed_of_maxCount (h : ∀ w ∈ weights, w ≤ 12) (hne : weights ≠ [])
    (hmax : ((List.range 13).map (weights.count ·)).foldl max 0 ≠ weights.length) (x : Nat) :
    ∃ y ∈ weights, x ≠ y := by
  by_contra hno
  have hall : ∀ y ∈ weights, x = y := by
    intro y hy
    by_contra hxy
    exact hno ⟨y, hy, hxy⟩
  obtain ⟨first, hfirst⟩ := List.exists_mem_of_ne_nil _ hne
  have hx := hall first hfirst
  apply hmax
  apply Nat.le_antisymm
  · apply HuffmanTable.foldl_max_le (Nat.zero_le _)
    intro c hc
    obtain ⟨w, -, rfl⟩ := List.mem_map.mp hc
    exact List.count_le_length
  · apply (le_foldl_max _ 0).2
    refine List.mem_map.mpr ⟨x, ?_, List.count_eq_length.mpr hall⟩
    have := h first hfirst
    rw [List.mem_range]
    omega

/-- The stream of a weight list never panics, no scratch table shows in it, and behind its length
it carries the weights. -/
theorem encodeWeights_spec (h : ∀ w ∈ weights, w ≤ 12) (hthree : 3 ≤ weights.length)
    (hlen : weights.length ≤ 255) (hmixed : ∀ x, ∃ y ∈ weights, x ≠ y) :
    ∃ output, (output.length < 128 → Carries weights (UInt8.ofNat output.length :: output)) ∧
      ∀ fseTable, ∃ t w w', buildTableFromCountsInto
          ((List.range 13).map (weights.count ·)) 6 false fseTable = some t ∧
        encodeInterleaved t weights (.ofOutput []) = some w ∧ w.flush = some w' ∧
          w'.output = output := by
  have hsum := weightCounts_sum h
  have hlast : lastCounted ((List.range 13).map (weights.count ·)) < 13 := by
    have := (lastCounted_spec (show 0 < ((List.range 13).map (weights.count ·)).sum by omega)).1
    simpa using this
  obtain ⟨d, d', htrim, hlog, hpresent, hbuild⟩ := Fse.Encoder.buildTableFromCountsInto_spec
    false (show 2 ≤ ((List.range 13).map (weights.count ·)).sum by omega) (by omega) (by simp)
    (show 5 ≤ 6 by decide) (by decide) (by omega)
  have hx : ∀ x ∈ weights, d.Present x := by
    intro x hx
    apply hpresent
    rw [weightCounts_getD (h x hx)]
    exact Nat.ne_of_gt (List.count_pos_iff.mpr hx)
  have hshare : ∀ x, d.Present x → Fse.weight (d.probs.getD x 0) < d.size := by
    intro x _
    obtain ⟨y, hy, hxy⟩ := hmixed x
    exact Fse.Distribution.weight_lt_size (hx y hy) hxy
  obtain ⟨hok, hdec⟩ := Fse.Decoder.buildFromProbabilities_spec d
    (FSETableImpl.new 255 : FSETableImpl Entry 512)
    (by have := d.length_le; simp only [FSETableImpl.new]; omega) d.size_le
  obtain ⟨t₀, ht₀, htable₀⟩ := hbuild FSETable.blank
  obtain ⟨w, payload, _, hw, ⟨_, _, f, _, _, hflush, _⟩, _⟩ :=
    Fse.encodeInterleaved_decodes htable₀ hdec (show 2 ≤ weights.length by omega) hx
      (w := BitWriter.ofOutput []) rfl
  refine ⟨f.output, carries_encoded htable₀ htrim hlog hshare (by omega) hlen hx h hw hflush,
    fun fseTable => ?_⟩
  obtain ⟨t, ht, htable⟩ := hbuild fseTable
  refine ⟨t, w, f, ht, ?_, hflush, rfl⟩
  rw [(htable.same htable₀).encodeInterleaved_eq, hw]

/-- A description is decided without a panic, whatever its FSE table is built over, and what is
kept carries the weights. -/
theorem encodeWeightDescription_spec (h : ∀ w ∈ weights, w ≤ 12) (hlen : weights.length ≤ 255) :
    ∃ r, (∀ fseTable, encodeWeightDescription weights fseTable = some r) ∧
      ∀ description, r = some description → description.length < 128 ∧
        Carries weights (UInt8.ofNat description.length :: description) := by
  by_cases hshort : weights.length ≤ 2
  · refine ⟨none, fun fseTable => if_pos hshort, ?_⟩
    intro description hd
    cases hd
  · by_cases hflat : (((List.range 13).map (weights.count ·)).foldl max 0 = weights.length ∨
        ((List.range 13).map (weights.count ·)).foldl max 0 ≤ 1)
    · refine ⟨none, fun fseTable => ?_, ?_⟩
      · simp only [encodeWeightDescription, if_neg hshort, if_pos hflat]
      · intro description hd
        cases hd
    · have hne : weights ≠ [] := by
        intro h0
        exact hshort (by simp [h0])
      obtain ⟨output, hcarries, hout⟩ := encodeWeights_spec h (by omega) hlen
        (mixed_of_maxCount h hne fun he => hflat (.inl he))
      refine ⟨if 1 < output.length ∧ (output.length < weights.length / 2 ∨ 128 < weights.length) ∧
          output.length < 128 then some output else none, fun fseTable => ?_, ?_⟩
      · obtain ⟨t, w, w', ht, hw, hf, rfl⟩ := hout fseTable
        simp only [encodeWeightDescription, if_neg hshort, if_neg hflat, ht, hw, hf,
          Option.bind_eq_bind, Option.bind_some]
        split <;> rfl
      · intro description hd
        split at hd
        · rename_i hkeep
          cases hd
          exact ⟨hkeep.2.2, hcarries hkeep.2.2⟩
        · cases hd

/-- The fields of weights by pairs. -/
def nibbleFields : List Nat → List (Nat × Nat)
  | [] => []
  | [weight] => [(weight <<< 4, 8)]
  | weight1 :: weight2 :: weights => (weight2, 4) :: (weight1, 4) :: nibbleFields weights

theorem nibbleFields_sum (weights : List Nat) :
    ((nibbleFields weights).map Prod.snd).sum = 8 * ((weights.length + 1) / 2) := by
  match weights with
  | [] => rfl
  | [_] => simp [nibbleFields]
  | _ :: _ :: weights =>
    have ih := nibbleFields_sum weights
    simp only [nibbleFields, List.map_cons, List.sum_cons, List.length_cons, ih]
    omega

theorem push_byte (bytes : List UInt8) {b : Nat} (hb : b < 256) :
    (Stack.ofBytes bytes).push b 8 = Stack.ofBytes (bytes ++ [UInt8.ofNat b]) := by
  have hone : Stack.ofBytes [UInt8.ofNat b] = Stack.empty.push b 8 := by
    ext
    · simp [Stack.push_value, Nat.mod_eq_of_lt hb, le_singleton]
    · simp
  rw [Stack.ofBytes_append, hone, Stack.on_push, Stack.on_empty]

theorem pushAll_nibbleFields (weights : List Nat) (hle : ∀ w ∈ weights, w ≤ 12)
    (bytes : List UInt8) : (Stack.ofBytes bytes).pushAll (nibbleFields weights) =
      Stack.ofBytes (bytes ++ nibbleBytes weights) := by
  match weights, hle with
  | [], _ => simp [nibbleFields, nibbleBytes]
  | [weight], hle =>
    have hw := hle weight List.mem_cons_self
    rw [nibbleFields, nibbleBytes, Stack.pushAll_cons, Stack.pushAll_nil, Nat.shiftLeft_eq]
    exact push_byte bytes (by omega)
  | weight1 :: weight2 :: weights, hle =>
    have h1 := hle weight1 (by simp)
    have h2 := hle weight2 (by simp)
    have hpair : ((Stack.ofBytes bytes).push weight2 4).push weight1 4 =
        (Stack.ofBytes bytes).push (weight1 * 16 + weight2) 8 := by
      ext
      · simp only [Stack.push_value, Stack.push_len]
        rw [Nat.mod_eq_of_lt (by omega : weight2 < 2 ^ 4), Nat.mod_eq_of_lt (by omega : weight1 < 2 ^ 4),
          Nat.mod_eq_of_lt (by omega : weight1 * 16 + weight2 < 2 ^ 8), Nat.pow_add]
        ring
      · rfl
    rw [nibbleFields, nibbleBytes, Stack.pushAll_cons, Stack.pushAll_cons, hpair,
      push_byte bytes (by omega),
      pushAll_nibbleFields weights (fun w hw => hle w (by simp [hw])) _, List.append_assoc]
    rfl

theorem writeNibbles_spec (weights : List Nat) (h : ∀ w ∈ weights, w ≤ 12) (w : BitWriter) :
    w.Writes (nibbleFields weights) (writeNibbles weights w) := by
  match weights, h with
  | [], _ => exact .nil w
  | [weight], h =>
    have hw := h weight List.mem_cons_self
    have hlt : weight <<< 4 < 2 ^ 8 := by
      rw [Nat.shiftLeft_eq]
      omega
    rw [writeNibbles, if_pos (by omega)]
    exact .field w hlt (by decide)
  | weight1 :: weight2 :: weights, h =>
    have h1 := h weight1 (by simp)
    have h2 := h weight2 (by simp)
    rw [writeNibbles, if_pos ⟨by omega, by omega⟩]
    apply BitWriter.Writes.bind_cons (.field w (by omega) (by decide))
    intro w'
    apply BitWriter.Writes.bind_cons (.field w' (by omega) (by decide))
    intro w''
    exact writeNibbles_spec weights (fun x hx => h x (by simp [hx])) w''

end Weights

namespace HuffmanTable

/-- What every table built from the weights of a code has: codes that fit their widths, widths
within the table log, and the same codes packed. -/
structure Sound (t : HuffmanTable) : Prop where
  log_le : t.tableLog ≤ 12
  code_lt : ∀ s c n : Nat, t.codes[s]? = some (c, n) → c < 2 ^ n
  width_le : ∀ s c n : Nat, t.codes[s]? = some (c, n) → n ≤ t.tableLog
  packed : ∀ s c n : Nat, t.codes[s]? = some (c, n) → t.packedCodes.getD s 0 = packHufCelt c n

variable {t : HuffmanTable}

theorem sound_of_complete {lengths : List Nat} {maxBits : Nat} (h : CompleteCode lengths maxBits)
    (hmax : maxBits ≤ 12) (ht : TableOf lengths maxBits t) : t.Sound := by
  have hfind : ∀ s c n, t.codes[s]? = some (c, n) → ∃ len, lengths[s]? = some len ∧
      (c, n) = if len = 0 then (0, 0) else (codeAt lengths maxBits s len, len) := by
    intro s c n hs
    have hin : s < lengths.length := by
      rw [← ht.length_eq]
      exact (List.getElem?_eq_some_iff.mp hs).1
    have hlen : lengths[s]? = some lengths[s] := List.getElem?_eq_getElem hin
    exact ⟨_, hlen, Option.some.inj (hs.symm.trans (ht.code s _ hlen))⟩
  refine ⟨ht.log_eq.trans_le hmax, ?_, ?_, ?_⟩
  · intro s c n hs
    obtain ⟨len, hlen, he⟩ := hfind s c n hs
    split at he
    · cases he
      decide
    · rename_i hne
      cases he
      exact h.codeAt_lt hlen (Nat.pos_of_ne_zero hne)
  · intro s c n hs
    obtain ⟨len, hlen, he⟩ := hfind s c n hs
    rw [ht.log_eq]
    split at he
    · cases he
      exact Nat.zero_le _
    · cases he
      exact h.le _ (List.mem_of_getElem? hlen)
  · intro s c n hs
    obtain ⟨len, hlen, he⟩ := hfind s c n hs
    rw [ht.packed s len hlen]
    split at he
    · rename_i hzero
      cases he
      rw [if_pos hzero]
      rfl
    · rename_i hne
      cases he
      rw [if_neg hne]

theorem Sound.weights_le (h : t.Sound) : ∀ w ∈ t.weights, w ≤ 12 := by
  have hmax : (t.codes.map Prod.snd).foldl max 0 ≤ 12 := by
    apply foldl_max_le (Nat.zero_le _)
    intro n hn
    obtain ⟨⟨c, n⟩, hc, rfl⟩ := List.mem_map.mp hn
    obtain ⟨s, hs⟩ := List.getElem?_of_mem hc
    exact (h.width_le s c n hs).trans h.log_le
  intro w hw
  obtain ⟨c, hc, rfl⟩ := List.mem_map.mp hw
  split <;> omega

theorem weights_length (t : HuffmanTable) : t.weights.length = t.codes.length := by
  simp [weights]

/-- The size query never panics, and the writer then writes just so many bytes. They carry the
weights of all symbols but the last. -/
theorem Sound.describes (h : t.Sound) :
    ∃ r, (∀ fseTable, t.tryTableDescriptionSize fseTable = some r) ∧
      ∀ size, r = some size → ∀ (fseTable : FSETable) (w : BitWriter) (bytes : List UInt8),
        w.Full bytes → ∃ w' more, t.writeTable fseTable w = some w' ∧ w'.Full (bytes ++ more) ∧
          more.length = size ∧ (2 ≤ t.codes.length → Carries t.weights.dropLast more) := by
  have hle : ∀ w ∈ t.weights.dropLast, w ≤ 12 := fun w hw =>
    h.weights_le w (List.dropLast_subset _ hw)
  have hlen : t.weights.dropLast.length = t.codes.length - 1 := by
    rw [List.length_dropLast, weights_length]
  have h256 := t.codes_le
  obtain ⟨r, hr, hkept⟩ := encodeWeightDescription_spec hle (by omega)
  cases r with
  | some description =>
    obtain ⟨hbytes, hcarries⟩ := hkept description rfl
    refine ⟨some (description.length + 1), fun fseTable => ?_, ?_⟩
    · simp only [tryTableDescriptionSize, hr]
      rfl
    · intro size hsize fseTable w bytes hw
      cases hsize
      obtain ⟨w₁, head, hw₁, hfull₁, hhead⟩ := hw.writes
        (BitWriter.Writes.field w (show description.length < 2 ^ 8 by omega) (by decide)) (by simp)
      obtain ⟨w₂, hw₂, hfull₂⟩ := hfull₁.appendBytes description
      have hbyte : head = [UInt8.ofNat description.length] :=
        Stack.ofBytes_injective (hhead.trans (push_byte [] (by omega)))
      subst hbyte
      refine ⟨w₂, UInt8.ofNat description.length :: description, ?_, ?_, rfl, fun _ => hcarries⟩
      · simp [writeTable, hr, hw₁, hw₂]
      · rwa [List.append_assoc] at hfull₂
  | none =>
    by_cases hraw : t.codes.length - 1 ≤ 128
    · refine ⟨some ((t.codes.length - 1 + 1) / 2 + 1), fun fseTable => ?_, ?_⟩
      · simp [tryTableDescriptionSize, hr, hraw]
      · intro size hsize fseTable w bytes hw
        cases hsize
        have hwrites : w.Writes ((t.weights.dropLast.length + 127, 8) ::
            nibbleFields t.weights.dropLast)
              (writeRawWeightDescription t.weights.dropLast w) := by
          rw [writeRawWeightDescription, if_pos (by omega)]
          apply BitWriter.Writes.bind_cons (.field w (by omega) (by decide))
          exact fun w' => writeNibbles_spec _ hle w'
        have hsum := nibbleFields_sum t.weights.dropLast
        obtain ⟨w', more, hw', hfull, hmore⟩ := hw.writes hwrites (by
          rw [List.map_cons, List.sum_cons, hsum]
          omega)
        have hbytes : more = UInt8.ofNat (t.weights.dropLast.length + 127) ::
            nibbleBytes t.weights.dropLast := by
          apply Stack.ofBytes_injective
          have hfirst := push_byte [] (show t.weights.dropLast.length + 127 < 256 by omega)
          rw [hmore, Stack.pushAll_cons, ← Stack.ofBytes_nil, hfirst, pushAll_nibbleFields _ hle]
          rfl
        subst hbytes
        refine ⟨w', _, by simp [writeTable, hr, hw'], hfull, ?_, ?_⟩
        · rw [List.length_cons, Huff0.Decoder.nibbleBytes_length, hlen]
        · intro htwo
          refine carries_raw ?_ (by omega) hle
          intro h0
          rw [h0, List.length_nil] at hlen
          omega
    · refine ⟨none, fun fseTable => ?_, ?_⟩
      · simp [tryTableDescriptionSize, hr, hraw]
      · intro size hsize
        cases hsize

theorem Sound.description (h : t.Sound) :
    ∃ r, (∀ fseTable, t.tryTableDescriptionSize fseTable = some r) ∧
      ∀ size, r = some size → ∀ (fseTable : FSETable) (w : BitWriter) (bytes : List UInt8),
        w.Full bytes → ∃ w' more, t.writeTable fseTable w = some w' ∧ w'.Full (bytes ++ more) ∧
          more.length = size := by
  obtain ⟨r, hr, hwrite⟩ := h.describes
  refine ⟨r, hr, fun size hsize fseTable w bytes hw => ?_⟩
  obtain ⟨w', more, hw', hfull, hlen, -⟩ := hwrite size hsize fseTable w bytes hw
  exact ⟨w', more, hw', hfull, hlen⟩

end HuffmanTable

end Huff0.Encoder
