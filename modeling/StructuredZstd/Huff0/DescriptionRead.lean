import StructuredZstd.Huff0.TableCoverage

namespace Huff0.Decoder

open Bits BitIo Fse Fse.Decoder
open Huff0.Encoder (slots slots_of_pos weightSum_complete weightSum_slots)

theorem WeightAcc.Sound.pushAll {acc : WeightAcc} (h : acc.Sound) {weights : List Nat}
    (hle : ∀ w ∈ weights, w ≤ 12) : (acc.pushAll weights).Sound := by
  induction weights generalizing acc with
  | nil => exact h
  | cons w weights ih =>
    exact ih (h.push (hle w List.mem_cons_self)) fun x hx => hle x (List.mem_cons_of_mem _ hx)

theorem weightOf_le {maxBits len : Nat} (h : len ≤ maxBits) : weightOf maxBits len ≤ maxBits := by
  unfold weightOf
  split <;> omega

section Completes

variable {init : List Nat} {m len : Nat}

/-- The weights of all symbols but the last leave just its share of the table. -/
theorem weightSum_init (h : CompleteCode (init ++ [len]) m) (hlen : 0 < len) (hmax : m ≤ 12) :
    (WeightAcc.pushAll {} (init.map (weightOf m))).weightSum + 2 ^ (m - len) = 2 ^ m := by
  have hle : ∀ w ∈ (init ++ [len]).map (weightOf m), w ≤ 12 := by
    intro w hw
    obtain ⟨l, hl, rfl⟩ := List.mem_map.mp hw
    exact (weightOf_le (h.le l hl)).trans hmax
  have hsum := weightSum_complete h hmax
  have hinit : ∀ w ∈ init.map (weightOf m), w ≤ 12 := by
    intro w hw
    apply hle
    rw [List.map_append]
    exact List.mem_append_left _ hw
  have hlast : slots (weightOf m len) = 2 ^ (m - len) := by
    rw [weightOf, if_neg hlen.ne', slots_of_pos (Nat.succ_pos _)]
    rfl
  rw [weightSum_slots hle, List.map_append, List.map_append, List.sum_append] at hsum
  rw [(WeightAcc.sound_empty.pushAll hinit).sum, WeightAcc.pushAll_weights, List.nil_append, ← hsum,
    ← hlast, List.map_singleton, List.map_singleton, List.sum_singleton]
  rfl

theorem codeLengths_init (h : CompleteCode (init ++ [len]) m) :
    codeLengths (init.map (weightOf m)) m (m - len + 1) = init ++ [len] := by
  have hlast := h.le len (by simp)
  have hmap : ∀ l ∈ init, (if 0 < weightOf m l then m + 1 - weightOf m l else 0) = l := by
    intro l hl
    have := h.le l (by simp [hl])
    unfold weightOf
    split_ifs <;> omega
  have hend : m + 1 - (m - len + 1) = len := by omega
  rw [codeLengths, List.map_map, hend]
  congr 1
  conv_rhs => rw [← List.map_id init]
  exact List.map_congr_left fun l hl => hmap l hl

/-- The weights read complete to the code they were taken from. -/
theorem computeHuffmanBits_init (h : CompleteCode (init ++ [len]) m) (hlen : 0 < len)
    (hmax : m ≤ 12) (t : HuffmanTable) :
    (t.withWeights (WeightAcc.pushAll {} (init.map (weightOf m)))).computeHuffmanBits =
      (.ok m, { t.withWeights (WeightAcc.pushAll {} (init.map (weightOf m))) with
        lastWeight := m - len + 1
        bits := init ++ [len]
        maxNumBits := m
        stateMask := 1 <<< m - 1 }) := by
  have hsum := weightSum_init h hlen hmax
  have hle := h.le len (by simp)
  have hcode := codeLengths_init h
  have hweights : (WeightAcc.pushAll {} (init.map (weightOf m))).weights =
      init.map (weightOf m) := WeightAcc.pushAll_weights {} _
  generalize WeightAcc.pushAll {} (init.map (weightOf m)) = acc at hsum hweights ⊢
  have hhalf : 2 ^ m = 2 * 2 ^ (m - 1) := by
    conv_lhs => rw [← Nat.sub_add_cancel (show 1 ≤ m by omega)]
    rw [Nat.pow_succ, Nat.mul_comm]
  have hshare : 2 ^ (m - len) ≤ 2 ^ (m - 1) := Nat.pow_le_pow_right (by decide) (by omega)
  have hone := Nat.two_pow_pos (m - len)
  have hpos := Nat.two_pow_pos (m - 1)
  have hbits : highestBitSet acc.weightSum = m := by
    have hlog : Nat.log2 acc.weightSum = m - 1 :=
      (Nat.log2_eq_iff (by omega)).mpr ⟨by omega, by rw [Nat.pow_succ]; omega⟩
    rw [highestBitSet, if_neg (by omega), hlog]
    omega
  have hleft : 1 <<< m - acc.weightSum = 2 ^ (m - len) := by
    rw [Nat.one_shiftLeft]
    omega
  have hlast : highestBitSet (2 ^ (m - len)) = m - len + 1 := highestBitSet_two_pow _
  have hpow : (2 ^ (m - len)).isPowerOfTwo := ⟨m - len, rfl⟩
  simp only [HuffmanTable.computeHuffmanBits, HuffmanTable.withWeights, hbits, hleft, hlast,
    hweights, hcode, hpow, not_true_eq_false, if_false]
  have hfits : ¬maxMaxNumBits < m := Nat.not_lt.mpr hmax
  rw [if_neg (by omega), if_neg hfits]

/-- A description of a code builds the decode table of that code. -/
theorem buildDecoder_carries (h : CompleteCode (init ++ [len]) m) (hlen : 0 < len) (hmax : m ≤ 12)
    (hsize : init.length ≤ 255) {description : List UInt8}
    (hd : Carries (init.map (weightOf m)) description) {t : HuffmanTable}
    (hsym : t.fseTable.maxSymbol = 255) (rest : List UInt8) :
    ∃ dec, t.buildDecoder (description ++ rest) = (.ok description.length, dec) ∧
      TableOf (init ++ [len]) m dec ∧ dec.fseTable.maxSymbol = 255 := by
  obtain ⟨fse, hfse, hread⟩ := hd { t with packedDecode := [] } rest hsym
  have hle : ∀ w ∈ init.map (weightOf m), w ≤ 12 := by
    intro w hw
    obtain ⟨l, hl, rfl⟩ := List.mem_map.mp hw
    exact (weightOf_le (h.le l (List.mem_append_left _ hl))).trans hmax
  have hbits := computeHuffmanBits_init h hlen hmax { t with packedDecode := [], fseTable := fse }
  have hs := WeightAcc.sound_empty.pushAll hle
  have hweights : (WeightAcc.pushAll {} (init.map (weightOf m))).weights =
      init.map (weightOf m) := WeightAcc.pushAll_weights {} _
  generalize WeightAcc.pushAll {} (init.map (weightOf m)) = acc at hread hbits hs hweights
  obtain ⟨t₁, hdef, hread⟩ : ∃ t₁ : HuffmanTable,
      t₁ = ({ t with packedDecode := [], fseTable := fse } : HuffmanTable).withWeights acc ∧
        ({ t with packedDecode := [] } : HuffmanTable).readWeights (description ++ rest) =
          (.ok description.length, t₁) := ⟨_, rfl, hread⟩
  rw [← hdef] at hbits
  have hsound : t₁.WeightsSound := hdef ▸ hs
  have hcount : t₁.weights.length ≤ 255 := by
    rw [hdef, HuffmanTable.withWeights, hweights]
    simpa using hsize
  have hkept : t₁.fseTable = fse := by rw [hdef, HuffmanTable.withWeights]
  obtain ⟨hok, htable⟩ := HuffmanTable.buildTableFromWeights_tableOf hsound hcount hbits
  refine ⟨t₁.buildTableFromWeights.2, ?_, htable, ?_⟩
  · rw [HuffmanTable.buildDecoder, hread]
    cases hb : t₁.buildTableFromWeights with
    | mk result dec =>
      rw [hb] at hok
      cases hok
      simp only [hb]
  · rw [HuffmanTable.buildTableFromWeights, hbits]
    simp only [hkept, hfse]

end Completes

end Huff0.Decoder

namespace Huff0

open Bits

section Widths

variable {lengths : List Nat} {maxBits m : Nat} {enc : Encoder.HuffmanTable}
  {dec : Decoder.HuffmanTable}

theorem Encoder.TableOf.widths_eq (he : Encoder.TableOf lengths maxBits enc) :
    enc.codes.map Prod.snd = lengths := by
  apply List.ext_getElem?
  intro s
  rw [List.getElem?_map]
  cases hs : lengths[s]? with
  | none =>
    rw [List.getElem?_eq_none_iff] at hs
    rw [List.getElem?_eq_none (by rwa [he.length_eq]), Option.map_none]
  | some len =>
    rw [he.code s len hs, Option.map_some]
    split
    · rename_i h0
      rw [h0]
    · rfl

/-- The weights of a table are counted from its longest code. -/
theorem Encoder.TableOf.weights_eq (he : Encoder.TableOf lengths maxBits enc) :
    enc.weights = lengths.map (weightOf (lengths.foldl max 0)) := by
  have hwidths := he.widths_eq
  have hmap : lengths.map (weightOf (lengths.foldl max 0)) =
      enc.codes.map (weightOf (lengths.foldl max 0) ∘ Prod.snd) := by
    rw [← List.map_map, hwidths]
  rw [Encoder.HuffmanTable.weights, hmap, hwidths]
  rfl

/-- A decode table of the longest code's width leads every code to its symbol, the encoder's table
log notwithstanding. -/
theorem decodes_of_tables (h : CompleteCode lengths maxBits) (hm : ∀ l ∈ lengths, l ≤ m)
    (hle : m ≤ maxBits) (he : Encoder.TableOf lengths maxBits enc)
    (hd : Decoder.TableOf lengths m dec) {s code len : Nat}
    (hs : enc.codes[s]? = some (code, len)) (h0 : 0 < len) :
    len ≤ dec.maxNumBits ∧ code < 2 ^ len ∧ ∀ x < 2 ^ (dec.maxNumBits - len),
      dec.packedDecode[code * 2 ^ (dec.maxNumBits - len) + x]? = some ⟨len, UInt8.ofNat s⟩ := by
  have hin : s < lengths.length := by
    rw [← he.length_eq]
    exact (List.getElem?_eq_some_iff.mp hs).1
  have hl : lengths[s]? = some lengths[s] := List.getElem?_eq_getElem hin
  rw [he.code s _ hl] at hs
  split at hs
  · cases hs
    exact absurd h0 (Nat.lt_irrefl 0)
  · cases hs
    have hshort := hm _ (List.mem_of_getElem? hl)
    rw [hd.log_eq, CompleteCode.codeAt_shrink hm hle s hshort]
    exact ⟨hshort, (h.shrink hm hle).codeAt_lt hl h0, fun x hx => hd.slot s _ x hl h0 hx⟩

/-- What a reader makes of the description of a table: a decode table of the same code lengths that
leads its codes to their symbols. -/
def ReadBack (enc : Encoder.HuffmanTable) (description : List UInt8) : Prop :=
  ∀ (t : Decoder.HuffmanTable) (rest : List UInt8), t.fseTable.maxSymbol = 255 →
    ∃ dec, t.buildDecoder (description ++ rest) = (.ok description.length, dec) ∧
      dec.fseTable.maxSymbol = 255 ∧ dec.bits = enc.codes.map Prod.snd ∧
      ∀ s code len, enc.codes[s]? = some (code, len) → 0 < len →
        len ≤ dec.maxNumBits ∧ code < 2 ^ len ∧ ∀ x < 2 ^ (dec.maxNumBits - len),
          dec.packedDecode[code * 2 ^ (dec.maxNumBits - len) + x]? = some ⟨len, UInt8.ofNat s⟩

/-- A description that carries the weights of all symbols but the last describes the table. -/
theorem readBack_of_carries (h : CompleteCode lengths maxBits) (hmax : maxBits ≤ 12)
    (hsize : lengths.length ≤ 256) (he : Encoder.TableOf lengths maxBits enc)
    (hlast : lengths.getLast? ≠ some 0) {description : List UInt8}
    (hd : Decoder.Carries enc.weights.dropLast description) : ReadBack enc description := by
  have hne : lengths ≠ [] := by
    intro hnil
    have hfull := h.full
    rw [hnil] at hfull
    simp only [longer, List.count_nil, Nat.zero_mul, Finset.sum_const_zero] at hfull
    exact (Nat.two_pow_pos _).ne hfull
  obtain ⟨init, len, rfl⟩ : ∃ init len, lengths = init ++ [len] :=
    ⟨_, _, (List.dropLast_append_getLast hne).symm⟩
  have hm := (Encoder.le_foldl_max (init ++ [len]) 0).2
  have hle : (init ++ [len]).foldl max 0 ≤ maxBits :=
    Encoder.HuffmanTable.foldl_max_le (Nat.zero_le _) h.le
  have hpos : 0 < len := by
    apply Nat.pos_of_ne_zero
    rintro rfl
    exact hlast List.getLast?_concat
  rw [he.weights_eq, List.map_append, List.map_singleton, List.dropLast_concat] at hd
  intro t rest hsym
  obtain ⟨dec, hbuild, htable, hkept⟩ := Decoder.buildDecoder_carries (h.shrink hm hle) hpos
    (hle.trans hmax) (by simp at hsize; omega) hd hsym rest
  exact ⟨dec, hbuild, hkept, htable.bits_eq.trans he.widths_eq.symm,
    fun s code len hs h0 => decodes_of_tables h hm hle he htable hs h0⟩

/-- So the table of a histogram that ends with a symbol that occurs is described. -/
theorem Encoder.CoderOf.readBack {counts : List Nat}
    (h : Encoder.CoderOf counts lengths maxBits enc) (hsize : counts.length ≤ 256)
    (hlast : ∃ c, counts.getLast? = some c ∧ 0 < c) {description : List UInt8}
    (hd : Decoder.Carries enc.weights.dropLast description) : ReadBack enc description := by
  obtain ⟨c, hc, hpos⟩ := hlast
  refine readBack_of_carries h.complete h.le_twelve (h.length_eq.trans_le hsize) h.table ?_ hd
  intro h0
  rw [List.getLast?_eq_getElem?] at hc h0
  rw [h.length_eq] at h0
  have hcovers := h.covers (counts.length - 1) (by
    rw [List.getD_eq_getElem?_getD, hc]
    exact hpos)
  rw [List.getD_eq_getElem?_getD, h0] at hcovers
  exact Nat.lt_irrefl 0 hcovers

/-- A table whose description a reader can build it from. -/
structure Describable (enc : Encoder.HuffmanTable) : Prop where
  two : 2 ≤ enc.codes.length
  readBack : ∀ description, Decoder.Carries enc.weights.dropLast description →
    ReadBack enc description

end Widths

end Huff0
