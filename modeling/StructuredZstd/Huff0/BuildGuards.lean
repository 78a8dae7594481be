import StructuredZstd.Huff0.TableInverse
import StructuredZstd.Fse.TableRuns
import StructuredZstd.Fse.HeaderRead

namespace Huff0.Decoder

open Bits BitIo Fse.Decoder Decoding Finset

section Weights

/-- The bits of the next state are in the container, and the state is one of the table. -/
def stepGuard (t : FSETableImpl Entry 64) (state : Entry) (br : BitReaderReversed) : Bool :=
  br.bitsConsumed + state.numBits ≤ 64 &&
    state.newState + (br.getBitsUnchecked state.numBits).1 < t.decode.length

/-- The weight loop guarded: it must end before its bound, with every unchecked read in place. -/
def weightGuards (t : FSETableImpl Entry 64) :
    Nat → Entry → Entry → BitReaderReversed → WeightAcc → Bool
  | 0, _, _, _, _ => false
  | fuel + 1, state1, state2, br, acc =>
    let br := br.ensureBits 12
    match pushWeightLimited acc state1.symbol with
    | .error _ => true
    | .ok acc =>
      let next1 := updateStateFast t state1 br
      stepGuard t state1 br &&
        if next1.2.bitsRemaining ≤ -1 then true
        else match pushWeightLimited acc state2.symbol with
          | .error _ => true
          | .ok acc =>
            let next2 := updateStateFast t state2 next1.2
            stepGuard t state2 next1.2 &&
              if next2.2.bitsRemaining ≤ -1 then true
              else weightGuards t fuel next1.1 next2.1 next2.2 acc

theorem stepGuard_true {t : FSETableImpl Entry 64} (hlive : t.Live) (hcap : t.decode.length ≤ 64)
    {state : Entry} (hstate : state ∈ t.decode) {br : BitReaderReversed} (hbr : br.Sound)
    (hroom : br.bitsConsumed + 6 ≤ 64) :
    stepGuard t state br = true ∧ (updateStateFast t state br).1 ∈ t.decode ∧
      (updateStateFast t state br).2.Sound ∧
      (updateStateFast t state br).2.bitsConsumed ≤ br.bitsConsumed + 6 := by
  have hin : state.newState + 2 ^ state.numBits ≤ t.decode.length := hlive state hstate
  have hbits : state.numBits ≤ 6 := by
    by_contra hgt
    have : 2 ^ 7 ≤ 2 ^ state.numBits := Nat.pow_le_pow_right (by decide) (by omega)
    omega
  have hindex : state.newState + br.peekBits state.numBits < t.decode.length :=
    next_lt (hlive state hstate) br
  refine ⟨?_, readEntry_mem hindex, ?_, ?_⟩
  · rw [stepGuard, Bool.and_eq_true]
    exact ⟨decide_eq_true (by omega), decide_eq_true hindex⟩
  · have hfits : br.bitsConsumed + state.numBits ≤ 64 := by omega
    exact (BitReaderReversed.getBitsUnchecked_spec hbr hfits).sound
  · exact Nat.add_le_add_left hbits _

theorem pushWeightLimited_length_eq {acc acc' : WeightAcc} {w : Nat}
    (h : pushWeightLimited acc w = .ok acc') :
    acc'.weights.length = acc.weights.length + 1 := by
  unfold pushWeightLimited at h
  split at h
  · cases h
  · split at h
    · cases h
    · cases h
      simp [WeightAcc.push]

/-- The weight limit ends the loop: every full round stores two weights. -/
theorem weightGuards_true {t : FSETableImpl Entry 64} (hlive : t.Live)
    (hcap : t.decode.length ≤ 64) (fuel : Nat) {state1 state2 : Entry} (h1 : state1 ∈ t.decode)
    (h2 : state2 ∈ t.decode) {br : BitReaderReversed} (hbr : br.Sound) {acc : WeightAcc}
    (hacc : acc.weights.length ≤ 255) (hfuel : 256 ≤ acc.weights.length + 2 * fuel) :
    weightGuards t fuel state1 state2 br acc = true := by
  induction fuel generalizing state1 state2 br acc with
  | zero => omega
  | succ fuel ih =>
    obtain ⟨hsound, -, -, hroom⟩ :=
      BitReaderReversed.ensureBits_spec hbr (show 12 ≤ 56 by decide)
    obtain ⟨hguard1, hmem1, hsound1, hused1⟩ := stepGuard_true hlive hcap h1 hsound (by omega)
    obtain ⟨hguard2, hmem2, hsound2, -⟩ := stepGuard_true hlive hcap h2 hsound1 (by omega)
    rw [weightGuards]
    simp only
    split
    · rfl
    · rename_i acc1 hp1
      rw [hguard1, Bool.true_and]
      split
      · rfl
      · split
        · rfl
        · rename_i acc2 hp2
          rw [hguard2, Bool.true_and]
          split
          · rfl
          · have hl1 := pushWeightLimited_length_eq hp1
            have hl2 := pushWeightLimited_length_eq hp2
            exact ih hmem1 hmem2 hsound2 (pushWeightLimited_length hp2) (by omega)

end Weights

namespace HuffmanTable

/-- The compressed description guarded: the assertions of its FSE table, the slices of its stream,
the first states and the weight loop. -/
def compressedGuards (t : HuffmanTable) (header : Nat) (fseStream : List UInt8) : Bool :=
  if fseStream.length < header then true
  else t.fseTable.buildAsserts fseStream 6 &&
    match t.fseTable.buildDecoder fseStream 6 with
    | (.error _, _) => true
    | (.ok used, fse) =>
      if header < used then true
      else
        let (skippedBits, br) :=
          (BitReaderReversed.new ((fseStream.drop used).take (header - used))).skipPadding
        used ≤ fseStream.length &&
          if 8 < skippedBits then true
          else match Fse.Decoder.initState fse br with
            | .error _ => true
            | .ok (state1, br1) =>
              (br.getBits fse.accuracyLog).1 < fse.decode.length &&
                match Fse.Decoder.initState fse br1 with
                | .error _ => true
                | .ok (state2, br2) =>
                  (br1.getBits fse.accuracyLog).1 < fse.decode.length &&
                    weightGuards fse 256 state1 state2 br2 {}

/-- The subtractions and shifts of the code lengths. -/
def bitsGuards (t : HuffmanTable) : Bool :=
  t.weightSum < 2 ^ 32 && (t.weightSum = 0 ||
    let maxBits := highestBitSet t.weightSum
    let leftOver := 1 <<< maxBits - t.weightSum
    maxBits < 32 && t.weightSum ≤ 1 <<< maxBits && 0 < leftOver &&
      t.weights.all (· ≤ maxBits + 1) && highestBitSet leftOver ≤ maxBits + 1)

/-- The counting sort guarded: it files every symbol in one of its 256 places. -/
def sortGuards : List Nat → List Nat → Bool
  | [], _ => true
  | len :: lens, cursor =>
    let g := len &&& 0xF
    cursor.getD g 0 < 256 && sortGuards lens (cursor.set g (cursor.getD g 0 + 1))

/-- The fill of the decode table guarded: the starts and the groups, the sort, and the count of the
slots that were filled. -/
def tableGuards (t : HuffmanTable) : Bool :=
  t.fillAsserts &&
    match t.computeHuffmanBits with
    | (.error _, _) => true
    | (.ok maxBits, t) =>
      let bitRanks := rankCodes maxBits t.lastWeight t.weightRankCount
      sortGuards t.bits (symOffsets bitRanks 0) &&
        ((List.range' 1 maxBits).map fun len =>
          bitRanks.getD len 0 * 1 <<< (maxBits - len)).sum = 1 <<< maxBits

/-- Everything `build_decoder` asserts, indexes or subtracts on a source. -/
def buildGuards (t : HuffmanTable) (source : List UInt8) : Bool :=
  (match source with
    | [] => true
    | header :: rest =>
      if header.toNat ≤ 127 then compressedGuards t header.toNat rest else true) &&
    match ({ t with packedDecode := [] } : HuffmanTable).readWeights source with
    | (.error _, _) => true
    | (.ok _, t) => t.bitsGuards && t.tableGuards

end HuffmanTable

/-- A table of weights that was read has at most 64 states and leads back into them. -/
theorem buildDecoder_live {t fse : FSETableImpl Entry 64} (hsym : t.maxSymbol ≤ 255)
    {source : List UInt8} {used : Nat} (h : t.buildDecoder source 6 = (.ok used, fse)) :
    fse.Live ∧ fse.decode.length ≤ 64 ∧ used ≤ source.length := by
  have hlive : fse.Live := by
    have hfse : (t.buildDecoderFused source 6 .none).2 = fse := congrArg Prod.snd h
    rcases buildDecoderFused_cases t source 6 .none with ⟨-, -, hl⟩ | ⟨-, hnil⟩ | ⟨-, ⟨e, he⟩, -⟩
    · exact hfse ▸ hl
    · exact .of_nil (hfse ▸ hnil)
    · cases (congrArg Prod.fst h).symm.trans he
  refine ⟨hlive, ?_⟩
  unfold FSETableImpl.buildDecoder FSETableImpl.buildDecoderFused at h
  split at h
  · cases h
  · rename_i n t1 hr
    obtain ⟨d, rfl, hlen, hlog, hn⟩ := readProbabilities_distribution (by decide) (by exact hsym) hr
    have hsize : d.size ≤ 64 := Nat.pow_le_pow_right (by decide) hlog
    obtain ⟨hok, htable⟩ := buildDecodingTableMeta_spec d .none
      ({ t with symbolProbabilities := d.probs, accuracyLog := d.accLog } : FSETableImpl Entry 64)
      rfl rfl hlen hsize
    split at h
    · cases h
    · rename_i hb
      cases h
      rw [hb] at htable
      exact ⟨htable.length_eq.trans_le hsize, hn⟩

theorem initState_mem {t : FSETableImpl Entry 64} {r r' : BitReaderReversed} {state : Entry}
    (hr : r.Sound) (hcap : t.decode.length ≤ 64)
    (h : Fse.Decoder.initState t r = .ok (state, r')) :
    (r.getBits t.accuracyLog).1 < t.decode.length ∧ state ∈ t.decode ∧ r'.Sound := by
  have hs := initState_starts h
  have hfirst := first_lt hs r
  rw [Fse.Decoder.initState, if_neg hs.1,
    if_neg (by rw [Nat.one_shiftLeft]; exact not_not.mpr hs.2)] at h
  cases h
  have hlog : t.accuracyLog ≤ 56 := by
    by_contra hgt
    have : 2 ^ 57 ≤ 2 ^ t.accuracyLog := Nat.pow_le_pow_right (by decide) (by omega)
    have := hs.2
    omega
  exact ⟨hfirst, readEntry_mem hfirst, (BitReaderReversed.getBits_spec hr hlog).sound⟩

namespace HuffmanTable

theorem compressedGuards_true (t : HuffmanTable) (hsym : t.fseTable.maxSymbol ≤ 255) (header : Nat)
    (fseStream : List UInt8) : t.compressedGuards header fseStream = true := by
  obtain ⟨hasserts, -⟩ := header_reads t.fseTable fseStream (show 6 ≤ 9 by decide)
    (by decide) hsym
  rw [compressedGuards, hasserts, Bool.true_and]
  split
  · rfl
  · split
    · rfl
    · rename_i used fse hb
      obtain ⟨hlive, hcap, hused⟩ := buildDecoder_live hsym hb
      obtain ⟨_, _, hskip⟩ := BitReaderReversed.skipPaddingLoop_tracks 9 0
        (BitReaderReversed.new_sound ((fseStream.drop used).take (header - used))).tracks
      have hsound : (BitReaderReversed.new
        ((fseStream.drop used).take (header - used))).skipPadding.2.Sound := hskip.sound
      split
      · rfl
      · simp only
        rw [decide_eq_true hused, Bool.true_and]
        split
        · rfl
        · split
          · rfl
          · rename_i state1 br1 h1
            obtain ⟨hlt1, hmem1, hsound1⟩ := initState_mem hsound hcap h1
            rw [decide_eq_true hlt1, Bool.true_and]
            split
            · rfl
            · rename_i state2 br2 h2
              obtain ⟨hlt2, hmem2, hsound2⟩ := initState_mem hsound1 hcap h2
              rw [decide_eq_true hlt2, Bool.true_and]
              exact weightGuards_true hlive hcap 256 hmem1 hmem2 hsound2 (by decide) (by decide)

theorem bitsGuards_true {t : HuffmanTable} (hs : t.WeightsSound) (hlen : t.weights.length ≤ 255) :
    t.bitsGuards = true := by
  have hsum : t.weightSum ≤ 255 * 2 ^ 11 := by
    have heq : t.weightSum = (t.weights.map fun w => 2 ^ w / 2).sum := hs.sum
    rw [heq]
    refine (List.sum_le_card_nsmul _ (2 ^ 11) ?_).trans ?_
    · intro x hx
      obtain ⟨w, hw, rfl⟩ := List.mem_map.mp hx
      have hle : w ≤ 12 := hs.le w hw
      have : 2 ^ w ≤ 2 ^ 12 := Nat.pow_le_pow_right (by decide) hle
      omega
    · rw [List.length_map, Nat.nsmul_eq_mul]
      exact Nat.mul_le_mul_right _ hlen
  rw [bitsGuards, decide_eq_true (show t.weightSum < 2 ^ 32 by omega), Bool.true_and]
  by_cases h0 : t.weightSum = 0
  · rw [decide_eq_true h0, Bool.true_or]
  · obtain ⟨hpos, hlow, hhigh⟩ := highestBitSet_of_ne_zero h0
    have hhalf : 2 ^ highestBitSet t.weightSum = 2 * 2 ^ (highestBitSet t.weightSum - 1) := by
      conv_lhs => rw [← Nat.sub_add_cancel hpos]
      rw [Nat.pow_succ, Nat.mul_comm]
    have h32 : highestBitSet t.weightSum < 32 := by
      by_contra hge
      have : 2 ^ 31 ≤ 2 ^ (highestBitSet t.weightSum - 1) :=
        Nat.pow_le_pow_right (by decide) (by omega)
      omega
    have hrest : highestBitSet (2 ^ highestBitSet t.weightSum - t.weightSum) ≤
        highestBitSet t.weightSum := by
      by_contra hgt
      obtain ⟨-, hge, -⟩ := highestBitSet_of_ne_zero
        (show 2 ^ highestBitSet t.weightSum - t.weightSum ≠ 0 by omega)
      have : 2 ^ highestBitSet t.weightSum ≤
          2 ^ (highestBitSet (2 ^ highestBitSet t.weightSum - t.weightSum) - 1) :=
        Nat.pow_le_pow_right (by decide) (by omega)
      omega
    have hweights : ∀ w ∈ t.weights, w ≤ highestBitSet t.weightSum + 1 := by
      intro w hw
      by_contra hgt
      have hterm : 2 ^ w / 2 ≤ t.weightSum := by
        have heq : t.weightSum = (t.weights.map fun w => 2 ^ w / 2).sum := hs.sum
        rw [heq]
        exact List.single_le_sum (fun _ _ => Nat.zero_le _) _ (List.mem_map_of_mem hw)
      have : 2 ^ (highestBitSet t.weightSum + 2) ≤ 2 ^ w :=
        Nat.pow_le_pow_right (by decide) (by omega)
      rw [Nat.pow_add] at this
      omega
    simp only [h0, decide_false, Bool.false_or, Nat.one_shiftLeft, Bool.and_eq_true,
      decide_eq_true_eq, List.all_eq_true]
    exact ⟨⟨⟨⟨h32, hhigh.le⟩, by omega⟩, hweights⟩, by omega⟩

theorem sortGuards_of_filings {lens : List Nat} (hlens : ∀ l ∈ lens, l < 16) (symbol : Nat)
    (cursor : List Nat) (h : ∀ f ∈ Fse.Encoder.filings lens symbol cursor, f.1 < 256) :
    sortGuards lens cursor = true := by
  induction lens generalizing symbol cursor with
  | nil => rfl
  | cons l lens ih =>
    have hl := hlens l List.mem_cons_self
    have hmask : l &&& 0xF = l := by
      rw [show (0xF : Nat) = 2 ^ 4 - 1 from rfl, Nat.and_two_pow_sub_one_eq_mod]
      exact Nat.mod_eq_of_lt hl
    rw [Fse.Encoder.filings] at h
    rw [sortGuards]
    simp only [hmask]
    rw [decide_eq_true (h _ List.mem_cons_self), Bool.true_and]
    exact ih (fun x hx => hlens x (List.mem_cons_of_mem l hx)) (symbol + 1) _
      fun f hf => h f (List.mem_cons_of_mem _ hf)

theorem sum_map_range'_one (f : Nat → Nat) (n : Nat) :
    ((List.range' 1 n).map f).sum = ∑ l ∈ Ioc 0 n, f l := by
  induction n with
  | zero => rfl
  | succ n ih =>
    rw [List.range'_concat, List.map_append, List.sum_append, ih, sum_Ioc_succ_top (Nat.zero_le n)]
    simp [Nat.add_comm]

theorem tableGuards_true {t : HuffmanTable} (hs : t.WeightsSound)
    (hlen : t.weights.length ≤ 255) : t.tableGuards = true := by
  rw [tableGuards, fillAsserts_of_sound hs, Bool.true_and]
  split
  · rfl
  · rename_i maxBits t1 hc
    obtain ⟨hcomp, -⟩ := computeHuffmanBits_completed hs hlen hc
    obtain ⟨lastWeight, hl0, hl, hm0, hm, hsum, rfl⟩ := computeHuffmanBits_ok hc
    have hranks : ∀ l, l ≤ maxBits → (rankCodes maxBits lastWeight t.weightRankCount)[l]? =
        some ((codeLengths t.weights maxBits lastWeight).count l) :=
      fun l h => rankCodes_count hs hm hl hsum h
    simp only
    rw [Bool.and_eq_true]
    refine ⟨?_, decide_eq_true ?_⟩
    · have hcursor : ∀ l ∈ codeLengths t.weights maxBits lastWeight,
          l < (symOffsets (rankCodes maxBits lastWeight t.weightRankCount) 0).length ∧
          (symOffsets (rankCodes maxBits lastWeight t.weightRankCount) 0).getD l 0 =
            below (codeLengths t.weights maxBits lastWeight) l := by
        intro l hl
        have hlm : l ≤ maxBits := hcomp.complete.le l hl
        have hin := (List.getElem?_eq_some_iff.mp (hranks l hlm)).1
        exact ⟨(List.getElem?_eq_some_iff.mp (symOffsets_getElem? _ 0 l hin)).1,
          symOffsets_below hranks hlm⟩
      refine sortGuards_of_filings ?_ 0 _ ?_
      · intro l hl
        have hlm : l ≤ maxBits := hcomp.complete.le l hl
        have hm' : maxBits ≤ 12 := hm
        omega
      · intro f hf
        obtain ⟨i, hi⟩ := List.getElem?_of_mem hf
        have hlt : i < (codeLengths t.weights maxBits lastWeight).length := by
          have := (List.getElem?_eq_some_iff.mp hi).1
          rwa [Fse.Encoder.filings_length] at this
        have hget : (codeLengths t.weights maxBits lastWeight)[i]? = some _ :=
          List.getElem?_eq_getElem hlt
        rw [Fse.Encoder.filings_getElem? _ _ _ fun l hl => (hcursor l hl).1, hget, Option.map_some,
          Option.some.injEq] at hi
        have hplace := place_lt hget
        have hle : (codeLengths t.weights maxBits lastWeight).length ≤ 256 := hcomp.length_le
        rw [← hi, (hcursor _ (List.mem_of_getElem? hget)).2]
        omega
    · rw [Nat.one_shiftLeft, ← rankCodes_kraft hs hm hl0 hl hsum, slotsAbove]
      rw [sum_map_range'_one]
      apply sum_congr rfl
      intro l _
      rw [Nat.one_shiftLeft]

theorem buildGuards_true (t : HuffmanTable) (hsym : t.fseTable.maxSymbol ≤ 255)
    (source : List UInt8) : t.buildGuards source = true := by
  unfold buildGuards
  rw [Bool.and_eq_true]
  constructor
  · cases source with
    | nil => rfl
    | cons header rest =>
      simp only
      split
      · exact compressedGuards_true t hsym _ _
      · rfl
  · split
    · rfl
    · rename_i n t1 hr
      have hs := readWeights_ok hr
      obtain ⟨hlen, -⟩ := readWeights_bounds hr
      rw [bitsGuards_true hs hlen, tableGuards_true hs hlen]
      rfl

/-- The weights of a finished table, the implied one with them. -/
def allWeights (t : HuffmanTable) : List Nat := t.weights ++ [t.lastWeight]

/-- A decode table split up among its symbols: each slot holds a symbol with a weight and the
length that goes with it, and a symbol of weight `w` holds one run of `2 ^ (w - 1)` slots. -/
structure Partitioned (t : HuffmanTable) : Prop where
  pos : 0 < t.maxNumBits
  le : t.maxNumBits ≤ maxMaxNumBits
  length : t.packedDecode.length = 2 ^ t.maxNumBits
  entry : ∀ e ∈ t.packedDecode, 0 < e.numBits ∧ e.numBits ≤ t.maxNumBits ∧
    ∃ w, t.allWeights[e.symbol.toNat]? = some w ∧ 0 < w ∧ e.numBits = t.maxNumBits + 1 - w
  run : ∀ s w, t.allWeights[s]? = some w → 0 < w → ∃ first, first + 2 ^ (w - 1) ≤ 2 ^ t.maxNumBits ∧
    ∀ i e, t.packedDecode[i]? = some e →
      (e.symbol.toNat = s ↔ first ≤ i ∧ i < first + 2 ^ (w - 1))

/-- The code lengths are those of all the weights, the implied one with them. -/
theorem codeLengths_eq_map {weights : List Nat} {maxBits lastWeight : Nat} (h : 0 < lastWeight) :
    codeLengths weights maxBits lastWeight =
      (weights ++ [lastWeight]).map fun w => if 0 < w then maxBits + 1 - w else 0 := by
  rw [codeLengths, List.map_append, List.map_singleton, if_pos h]

theorem partitioned_of_tableOf {t : HuffmanTable} (hlast : 0 < t.lastWeight)
    (hweights : ∀ w ∈ t.allWeights, w ≤ t.maxNumBits) (hf : t.Filled)
    (hbits : t.bits = codeLengths t.weights t.maxNumBits t.lastWeight)
    (hc : CompleteCode t.bits t.maxNumBits) (hlen : t.bits.length ≤ 256)
    (ht : TableOf t.bits t.maxNumBits t) : t.Partitioned := by
  have hmap : t.bits = t.allWeights.map fun w => if 0 < w then t.maxNumBits + 1 - w else 0 :=
    hbits.trans (codeLengths_eq_map hlast)
  have hsmall : ∀ {s len}, t.bits[s]? = some len → (UInt8.ofNat s).toNat = s := by
    intro s len hs
    have := (List.getElem?_eq_some_iff.mp hs).1
    rw [UInt8.toNat_ofNat']
    exact Nat.mod_eq_of_lt (by omega)
  -- every slot is reached by a code
  have hslot : ∀ i e, t.packedDecode[i]? = some e → ∃ s len, t.bits[s]? = some len ∧ 0 < len ∧
      codeAt t.bits t.maxNumBits s len = i / 2 ^ (t.maxNumBits - len) ∧
      e = ⟨len, UInt8.ofNat s⟩ := by
    intro i e hi
    have hin := (List.getElem?_eq_some_iff.mp hi).1
    rw [hf.length] at hin
    obtain ⟨s, len, hs, h0, hcode⟩ := hc.exists_codeAt hin
    have hat := ht.slot s len (i % 2 ^ (t.maxNumBits - len)) hs h0
      (Nat.mod_lt _ (Nat.two_pow_pos _))
    rw [hcode, Nat.div_add_mod', hi, Option.some.injEq] at hat
    exact ⟨s, len, hs, h0, hcode, hat⟩
  refine ⟨hf.pos, hf.le, hf.length, ?_, ?_⟩
  · intro e he
    obtain ⟨i, hi⟩ := List.getElem?_of_mem he
    obtain ⟨s, len, hs, h0, -, rfl⟩ := hslot i e hi
    refine ⟨h0, hc.le len (List.mem_of_getElem? hs), ?_⟩
    simp only [hsmall hs]
    rw [hmap, List.getElem?_map, Option.map_eq_some_iff] at hs
    obtain ⟨w, hw, rfl⟩ := hs
    split_ifs at h0 ⊢ with hpos
    · exact ⟨w, hw, hpos, rfl⟩
    · omega
  · intro s w hw hpos
    have hwle := hweights w (List.mem_of_getElem? hw)
    have hs : t.bits[s]? = some (t.maxNumBits + 1 - w) := by
      rw [hmap, List.getElem?_map, hw, Option.map_some, if_pos hpos]
    have h0 : 0 < t.maxNumBits + 1 - w := by omega
    have hspan : t.maxNumBits - (t.maxNumBits + 1 - w) = w - 1 := by omega
    have hend := (hc.codeAt_span hs h0).2.trans (hc.longer_le _)
    rw [hspan, Nat.add_one_mul] at hend
    refine ⟨codeAt t.bits t.maxNumBits s (t.maxNumBits + 1 - w) * 2 ^ (w - 1), hend, ?_⟩
    intro i e hi
    constructor
    · intro he
      obtain ⟨s', len, hs', -, hcode, rfl⟩ := hslot i e hi
      rw [hsmall hs'] at he
      subst he
      rw [hs, Option.some.injEq] at hs'
      rw [← hs', hspan] at hcode
      rw [hcode]
      have hdiv := Nat.div_mul_le_self i (2 ^ (w - 1))
      have hmod := Nat.lt_div_mul_add (a := i) (Nat.two_pow_pos (w - 1))
      exact ⟨hdiv, hmod⟩
    · rintro ⟨hge, hlt⟩
      have hat := ht.slot s _ (i - codeAt t.bits t.maxNumBits s (t.maxNumBits + 1 - w) *
        2 ^ (w - 1)) hs h0 (by rw [hspan]; omega)
      rw [hspan, Nat.add_sub_cancel' hge, hi, Option.some.injEq] at hat
      rw [hat]
      exact hsmall hs

/-- A successful build leaves a decode table split up among its symbols. -/
theorem buildDecoder_partitioned {t t' : HuffmanTable} {source : List UInt8} {n : Nat}
    (h : t.buildDecoder source = (.ok n, t')) : t'.Partitioned := by
  have hf := buildDecoder_ok h
  simp only [buildDecoder] at h
  split at h
  · cases h
  · rename_i n1 t1 hr
    have hs := readWeights_ok hr
    obtain ⟨hlen, -⟩ := readWeights_bounds hr
    cases hc : t1.computeHuffmanBits with
    | mk result t2 =>
      cases result with
      | error e =>
        simp only [buildTableFromWeights, hc] at h
        cases h
      | ok maxBits =>
        obtain ⟨hcomp, -⟩ := computeHuffmanBits_completed hs hlen hc
        obtain ⟨-, htable⟩ := buildTableFromWeights_tableOf hs hlen hc
        obtain ⟨lastWeight, hl0, hl, hm0, hm, hsum, rfl⟩ := computeHuffmanBits_ok hc
        have hweights : ∀ w ∈ t1.weights, w ≤ maxBits := hs.le_width hsum
        have hbuilt : t1.buildTableFromWeights.2 = t' := by
          simp only [buildTableFromWeights, hc] at h ⊢
          cases h
          rfl
        rw [hbuilt] at htable
        have hfields : t'.weights = t1.weights ∧ t'.lastWeight = lastWeight := by
          rw [← hbuilt]
          simp only [buildTableFromWeights, hc]
          exact ⟨trivial, trivial⟩
        have hmax : t'.maxNumBits = maxBits := htable.log_eq
        have hbits : t'.bits = codeLengths t1.weights maxBits lastWeight := htable.bits_eq
        refine partitioned_of_tableOf (hfields.2 ▸ hl0) ?_ hf ?_ ?_ ?_ ?_
        · intro w hw
          rw [allWeights, hfields.1, hfields.2, List.mem_append, List.mem_singleton] at hw
          rw [hmax]
          rcases hw with hw | rfl
          · exact hweights w hw
          · exact hl
        · rw [hbits, hmax, hfields.1, hfields.2]
        · rw [hbits, hmax]
          exact hcomp.complete
        · rw [hbits]
          exact hcomp.length_le
        · rw [hbits, hmax]
          exact htable

/-- Reading a description neither panics nor runs on, whatever the source and the table before it:
it fails, or leaves a decode table of at most `2 ^ 12` slots split up among its symbols. -/
theorem buildDecoder_total (t : HuffmanTable) (hsym : t.fseTable.maxSymbol ≤ 255)
    (source : List UInt8) : t.buildGuards source = true ∧
      ((∃ e, (t.buildDecoder source).1 = .error e) ∨
        ∃ n t', t.buildDecoder source = (.ok n, t') ∧ t'.Partitioned) := by
  refine ⟨buildGuards_true t hsym source, ?_⟩
  cases h : t.buildDecoder source with
  | mk result t' =>
    cases result with
    | error e => exact .inl ⟨e, rfl⟩
    | ok n => exact .inr ⟨n, t', rfl, buildDecoder_partitioned h⟩

/-- Two symbols of weight one. -/
theorem buildDecoder_total_pair : (new.buildDecoder [128, 0x10]).1 = .ok 2 ∧
    (new.buildGuards [128, 0x10] = true ∧
      ((∃ e, (new.buildDecoder [128, 0x10]).1 = .error e) ∨
        ∃ n t', new.buildDecoder [128, 0x10] = (.ok n, t') ∧ t'.Partitioned)) :=
  ⟨by decide +kernel, buildDecoder_total new (by decide) [128, 0x10]⟩

/-- Twelve weights from 12 down to 1: the table takes twelve bits, one more than eleven. -/
theorem buildDecoder_twelve_bits :
    ¬∀ (t t' : HuffmanTable) (source : List UInt8) (n : Nat),
      t.buildDecoder source = (.ok n, t') → t'.maxNumBits ≤ 11 := by
  intro h
  have hle := h new (new.buildDecoder [139, 0xCB, 0xA9, 0x87, 0x65, 0x43, 0x21]).2
    [139, 0xCB, 0xA9, 0x87, 0x65, 0x43, 0x21] 7 (Prod.ext (by decide +kernel) rfl)
  exact absurd hle (by decide +kernel)

end HuffmanTable

end Huff0.Decoder
