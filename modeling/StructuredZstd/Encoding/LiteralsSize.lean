import StructuredZstd.Encoding.LiteralsEmit
import StructuredZstd.Huff0.DescriptionRead

namespace Encoding

open Bits BitIo Huff0.Encoder
open Decoding (LiteralsSection LiteralsSectionType)
open Fse.Encoder (FSETable lastCounted lastCounted_spec)

/-- The tables an encoder remembers: one built from the histogram of literals that hold two bytes
or more, and one a dictionary describes. -/
inductive Remembered : HuffmanTable → Prop where
  | built {counts : List Nat} {useSearch : Bool} {spare : Option HuffmanTable} {t : HuffmanTable}
    (two : 2 ≤ counts.countP (0 < ·))
    (build : HuffmanTable.buildFromCountsGatedWith counts useSearch spare = some t) : Remembered t
  | described {d : Huff0.Decoder.HuffmanTable} {t : HuffmanTable} (completed : d.Completed)
    (encoder : d.toEncoderTable = some (some t)) : Remembered t

theorem Remembered.sound {t : HuffmanTable} (h : Remembered t) : t.Sound := by
  cases h with
  | @built counts useSearch spare _ two build =>
    have hfits : histogramFits counts := by
      by_contra hno
      have hno : histogramFits counts = false := eq_false_of_ne_true hno
      cases useSearch
      · simp [HuffmanTable.buildFromCountsGatedWith, hno] at build
      · simp [HuffmanTable.buildFromCountsGatedWith, HuffmanTable.buildFromCounts, hno] at build
    obtain ⟨t', ht', hsound, -⟩ := buildFromCountsGatedWith_spec hfits two useSearch
    cases build.symm.trans (ht' spare)
    exact hsound
  | described completed encoder =>
    obtain ⟨enc, henc, htable⟩ := completed.toEncoderTable
    cases encoder.symm.trans henc
    exact HuffmanTable.sound_of_complete completed.complete (completed.le.trans (by decide)) htable

section Estimates

variable {t : HuffmanTable} {literals : List UInt8}

theorem quarters_eq (literals : List UInt8) : quarters literals =
    [HuffmanTable.quarter literals 0, HuffmanTable.quarter literals 1,
      HuffmanTable.quarter literals 2, HuffmanTable.quarter literals 3] := by
  simp [quarters, HuffmanTable.quarter]

/-- The parts hold all of the literals. -/
theorem encodes_of_quarters (h : ∀ k < 4, t.Encodes (HuffmanTable.quarter literals k)) :
    t.Encodes literals := by
  intro s hs
  generalize hsize : (literals.length + 3) / 4 = size
  have hsplit : literals = literals.take size ++ ((literals.drop size).take size ++
      (((literals.drop (size * 2)).take size) ++ literals.drop (size * 3))) := by
    have h3 : literals.drop (size * 3) = (literals.drop (size * 2)).drop size := by
      rw [List.drop_drop, Nat.mul_succ]
    have h2 : literals.drop (size * 2) = (literals.drop size).drop size := by
      rw [List.drop_drop, Nat.mul_two]
    rw [h3, List.take_append_drop, h2, List.take_append_drop, List.take_append_drop]
  have hq : ∀ k, HuffmanTable.quarter literals k = if k = 3 then literals.drop (size * 3)
      else (literals.drop (size * k)).take size := by
    intro k
    rw [HuffmanTable.quarter, hsize]
  rw [hsplit] at hs
  rcases List.mem_append.mp hs with h0 | hs
  · apply h 0 (by decide)
    rw [hq, if_neg (by decide), Nat.mul_zero, List.drop_zero]
    exact h0
  · rcases List.mem_append.mp hs with h1 | hs
    · apply h 1 (by decide)
      rw [hq, if_neg (by decide), Nat.mul_one]
      exact h1
    · rcases List.mem_append.mp hs with h2 | h3
      · apply h 2 (by decide)
        rw [hq, if_neg (by decide)]
        exact h2
      · apply h 3 (by decide)
        rw [hq, if_pos rfl]
        exact h3

theorem estimateHuffPayloadBytesChecked_of_encodes (h : t.Encodes literals) :
    estimateHuffPayloadBytesChecked t literals = some (payloadBytes t literals) := by
  unfold estimateHuffPayloadBytesChecked payloadBytes
  split
  · exact HuffmanTable.estimateCompressedSize_of_encodes h
  · have hpart : ∀ k, t.estimateCompressedSize (HuffmanTable.quarter literals k) =
        some (t.quarterBytes literals k) := fun k =>
      HuffmanTable.estimateCompressedSize_of_encodes (h.subset (HuffmanTable.quarter_subset _ k))
    rw [quarters_eq]
    simp [hpart]
    omega

theorem estimateHuffPayloadBytesChecked_of_not_encodes (h : ¬t.Encodes literals) :
    estimateHuffPayloadBytesChecked t literals = none := by
  unfold estimateHuffPayloadBytesChecked
  split
  · exact HuffmanTable.estimateCompressedSize_of_not_encodes h
  · have hsome : ¬∀ q ∈ quarters literals, (t.estimateCompressedSize q).isSome := by
      intro hall
      apply h
      apply encodes_of_quarters
      intro k hk
      by_contra hq
      have hnone := HuffmanTable.estimateCompressedSize_of_not_encodes hq
      have hmem : HuffmanTable.quarter literals k ∈ quarters literals := by
        rw [quarters_eq]
        interval_cases k <;> simp
      have := hall _ hmem
      rw [hnone] at this
      cases this
    rw [mapM_of_not_isSome hsome]
    rfl

theorem estimateHuffPayloadBytes_of_encodes (h : t.Encodes literals) :
    estimateHuffPayloadBytes t literals (byteCounts literals) = payloadBytes t literals := by
  unfold estimateHuffPayloadBytes payloadBytes
  split
  · exact t.estimateCompressedSizeFromCounts_eq literals
  · have hpart : ∀ k, t.estimateCompressedSize (HuffmanTable.quarter literals k) =
        some (t.quarterBytes literals k) := fun k =>
      HuffmanTable.estimateCompressedSize_of_encodes (h.subset (HuffmanTable.quarter_subset _ k))
    rw [quarters_eq]
    simp [hpart]
    omega

end Estimates

section Histogram

variable {literals : List UInt8}

theorem byteCounts_getD {i : Nat} (hi : i < 256) :
    (byteCounts literals).getD i 0 = literals.count (UInt8.ofNat i) := by
  rw [byteCounts, List.getD_eq_getElem?_getD, List.getElem?_map, List.getElem?_range hi]
  rfl

theorem byteCounts_sum (literals : List UInt8) : (byteCounts literals).sum = literals.length := by
  have h := sum_occurrences (fun _ => 1) (Nat.le_refl 256) fun x (_ : x ∈ literals) => x.toNat_lt
  simp only [Nat.one_mul, List.map_const', List.sum_replicate, smul_eq_mul, Nat.mul_one] at h
  exact h

/-- Two places that count make two counted places. -/
theorem two_le_countP {counts : List Nat} {i j : Nat} (hij : i < j)
    (hi : 0 < counts.getD i 0) (hj : 0 < counts.getD j 0) : 2 ≤ counts.countP (0 < ·) := by
  have hjlen : j < counts.length := by
    by_contra hge
    rw [List.getD_eq_getElem?_getD, List.getElem?_eq_none (Nat.le_of_not_lt hge)] at hj
    cases hj
  have hilen : i < counts.length := hij.trans hjlen
  rw [List.getD_eq_getElem?_getD, List.getElem?_eq_getElem hilen] at hi
  rw [List.getD_eq_getElem?_getD, List.getElem?_eq_getElem hjlen] at hj
  have hsplit := List.take_append_drop j counts
  rw [List.drop_eq_getElem_cons hjlen] at hsplit
  have hbefore : 0 < (counts.take j).countP (0 < ·) := by
    rw [List.countP_pos_iff]
    refine ⟨counts[i], List.mem_take_iff_getElem.mpr ⟨i, by omega, rfl⟩, ?_⟩
    exact decide_eq_true hi
  have hat : (counts[j] :: counts.drop (j + 1)).countP (0 < ·) =
      (counts.drop (j + 1)).countP (0 < ·) + 1 :=
    List.countP_cons_of_pos (p := fun c : Nat => decide (0 < c)) (decide_eq_true hj)
  rw [← hsplit, List.countP_append, hat]
  omega

/-- Literals of two bytes or more get a table that codes them all. -/
theorem build_literals (hmixed : ¬(literals ≠ [] ∧ allBytesIdentical literals))
    (hne : literals ≠ []) (hlen : literals.length ≤ 128 * 1024) (hufSearch : Bool) :
    ∃ t, (∀ spare, HuffmanTable.buildFromCountsGatedWith
        ((byteCounts literals).take (lastCounted (byteCounts literals) + 1)) hufSearch spare =
          some t) ∧
      t.Encodes literals ∧ Remembered t ∧ Huff0.Describable t := by
  have hsum := byteCounts_sum literals
  have hpos : 0 < (byteCounts literals).sum := by
    rw [hsum]
    exact List.length_pos_iff.mpr hne
  obtain ⟨hinside, hoccurs, hzero⟩ := lastCounted_spec hpos
  generalize hlast : lastCounted (byteCounts literals) = last at hinside hoccurs hzero
  have hcount : ∀ s ∈ literals, 0 < ((byteCounts literals).take (last + 1)).getD s.toNat 0 := by
    intro s hs
    have hoccurs : 0 < (byteCounts literals).getD s.toNat 0 := by
      rw [byteCounts_getD s.toNat_lt, UInt8.ofNat_toNat]
      exact List.count_pos_iff.mpr hs
    have hle : s.toNat < last + 1 := by
      by_contra hgt
      rw [hzero s.toNat (by omega)] at hoccurs
      cases hoccurs
    rwa [List.getD_eq_getElem?_getD, List.getElem?_take_of_lt hle, ← List.getD_eq_getElem?_getD]
  have htwo : 2 ≤ ((byteCounts literals).take (last + 1)).countP (0 < ·) := by
    obtain ⟨first, rest, rfl⟩ := List.exists_cons_of_ne_nil hne
    have hother : ∃ x ∈ rest, x ≠ first := by
      by_contra hno
      apply hmixed
      refine ⟨hne, ?_⟩
      rw [allBytesIdentical, List.all_eq_true]
      intro x hx
      by_contra hx'
      exact hno ⟨x, hx, fun he => hx' (decide_eq_true he)⟩
    obtain ⟨x, hx, hxne⟩ := hother
    have hxpos := hcount x (List.mem_cons_of_mem _ hx)
    have hfpos := hcount first List.mem_cons_self
    have hdiff : x.toNat ≠ first.toNat := fun he => hxne (UInt8.toNat_inj.mp he)
    rcases Nat.lt_or_gt_of_ne hdiff with hlt | hgt
    · exact two_le_countP hlt hxpos hfpos
    · exact two_le_countP hgt hfpos hxpos
  have hfits : histogramFits ((byteCounts literals).take (last + 1)) := by
    have hle : ((byteCounts literals).take (last + 1)).sum ≤ (byteCounts literals).sum := by
      conv_rhs => rw [← List.take_append_drop (last + 1) (byteCounts literals), List.sum_append]
      exact Nat.le_add_right _ _
    have hlen256 : (byteCounts literals).length = 256 := by
      rw [byteCounts, List.length_map, List.length_range]
    simp only [histogramFits, Bool.and_eq_true, decide_eq_true_eq, List.length_take]
    omega
  have hlength : ((byteCounts literals).take (last + 1)).length = last + 1 := by
    rw [List.length_take]
    omega
  have hend : ∃ c, ((byteCounts literals).take (last + 1)).getLast? = some c ∧ 0 < c := by
    refine ⟨_, ?_, hoccurs⟩
    rw [List.getLast?_eq_getElem?, hlength, Nat.add_sub_cancel,
      List.getElem?_take_of_lt (Nat.lt_succ_self _), List.getD_eq_getElem?_getD,
      List.getElem?_eq_getElem hinside, Option.getD_some]
  obtain ⟨t, ht, lengths, maxBits, hcoder⟩ := buildFromCountsGatedWith_codes hfits htwo hufSearch
  have hsize : ((byteCounts literals).take (last + 1)).length ≤ 256 := by
    simp only [histogramFits, Bool.and_eq_true, decide_eq_true_eq] at hfits
    exact hfits.1
  refine ⟨t, ht, fun s hs => hcoder.codes (hcount s hs), .built htwo (ht none), ?_, ?_⟩
  · rw [hcoder.table.length_eq, hcoder.length_eq]
    exact htwo.trans List.countP_le_length
  · exact fun description hd => hcoder.readBack hsize hend hd

end Histogram

/-- The type a kept section has. -/
def HuffOutcome.keptType : HuffOutcome → Option LiteralsSectionType
  | .keep => some .treeless
  | .clear => none
  | .new _ => some .compressed

/-- The forms of a literals section, with what a reader of its header finds and how long that
header is. -/
inductive SectionOf (literals : List UInt8) :
    HuffOutcome → List UInt8 → LiteralsSection → Nat → Prop where
  | raw (header : List UInt8) :
    SectionOf literals .clear (header ++ literals) ⟨literals.length, none, none, .raw⟩
      header.length
  | rle (header : List UInt8) (first : UInt8) (nonempty : literals ≠ [])
    (all : ∀ x ∈ literals, x = first) :
    SectionOf literals .clear (header ++ [first]) ⟨literals.length, none, none, .rle⟩
      header.length
  | kept (outcome : HuffOutcome) (lsType : LiteralsSectionType) (header body : List UInt8)
    (type_eq : outcome.keptType = some lsType) (form : CompressedBody literals body)
    (regenerated_fits : literals.length < 2 ^ (sizeFormat literals.length).2)
    (compressed_fits : body.length < 2 ^ (sizeFormat literals.length).2) :
    SectionOf literals outcome (header ++ body)
      ⟨literals.length, some body.length, some (if literals.length < 256 then 1 else 4), lsType⟩
      header.length

/-- A section was emitted behind `out`, the estimate gave its size and its effect on the
remembered table, and the reader takes its header for what it is. -/
def Exact (literals out : List UInt8) (emitted : Option (HuffOutcome × BitWriter))
    (estimated : Option (Nat × HuffOutcome)) : Prop :=
  ∃ bytes outcome w ls headerLen, emitted = some (outcome, w) ∧ w.Full (out ++ bytes) ∧
    estimated = some (bytes.length, outcome) ∧ SectionOf literals outcome bytes ls headerLen ∧
    (∀ rest, LiteralsSection.parseFromHeader (bytes ++ rest) = .ok (ls, headerLen)) ∧
    ∀ t, outcome = .new t → Remembered t

section Branches

variable {literals out : List UInt8} {lastHuff : Option HuffmanTable} {strategy : StrategyTag}

theorem exact_raw (hlen : literals.length ≤ 128 * 1024) : Exact literals out
    (do
      let w ← rawLiterals literals (.ofOutput out)
      some (.clear, w))
    (some (uncompressedLiteralsHeaderBytes literals.length + literals.length, .clear)) := by
  obtain ⟨w, hw, hfull⟩ := rawLiterals_spec (show literals.length < 2 ^ 20 by omega)
    (BitWriter.full_ofOutput out)
  refine ⟨_, .clear, w, _, _, ?_, hfull, ?_, .raw _, ?_, ?_⟩
  · simp only [hw, Option.bind_eq_bind, Option.bind_some]
  · rw [List.length_append, plainHeader_length]
  · intro rest
    rw [List.append_assoc]
    exact parseFromHeader_plain (by decide) (by omega) _
  · intro t ht
    cases ht

theorem exact_rle (hlen : literals.length ≤ 128 * 1024)
    (hsame : literals ≠ [] ∧ allBytesIdentical literals) : Exact literals out
    (do
      let w ← rleLiterals literals (.ofOutput out)
      some (.clear, w))
    (some (uncompressedLiteralsHeaderBytes literals.length + 1, .clear)) := by
  obtain ⟨w, hw, hfull⟩ := rleLiterals_spec (show literals.length < 2 ^ 20 by omega)
    (BitWriter.full_ofOutput out)
  obtain ⟨hne, hall⟩ := hsame
  obtain ⟨first, rest, hcons⟩ := List.exists_cons_of_ne_nil hne
  have htake : literals.take 1 = [first] := by rw [hcons]; rfl
  rw [htake] at hfull
  refine ⟨_, .clear, w, _, _, ?_, hfull, ?_, .rle _ first hne ?_, ?_, ?_⟩
  · simp only [hw, Option.bind_eq_bind, Option.bind_some]
  · rw [List.length_append, plainHeader_length]
    rfl
  · intro x hx
    rw [hcons] at hall hx
    rcases List.mem_cons.mp hx with rfl | hx
    · rfl
    · exact of_decide_eq_true (List.all_eq_true.mp hall x hx)
  · intro rest
    rw [List.append_assoc]
    exact parseFromHeader_plain (by decide) (by omega) _
  · intro t ht
    cases ht

/-- A section written with a table, new or remembered, against its estimate. -/
theorem exact_table {t : HuffmanTable} (h : t.Sound) (hdata : t.Encodes literals)
    (hlen : literals.length ≤ 128 * 1024) {newTable : Option FSETable} {descSize : Nat}
    (hdesc : t.Described newTable descSize) {outcome : HuffOutcome}
    (hkind : outcome.keptType = some (if newTable.isSome then .compressed else .treeless))
    (hnew : ∀ t, outcome = .new t → Remembered t) (strategy : StrategyTag) : Exact literals out
    (do
      let (kept, w) ← emitCompressedLiterals literals t newTable (.ofOutput out)
        (BitWriter.ofOutput out).index strategy
      some (if kept then outcome else .clear, w))
    (if useRawLiteralFallback (descSize + payloadBytes t literals) literals.length strategy then
      some (uncompressedLiteralsHeaderBytes literals.length + literals.length, .clear)
    else
      some (compressedLiteralsHeaderBytes literals.length + (descSize + payloadBytes t literals),
        outcome)) := by
  obtain ⟨w, hw⟩ := emitCompressedLiterals_spec h hdata hlen hdesc (BitWriter.full_ofOutput out)
    strategy
  split at hw
  · -- too little gained: the raw section stands in its place
    rename_i hraw
    obtain ⟨hw, hfull⟩ := hw
    rw [if_pos hraw]
    refine ⟨_, .clear, w, _, _, ?_, hfull, ?_, .raw _, ?_, ?_⟩
    · simp only [hw, Option.bind_eq_bind, Option.bind_some, Bool.false_eq_true, if_false]
    · rw [List.length_append, plainHeader_length]
    · intro rest
      rw [List.append_assoc]
      exact parseFromHeader_plain (by decide) (by omega) _
    · intro t ht
      cases ht
  · rename_i hkeep
    obtain ⟨body, hw, hfull, hbody, hform⟩ := hw
    have hregenerated : literals.length < 2 ^ (sizeFormat literals.length).2 := by
      rcases sizeFormat_cases (show literals.length < 2 ^ 18 by omega) with
        ⟨hf, -, hl⟩ | ⟨hf, -, -, hl⟩ | ⟨hf, -, -, hl⟩ | ⟨hf, -, -, hl⟩
      all_goals
        rw [hf]
        simp only
        omega
    have hcompressed : body.length < 2 ^ (sizeFormat literals.length).2 := by
      rw [useRawLiteralFallback, decide_eq_true_eq, not_le, ← hbody] at hkeep
      omega
    rw [if_neg hkeep]
    refine ⟨_, outcome, w, _, _, ?_, hfull, ?_,
      .kept outcome _ _ body hkind hform hregenerated hcompressed, ?_, hnew⟩
    · simp only [hw, Option.bind_eq_bind, Option.bind_some, if_true]
    · rw [List.length_append, keptHeader_length, hbody]
    · intro rest
      rw [List.append_assoc, parseFromHeader_kept (by split <;> decide) (by split <;> decide)
        (by omega) hcompressed]
      cases newTable <;> rfl

/-- The repeat without a histogram is taken on both sides or on neither. -/
theorem repeated_cases (literals : List UInt8) (lastHuff : Option HuffmanTable)
    (strategy : StrategyTag) :
    (∃ prev, lastHuff = some prev ∧ prev.Encodes literals ∧
      (if preferRepeatEligible strategy literals.length then
        lastHuff.filter fun prev => (prev.estimateCompressedSize literals).isSome
      else none) = some prev ∧
      (if preferRepeatEligible strategy literals.length then
        lastHuff.bind fun prev => estimateHuffPayloadBytesChecked prev literals
      else none) = some (payloadBytes prev literals)) ∨
    ((if preferRepeatEligible strategy literals.length then
        lastHuff.filter fun prev => (prev.estimateCompressedSize literals).isSome
      else none) = none ∧
      (if preferRepeatEligible strategy literals.length then
        lastHuff.bind fun prev => estimateHuffPayloadBytesChecked prev literals
      else none) = none) := by
  by_cases hprefer : preferRepeatEligible strategy literals.length
  · simp only [if_pos hprefer]
    cases lastHuff with
    | none => exact .inr ⟨rfl, rfl⟩
    | some prev =>
      by_cases hcodes : prev.Encodes literals
      · left
        refine ⟨prev, rfl, hcodes, ?_, ?_⟩
        · simp [HuffmanTable.estimateCompressedSize_of_encodes hcodes]
        · exact estimateHuffPayloadBytesChecked_of_encodes hcodes
      · right
        refine ⟨?_, ?_⟩
        · simp [HuffmanTable.estimateCompressedSize_of_not_encodes hcodes]
        · exact estimateHuffPayloadBytesChecked_of_not_encodes hcodes
  · simp only [if_neg hprefer]
    exact .inr ⟨trivial, trivial⟩

/-- Only a remembered table with a code for every literal is chosen over the new one. -/
theorem decideHuffReuse_old {newTable : HuffmanTable} {newDesc : Nat}
    (h : decideHuffReuseLikeEncoder newTable lastHuff newDesc literals (byteCounts literals)
      strategy = false) : ∃ prev, lastHuff = some prev ∧ prev.Encodes literals := by
  cases lastHuff with
  | none => cases h
  | some prev =>
    refine ⟨prev, rfl, ?_⟩
    by_contra hcodes
    have hold : prev.estimateCompressedSizeFromCountsChecked (byteCounts literals) = none :=
      (prev.estimateCompressedSizeFromCountsChecked_eq literals).trans
        (HuffmanTable.estimateCompressedSize_of_not_encodes hcodes)
    simp [decideHuffReuseLikeEncoder, hold] at h

/-- Between two tables the estimate and the writer choose alike. -/
theorem exact_compressed (hmixed : ¬(literals ≠ [] ∧ allBytesIdentical literals))
    (hne : literals ≠ []) (hlen : literals.length ≤ 128 * 1024)
    (hlast : ∀ t ∈ lastHuff, Remembered t) (hufSearch : Bool) (scratch scratch' : WeightScratch)
    (suspected : Bool) (hmin : minLiteralsToCompress strategy lastHuff.isSome ≤ literals.length) :
    Exact literals out
      (compressLiterals literals lastHuff (.ofOutput out) strategy hufSearch scratch suspected)
      (estimateLiteralsSectionBytes literals lastHuff strategy hufSearch false scratch'
        suspected) := by
  have hnokeep : ∀ t, HuffOutcome.keep = .new t → Remembered t := fun t ht => by cases ht
  have htreeless : ∀ prev : HuffmanTable, Remembered prev → prev.Encodes literals →
      Exact literals out
        (do
          let (kept, w) ← emitCompressedLiterals literals prev none (.ofOutput out)
            (BitWriter.ofOutput out).index strategy
          some (if kept then .keep else .clear, w))
        (if useRawLiteralFallback (payloadBytes prev literals) literals.length strategy then
          some (uncompressedLiteralsHeaderBytes literals.length + literals.length, .clear)
        else
          some (compressedLiteralsHeaderBytes literals.length + payloadBytes prev literals,
            .keep)) := by
    intro prev hprev hcodes
    have := @exact_table literals out prev hprev.sound hcodes hlen none 0
      prev.described_none .keep rfl hnokeep strategy
    rwa [Nat.zero_add] at this
  unfold compressLiterals estimateLiteralsSectionBytes
  simp only [Bool.false_eq_true, if_false, if_neg hmixed, if_neg (Nat.not_lt.mpr hmin)]
  rcases repeated_cases literals lastHuff strategy with ⟨prev, hsome, hcodes, hemit, hestimate⟩ |
    ⟨hemit, hestimate⟩
  · rw [hemit, hestimate]
    simp only [Nat.add_sub_cancel_left]
    exact htreeless prev (hlast prev hsome) hcodes
  · rw [hemit, hestimate]
    simp only
    split
    · exact exact_raw hlen
    · split
      · exact exact_raw hlen
      · obtain ⟨t, ht, hcodes, hbuilt, -⟩ := build_literals hmixed hne hlen hufSearch
        obtain ⟨r, hr, -⟩ := hbuilt.sound.description
        have htable : ∀ spare, HuffmanTable.buildFromCountsGatedWith
            ((countBytes literals).1.take ((countBytes literals).2.1 + 1)) hufSearch spare =
              some t := ht
        simp only [htable, hr, Option.bind_eq_bind, Option.bind_some]
        cases r with
        | none => exact exact_raw hlen
        | some newDesc =>
          have hcounts : (countBytes literals).1 = byteCounts literals := rfl
          simp only [hcounts]
          cases huse : decideHuffReuseLikeEncoder t lastHuff newDesc literals (byteCounts literals)
            strategy with
          | true =>
            have hdesc := hbuilt.sound.described_some (hr scratch.weightFseTable)
              scratch.weightFseTable
            have hnew : ∀ t', HuffOutcome.new t = .new t' → Remembered t' := by
              intro t' ht'
              cases ht'
              exact hbuilt
            have := @exact_table literals out t hbuilt.sound hcodes hlen
              (some scratch.weightFseTable) newDesc hdesc (.new t) rfl hnew strategy
            simp only [if_true, estimateHuffPayloadBytes_of_encodes hcodes, Nat.add_assoc,
              Nat.add_sub_cancel_left]
            exact this
          | false =>
            obtain ⟨prev, hsome, hold⟩ := decideHuffReuse_old huse
            simp only [Bool.false_eq_true, if_false, hsome, Option.bind_some,
              estimateHuffPayloadBytesChecked_of_encodes hold, Option.getD_some, Nat.add_zero,
              Nat.add_sub_cancel_left]
            exact htreeless prev (hlast prev hsome) hold

end Branches

/-- Whatever was decided for the literals of a block, the section written has just the size the
estimate gave, and its header tells its type, its streams and its sizes. -/
theorem literals_section_exact (literals out : List UInt8)
    (hlen : literals.length ≤ Decoding.maxBlockSize) (lastHuff : Option HuffmanTable)
    (hlast : ∀ t ∈ lastHuff, Remembered t) (strategy : StrategyTag)
    (hufSearch litDisabled : Bool) (scratch scratch' : WeightScratch) (sequenceCount : Nat) :
    Exact literals out
      (encodeLiteralsSection literals lastHuff strategy hufSearch litDisabled scratch sequenceCount
        (.ofOutput out))
      (estimateLiteralsSectionBytes literals lastHuff strategy hufSearch litDisabled scratch'
        (literalsSuspectedIncompressible literals.length sequenceCount)) := by
  unfold encodeLiteralsSection
  cases litDisabled with
  | true => exact exact_raw hlen
  | false =>
    rw [if_neg (by decide)]
    split
    · rename_i hsame
      have hestimate : estimateLiteralsSectionBytes literals lastHuff strategy hufSearch false
          scratch' (literalsSuspectedIncompressible literals.length sequenceCount) =
            some (uncompressedLiteralsHeaderBytes literals.length + 1, .clear) := by
        unfold estimateLiteralsSectionBytes
        rw [if_neg (by decide), if_pos hsame]
      rw [hestimate]
      exact exact_rle hlen hsame
    · rename_i hmixed
      split
      · rename_i hmin
        have hne : literals ≠ [] := by
          intro h0
          rw [h0, List.length_nil] at hmin
          have hpos : 0 < minLiteralsToCompress strategy lastHuff.isSome := by
            unfold minLiteralsToCompress
            split
            · decide
            · cases strategy <;> decide
          omega
        exact exact_compressed hmixed hne hlen hlast hufSearch scratch scratch' _ hmin
      · rename_i hmin
        have hestimate : estimateLiteralsSectionBytes literals lastHuff strategy hufSearch false
            scratch' (literalsSuspectedIncompressible literals.length sequenceCount) =
              some (uncompressedLiteralsHeaderBytes literals.length + literals.length, .clear) := by
          unfold estimateLiteralsSectionBytes
          rw [if_neg (by decide), if_neg hmixed, if_pos (Nat.lt_of_not_le hmin)]
        rw [hestimate]
        exact exact_raw hlen

theorem literals_section_exact_repeat : Exact [0, 1, 0, 2, 0, 1, 0, 0] [9]
    (encodeLiteralsSection [0, 1, 0, 2, 0, 1, 0, 0]
      (HuffmanTable.buildFromCountsGatedWith [5, 2, 1] false none) .fast false false
      ⟨none, FSETable.blank⟩ 1 (.ofOutput [9]))
    (estimateLiteralsSectionBytes [0, 1, 0, 2, 0, 1, 0, 0]
      (HuffmanTable.buildFromCountsGatedWith [5, 2, 1] false none) .fast false false
      ⟨none, FSETable.blank⟩ (literalsSuspectedIncompressible 8 1)) :=
  literals_section_exact [0, 1, 0, 2, 0, 1, 0, 0] [9] (by decide)
    (HuffmanTable.buildFromCountsGatedWith [5, 2, 1] false none)
    (fun _ ht => .built (by decide) ht) .fast false false ⟨none, FSETable.blank⟩
    ⟨none, FSETable.blank⟩ 1

end Encoding
