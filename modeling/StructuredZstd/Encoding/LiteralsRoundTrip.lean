import StructuredZstd.Decoding.BlockDecoder
import StructuredZstd.Decoding.HuffmanRoundTrip
import StructuredZstd.Encoding.LiteralsSize

namespace Encoding

open Bits BitIo Huff0.Encoder
open Decoding (Dictionary HoldsCodes HuffmanScratch LiteralsSection LiteralsSectionType Reads
  decodeFourStreams_holds decodeLiteralsZerocopy holdsCodes_of_bits)
open Fse.Encoder (FSETable)
open Huff0.Encoder.HuffmanTable (IsSegment quarter quarter_subset)

/-- What stands behind the header of a compressed section, by its contents: a description or
nothing in its place, and streams that hold the codes of the literals. -/
inductive HoldsBody (t : HuffmanTable) (literals : List UInt8) (P : List UInt8 → Prop) :
    List UInt8 → Prop where
  | one (description stream : List UInt8) (short : literals.length < 256)
    (described : P description) (holds : HoldsCodes t literals stream) :
    HoldsBody t literals P (description ++ stream)
  | four (description s1 s2 s3 s4 : List UInt8) (long : 256 ≤ literals.length)
    (described : P description)
    (fits : s1.length < 2 ^ 16 ∧ s2.length < 2 ^ 16 ∧ s3.length < 2 ^ 16)
    (first : HoldsCodes t (quarter literals 0) s1) (second : HoldsCodes t (quarter literals 1) s2)
    (third : HoldsCodes t (quarter literals 2) s3) (last : HoldsCodes t (quarter literals 3) s4) :
    HoldsBody t literals P (description ++ (toLeBytes 2 s1.length ++ toLeBytes 2 s2.length ++
      toLeBytes 2 s3.length ++ (s1 ++ s2 ++ s3 ++ s4)))

section Emitted

variable {t : HuffmanTable} {literals : List UInt8} {newTable : Option FSETable} {descSize : Nat}
  {w : BitWriter} {bytes : List UInt8}

/-- A part's stream holds the codes of the part. -/
theorem holdsCodes_segment (h : t.Sound) (hdata : t.Encodes literals) {k : Nat}
    {stream : List UInt8} (hs : t.IsSegment literals k stream) :
    HoldsCodes t (quarter literals k) stream := by
  obtain ⟨stream', hsegment, hlen, hbits⟩ :=
    h.encodeSegmentWithin (hdata.subset (quarter_subset literals k))
  cases hs.segment.symm.trans (HuffmanTable.encodeSegmentWithin_eq hsegment)
  exact holdsCodes_of_bits hlen hbits

/-- The body that is written holds the literals behind the description of its table. -/
theorem encode_holds {P : List UInt8 → Prop} (h : t.Sound) (hdata : t.Encodes literals)
    (hlen : literals.length ≤ 128 * 1024)
    (hdesc : t.Describes newTable fun d => d.length = descSize ∧ P d)
    (hw : w.Full bytes) {format : Nat} (hformat : format = 0 ↔ literals.length < 256) :
    ∃ w' body, (if format = 0 then t.encode literals newTable w
        else t.encode4x literals newTable w) = some w' ∧ w'.Full (bytes ++ body) ∧
      body.length = descSize + payloadBytes t literals ∧ HoldsBody t literals P body := by
  by_cases hshort : literals.length < 256
  · obtain ⟨w', description, stream, hw', hfull, ⟨hd, hp⟩, hs, hbits⟩ := h.encode hdata hdesc hw
    refine ⟨w', description ++ stream, ?_, hfull, ?_,
      .one description stream hshort hp (holdsCodes_of_bits hs hbits)⟩
    · rw [if_pos (hformat.mpr hshort), hw']
    · rw [List.length_append, hd, hs, payloadBytes, if_pos hshort, streamBytes_eq]
  · obtain ⟨w', description, s1, s2, s3, s4, hw', hfull, ⟨hd, hp⟩, h1, h2, h3, h4⟩ :=
      h.encode4x hdata (by omega) (fun _ => h.quarterBytes_lt hlen) hdesc hw
    have hl1 := h1.length_eq
    have hl2 := h2.length_eq
    have hl3 := h3.length_eq
    have hl4 := h4.length_eq
    refine ⟨w', _, ?_, by simpa only [List.append_assoc] using hfull, ?_,
      .four description s1 s2 s3 s4 (Nat.le_of_not_lt hshort) hp ?_ (holdsCodes_segment h hdata h1)
        (holdsCodes_segment h hdata h2) (holdsCodes_segment h hdata h3)
        (holdsCodes_segment h hdata h4)⟩
    · rw [if_neg (mt hformat.mp hshort), hw']
    · simp only [List.length_append, toLeBytes_length, hd, hl1, hl2, hl3, hl4, payloadBytes,
        if_neg hshort]
    · rw [hl1, hl2, hl3]
      exact ⟨h.quarterBytes_lt hlen (by decide), h.quarterBytes_lt hlen (by decide),
        h.quarterBytes_lt hlen (by decide)⟩

end Emitted

/-- What the decoder's table has to do with the one the encoder may repeat: it leads its codes to
their symbols. -/
structure Follows (dict : Option Dictionary) (lastHuff : Option HuffmanTable)
    (scratch : HuffmanScratch) : Prop where
  fresh : scratch.table.fseTable.maxSymbol = 255
  known : ∀ t ∈ lastHuff, Remembered t ∧ Reads t (scratch.hufTable dict)

/-- `commit_block_tables` on the Huffman table. -/
def HuffOutcome.apply : HuffOutcome → Option HuffmanTable → Option HuffmanTable
  | .keep, lastHuff => lastHuff
  | .clear, _ => none
  | .new table, _ => some table

variable {dict : Option Dictionary} {lastHuff : Option HuffmanTable} {scratch : HuffmanScratch}
  {literals : List UInt8}

theorem Follows.clear (h : Follows dict lastHuff scratch) :
    Follows dict (HuffOutcome.clear.apply lastHuff) scratch where
  fresh := h.fresh
  known := by
    intro t ht
    cases ht

/-- A section the decoder takes back: its header and payload lead to the literals, and the
decoder's table follows the encoder's. -/
def DecodesBack (dict : Option Dictionary) (scratch : HuffmanScratch) (literals : List UInt8)
    (lastHuff : Option HuffmanTable) (bytes : List UInt8) : Prop :=
  ∃ ls headerLen scratch', headerLen ≤ bytes.length ∧
    (∀ rest, LiteralsSection.parseFromHeader (bytes ++ rest) = .ok (ls, headerLen)) ∧
    ls.regeneratedSize = literals.length ∧ headerLen + ls.payloadLen = bytes.length ∧
    (∀ rest, decodeLiteralsZerocopy ls scratch dict ((bytes ++ rest).drop headerLen)
      ls.payloadLen = (.ok (literals, ls.payloadLen), scratch')) ∧
    Follows dict lastHuff scratch'

theorem HoldsBody.split {t : HuffmanTable} {P : List UInt8 → Prop} {body : List UInt8}
    (h : HoldsBody t literals P body) (hdata : t.Encodes literals) :
    ∃ description streams, body = description ++ streams ∧ P description ∧
      ∀ table, Reads t table → (if (if literals.length < 256 then 1 else 4) = 4
        then Decoding.decodeFourStreams else Decoding.decodeOneStream) table literals.length streams =
          .ok literals := by
  cases h with
  | one description stream short described holds =>
    refine ⟨description, stream, rfl, described, fun table ht => ?_⟩
    rw [if_pos short, if_neg (by decide)]
    exact holds.decodeOneStream ht hdata
  | four description s1 s2 s3 s4 long described fits first second third last =>
    refine ⟨description, _, rfl, described, fun table ht => ?_⟩
    rw [if_neg (Nat.not_lt.mpr long), if_pos rfl]
    exact decodeFourStreams_holds ht hdata fits.1 fits.2.1 fits.2.2 first second third last

section Branches

variable {out : List UInt8} {strategy : StrategyTag}

/-- A header that is parsed and a payload that is decoded, wherever the section stands. -/
theorem decodesBack_of_parts {header payload : List UInt8} (ls : LiteralsSection)
    {scratch' : HuffmanScratch}
    (hparse : ∀ rest, LiteralsSection.parseFromHeader (header ++ rest) = .ok (ls, header.length))
    (hsize : ls.regeneratedSize = literals.length) (hpayload : ls.payloadLen = payload.length)
    (hdecode : ∀ rest, decodeLiteralsZerocopy ls scratch dict (payload ++ rest) ls.payloadLen =
      (.ok (literals, ls.payloadLen), scratch')) (hnext : Follows dict lastHuff scratch') :
    DecodesBack dict scratch literals lastHuff (header ++ payload) := by
  refine ⟨ls, header.length, scratch', ?_, ?_, hsize, ?_, ?_, hnext⟩
  · rw [List.length_append]
    exact Nat.le_add_right _ _
  · intro rest
    rw [List.append_assoc]
    exact hparse _
  · rw [List.length_append, hpayload]
  · intro rest
    rw [List.append_assoc, List.drop_left]
    exact hdecode rest

/-- A section is written that the decoder takes back. -/
def RoundTrips (dict : Option Dictionary) (lastHuff : Option HuffmanTable)
    (scratch : HuffmanScratch) (literals out : List UInt8)
    (emitted : Option (HuffOutcome × BitWriter)) : Prop :=
  ∃ bytes outcome w, emitted = some (outcome, w) ∧ w.Full (out ++ bytes) ∧
    DecodesBack dict scratch literals (outcome.apply lastHuff) bytes

theorem decodesBack_raw (h : Follows dict lastHuff scratch) (hlen : literals.length ≤ 128 * 1024) :
    DecodesBack dict scratch literals (HuffOutcome.clear.apply lastHuff)
      (plainHeader 0 literals.length ++ literals) := by
  refine decodesBack_of_parts ⟨literals.length, none, none, .raw⟩ ?_ rfl rfl ?_ h.clear
  · exact fun rest => parseFromHeader_plain (by decide) (by omega) rest
  · intro rest
    simp only [decodeLiteralsZerocopy, LiteralsSection.payloadLen, List.take_left]
    rw [if_neg (by simp)]

theorem roundTrips_raw (h : Follows dict lastHuff scratch) (hlen : literals.length ≤ 128 * 1024) :
    RoundTrips dict lastHuff scratch literals out (do
      let w ← rawLiterals literals (.ofOutput out)
      some (.clear, w)) := by
  obtain ⟨w, hw, hfull⟩ := rawLiterals_spec (show literals.length < 2 ^ 20 by omega)
    (BitWriter.full_ofOutput out)
  refine ⟨_, .clear, w, ?_, hfull, decodesBack_raw h hlen⟩
  simp only [hw, Option.bind_eq_bind, Option.bind_some]

theorem decodesBack_rle {first : UInt8} {rest : List UInt8} (h : Follows dict lastHuff scratch)
    (hlen : (first :: rest).length ≤ 128 * 1024)
    (hrest : rest = List.replicate rest.length first) :
    DecodesBack dict scratch (first :: rest) (HuffOutcome.clear.apply lastHuff)
      (plainHeader 1 (first :: rest).length ++ [first]) := by
  refine decodesBack_of_parts ⟨(first :: rest).length, none, none, .rle⟩ ?_ rfl rfl ?_ h.clear
  · exact fun tail => parseFromHeader_plain (by decide) (by omega) tail
  · intro tail
    have hrun : List.replicate (first :: rest).length first = first :: rest := by
      rw [List.length_cons, List.replicate_succ, ← hrest]
    simp only [decodeLiteralsZerocopy, LiteralsSection.payloadLen, List.cons_append, hrun]

theorem roundTrips_rle (h : Follows dict lastHuff scratch) (hlen : literals.length ≤ 128 * 1024)
    (hsame : literals ≠ [] ∧ allBytesIdentical literals) :
    RoundTrips dict lastHuff scratch literals out (do
      let w ← rleLiterals literals (.ofOutput out)
      some (.clear, w)) := by
  obtain ⟨w, hw, hfull⟩ := rleLiterals_spec (show literals.length < 2 ^ 20 by omega)
    (BitWriter.full_ofOutput out)
  obtain ⟨hne, hall⟩ := hsame
  obtain ⟨first, rest, rfl⟩ := List.exists_cons_of_ne_nil hne
  have hrest : rest = List.replicate rest.length first := by
    apply List.eq_replicate_of_mem
    intro x hx
    exact of_decide_eq_true (List.all_eq_true.mp hall x hx)
  refine ⟨_, .clear, w, ?_, hfull, decodesBack_rle h hlen hrest⟩
  simp only [hw, Option.bind_eq_bind, Option.bind_some]

/-- A section with the streams of `t`: the decoder finds the table for them, new or remembered, and
takes the literals back. -/
theorem roundTrips_table {t : HuffmanTable} (hf : Follows dict lastHuff scratch) (h : t.Sound)
    (hdata : t.Encodes literals) (hlen : literals.length ≤ 128 * 1024) {newTable : Option FSETable}
    {descSize : Nat} {P : List UInt8 → Prop}
    (hdesc : t.Describes newTable fun d => d.length = descSize ∧ P d) {outcome : HuffOutcome}
    (hprepare : ∀ description streams, P description → ∃ scratch',
      Decoding.prepareTable ⟨literals.length, some (description ++ streams).length,
        some (if literals.length < 256 then 1 else 4),
        if newTable.isSome then .compressed else .treeless⟩ scratch dict (description ++ streams) =
          (.ok description.length, scratch') ∧ Reads t (scratch'.hufTable dict) ∧
      Follows dict (outcome.apply lastHuff) scratch') :
    RoundTrips dict lastHuff scratch literals out (do
      let (kept, w) ← emitCompressedLiterals literals t newTable (.ofOutput out)
        (BitWriter.ofOutput out).index strategy
      some (if kept then outcome else .clear, w)) := by
  obtain ⟨w, hw⟩ := emitCompressedLiterals_body
    (Nat.add_pos_right descSize (payloadBytes_pos t literals))
    (fun _ _ _ hw hformat => encode_holds h hdata hlen hdesc hw hformat) hlen
    (BitWriter.full_ofOutput out) strategy
  split at hw
  · -- too little gained: the raw section stands in its place
    obtain ⟨hw, hfull⟩ := hw
    refine ⟨_, .clear, w, ?_, hfull, decodesBack_raw hf hlen⟩
    simp only [hw, Option.bind_eq_bind, Option.bind_some, Bool.false_eq_true, if_false]
  · rename_i hkeep
    obtain ⟨body, hw, hfull, hbody, hholds⟩ := hw
    have hcompressed : body.length < 2 ^ (sizeFormat literals.length).2 := by
      rw [useRawLiteralFallback, decide_eq_true_eq, not_le, ← hbody] at hkeep
      rcases sizeFormat_cases (show literals.length < 2 ^ 18 by omega) with
        ⟨hf, -, hl⟩ | ⟨hf, -, -, hl⟩ | ⟨hf, -, -, hl⟩ | ⟨hf, -, -, hl⟩
      all_goals
        rw [hf]
        simp only
        omega
    obtain ⟨description, streams, hsplit, hp, hdecode⟩ := hholds.split hdata
    obtain ⟨scratch', hprep, hreads, hnext⟩ := hprepare description streams hp
    have hone := hdecode _ hreads
    have hstreams : body.drop description.length = streams := by rw [hsplit, List.drop_left]
    rw [← hsplit] at hprep
    refine ⟨_, outcome, w, ?_, hfull, decodesBack_of_parts ⟨literals.length, some body.length,
      some (if literals.length < 256 then 1 else 4),
      if newTable.isSome then .compressed else .treeless⟩ ?_ rfl rfl ?_ hnext⟩
    · simp only [hw, Option.bind_eq_bind, Option.bind_some, if_true]
    · intro rest
      rw [parseFromHeader_kept (by split <;> decide) (by split <;> decide) (by omega) hcompressed]
      cases newTable <;> rfl
    · intro rest
      have hzerocopy : decodeLiteralsZerocopy ⟨literals.length, some body.length,
          some (if literals.length < 256 then 1 else 4),
          if newTable.isSome then .compressed else .treeless⟩ scratch dict (body ++ rest)
            body.length =
          Decoding.decompressLiterals ⟨literals.length, some body.length,
            some (if literals.length < 256 then 1 else 4),
            if newTable.isSome then .compressed else .treeless⟩ scratch dict body := by
        cases newTable <;> simp only [decodeLiteralsZerocopy, Option.isSome_some,
          Option.isSome_none, if_true, Bool.false_eq_true, if_false, List.take_left]
      refine hzerocopy.trans ?_
      simp only [Decoding.decompressLiterals, Nat.lt_irrefl, if_false, List.take_length, hprep,
        hstreams, hone]
      rfl

theorem roundTrips_treeless {prev : HuffmanTable} (hf : Follows dict lastHuff scratch)
    (hprev : lastHuff = some prev) (hdata : prev.Encodes literals)
    (hlen : literals.length ≤ 128 * 1024) :
    RoundTrips dict lastHuff scratch literals out (do
      let (kept, w) ← emitCompressedLiterals literals prev none (.ofOutput out)
        (BitWriter.ofOutput out).index strategy
      some (if kept then .keep else .clear, w)) := by
  obtain ⟨hremembered, hreads⟩ := hf.known prev hprev
  have hdesc : prev.Describes none fun d => d.length = 0 ∧ d = [] := by
    intro w bytes hw
    refine ⟨w, [], rfl, ?_, rfl, rfl⟩
    rwa [List.append_nil]
  refine roundTrips_table hf hremembered.sound hdata hlen hdesc ?_
  rintro description streams rfl
  refine ⟨scratch, ?_, hreads, hf⟩
  rw [Decoding.prepareTable]
  exact if_neg hreads.wellFormed.pos.ne'

theorem roundTrips_new {t : HuffmanTable} (hf : Follows dict lastHuff scratch)
    (ht : Remembered t) (hdescribable : Huff0.Describable t) (hdata : t.Encodes literals)
    (hlen : literals.length ≤ 128 * 1024) {descSize : Nat} {weights : FSETable}
    (hsize : t.tryTableDescriptionSize weights = some (some descSize)) (fseTable : FSETable) :
    RoundTrips dict lastHuff scratch literals out (do
      let (kept, w) ← emitCompressedLiterals literals t (some fseTable) (.ofOutput out)
        (BitWriter.ofOutput out).index strategy
      some (if kept then .new t else .clear, w)) := by
  refine roundTrips_table hf ht.sound hdata hlen (ht.sound.describes_some hsize fseTable) ?_
  intro description streams hcarries
  obtain ⟨dec, hbuild, hkept, -, hreads⟩ := Decoding.reads_of_readBack
    (hdescribable.readBack description (hcarries hdescribable.two)) hf.fresh streams
  refine ⟨({ scratch with table := dec } : HuffmanScratch).markTableLocal, ?_, hreads, hkept, ?_⟩
  · simp only [Option.isSome_some, if_true, Decoding.prepareTable, hbuild]
  · intro t' ht'
    cases ht'
    exact ⟨ht, hreads⟩

/-- Whichever table is written with, the decoder has it. -/
theorem roundTrips_compressed (hf : Follows dict lastHuff scratch)
    (hmixed : ¬(literals ≠ [] ∧ allBytesIdentical literals)) (hne : literals ≠ [])
    (hlen : literals.length ≤ 128 * 1024) (hufSearch : Bool) (weights : WeightScratch)
    (suspected : Bool) :
    RoundTrips dict lastHuff scratch literals out
      (compressLiterals literals lastHuff (.ofOutput out) strategy hufSearch weights
        suspected) := by
  unfold compressLiterals
  rcases repeated_cases literals lastHuff strategy with ⟨prev, hsome, hcodes, hemit, -⟩ |
    ⟨hemit, -⟩
  · rw [hemit]
    exact roundTrips_treeless hf hsome hcodes hlen
  · rw [hemit]
    simp only
    split
    · exact roundTrips_raw hf hlen
    · split
      · exact roundTrips_raw hf hlen
      · obtain ⟨t, ht, hcodes, hbuilt, hdescribable⟩ :=
          build_literals hmixed hne hlen hufSearch
        obtain ⟨r, hr, -⟩ := hbuilt.sound.description
        have htable : ∀ spare, HuffmanTable.buildFromCountsGatedWith
            ((countBytes literals).1.take ((countBytes literals).2.1 + 1)) hufSearch spare =
              some t := ht
        simp only [htable, hr, Option.bind_eq_bind, Option.bind_some]
        cases r with
        | none => exact roundTrips_raw hf hlen
        | some newDesc =>
          have hcounts : (countBytes literals).1 = byteCounts literals := rfl
          simp only [hcounts]
          cases huse : decideHuffReuseLikeEncoder t lastHuff newDesc literals (byteCounts literals)
            strategy with
          | true =>
            exact roundTrips_new hf hbuilt hdescribable hcodes hlen (hr weights.weightFseTable) _
          | false =>
            obtain ⟨prev, rfl, hold⟩ := decideHuffReuse_old huse
            simp only [Bool.false_eq_true, if_false, Option.bind_some]
            exact roundTrips_treeless hf rfl hold hlen

end Branches

/-- Whatever is decided for the literals of a block, the decoder takes them back from the section
and holds the table the encoder may repeat next. -/
theorem encodeLiteralsSection_roundTrips (hf : Follows dict lastHuff scratch)
    (hlen : literals.length ≤ Decoding.maxBlockSize) (out : List UInt8) (strategy : StrategyTag)
    (hufSearch litDisabled : Bool) (weights : WeightScratch) (sequenceCount : Nat) :
    RoundTrips dict lastHuff scratch literals out
      (encodeLiteralsSection literals lastHuff strategy hufSearch litDisabled weights sequenceCount
        (.ofOutput out)) := by
  unfold encodeLiteralsSection
  cases litDisabled with
  | true => exact roundTrips_raw hf hlen
  | false =>
    rw [if_neg (by decide)]
    split
    · rename_i hsame
      exact roundTrips_rle hf hlen hsame
    · rename_i hmixed
      split
      · rename_i hmin
        have hne : literals ≠ [] := by
          rintro rfl
          have hpos : 0 < minLiteralsToCompress strategy lastHuff.isSome := by
            unfold minLiteralsToCompress
            split
            · decide
            · cases strategy <;> decide
          exact absurd hmin (Nat.not_le.mpr hpos)
        exact roundTrips_compressed hf hmixed hne hlen hufSearch weights _
      · exact roundTrips_raw hf hlen

end Encoding
