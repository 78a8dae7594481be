import StructuredZstd.Encoding.LiteralsRoundTrip

namespace Encoding

open BitIo Huff0.Encoder
open Decoding (DecompressBlockError Dictionary HuffmanScratch LiteralsSection decodeLiteralsZerocopy
  reads_of_inverse)
open Fse.Encoder (FSETable)

section Bodies

variable {data bytes : List UInt8} {counts : List Nat} {t : HuffmanTable} {w : BitWriter}

/-- The table of a histogram of two symbols or more that ends with one it counts, written with its
description in front of the codes of at most a block of data it counts: a decoder builds its table
out of what was written, whatever table it held, and takes the data back. -/
theorem huffman_body_taken_back (hfits : histogramFits counts) (htwo : 2 ≤ counts.countP (0 < ·))
    (hlast : ∃ c, counts.getLast? = some c ∧ 0 < c) {useSearch : Bool}
    {spare : Option HuffmanTable}
    (hbuild : HuffmanTable.buildFromCountsGatedWith counts useSearch spare = some t)
    (hdata : ∀ s ∈ data, 0 < counts.getD s.toNat 0) (hlen : data.length ≤ 128 * 1024)
    {weights : FSETable} {descSize : Nat}
    (hsize : t.tryTableDescriptionSize weights = some (some descSize)) (fseTable : FSETable)
    (hw : w.Full bytes) :
    ∃ w' body, (if data.length < 256 then t.encode data (some fseTable) w
        else t.encode4x data (some fseTable) w) = some w' ∧ w'.Full (bytes ++ body) ∧
      ∀ held : Huff0.Decoder.HuffmanTable, held.fseTable.maxSymbol = 255 →
        ∃ dec, held.buildDecoder body = (.ok descSize, dec) ∧
          (if data.length < 256 then Decoding.decodeOneStream else Decoding.decodeFourStreams) dec
            data.length (body.drop descSize) = .ok data := by
  obtain ⟨t', hbuild', lengths, maxBits, hcoder⟩ :=
    buildFromCountsGatedWith_codes hfits htwo useSearch
  cases hbuild.symm.trans (hbuild' spare)
  have hcodes : t.Encodes data := fun s hs => hcoder.codes (hdata s hs)
  have hcounts : counts.length ≤ 256 := by
    simp only [histogramFits, Bool.and_eq_true, decide_eq_true_eq] at hfits
    exact hfits.1
  have htwoCodes : 2 ≤ t.codes.length := by
    rw [hcoder.table.length_eq, hcoder.length_eq]
    exact htwo.trans List.countP_le_length
  have hdesc : t.Describes (some fseTable) fun d => d.length = descSize ∧
      (d.length = descSize ∧ Huff0.Decoder.Carries t.weights.dropLast d) := by
    intro w bytes hw
    obtain ⟨w', d, hw', hfull, hd, hcarries⟩ :=
      hcoder.sound.describes_some hsize fseTable w bytes hw
    exact ⟨w', d, hw', hfull, hd, hd, hcarries htwoCodes⟩
  obtain ⟨w', body, hemit, hfull, -, hholds⟩ := encode_holds hcoder.sound hcodes hlen hdesc hw
    (show (if data.length < 256 then 0 else 1) = 0 ↔ data.length < 256 by split <;> simp_all)
  obtain ⟨description, streams, rfl, ⟨hd, hcarries⟩, hdecode⟩ := hholds.split hcodes
  refine ⟨w', description ++ streams, ?_, hfull, ?_⟩
  · rw [← hemit]
    split <;> simp_all
  · intro held hheld
    obtain ⟨dec, hdec, -, -, hreads⟩ := Decoding.reads_of_readBack
      (hcoder.readBack hcounts hlast hcarries) hheld streams
    have htaken := hdecode dec hreads
    refine ⟨dec, hd ▸ hdec, ?_⟩
    rw [← hd, List.drop_left]
    by_cases hshort : data.length < 256
    · rw [if_pos hshort, if_neg (by decide)] at htaken
      rwa [if_pos hshort]
    · rw [if_neg hshort, if_pos rfl] at htaken
      rwa [if_neg hshort]

theorem huffman_body_taken_back_small : ∃ t w' body,
    HuffmanTable.buildFromCountsGatedWith [5, 2, 1] false none = some t ∧
      t.encode [0, 1, 0, 2, 0] (some FSETable.blank) (.ofOutput [9]) = some w' ∧
      w'.Full ([9] ++ body) ∧
      ∀ held : Huff0.Decoder.HuffmanTable, held.fseTable.maxSymbol = 255 →
        ∃ dec, held.buildDecoder body = (.ok 2, dec) ∧
          Decoding.decodeOneStream dec 5 (body.drop 2) = .ok [0, 1, 0, 2, 0] := by
  have hdescribed : ((HuffmanTable.buildFromCountsGatedWith [5, 2, 1] false none).bind fun t =>
      t.tryTableDescriptionSize FSETable.blank) = some (some 2) := by decide +kernel
  obtain ⟨t, ht, hsize⟩ := Option.bind_eq_some_iff.mp hdescribed
  obtain ⟨w', body, hw', hfull, htaken⟩ := @huffman_body_taken_back [0, 1, 0, 2, 0] [9] [5, 2, 1]
    t (.ofOutput [9]) (by decide) (by decide) ⟨1, rfl, by decide⟩ false none ht
    (by decide +kernel) (by simp) FSETable.blank 2 hsize FSETable.blank
    (BitWriter.full_ofOutput [9])
  exact ⟨t, w', body, ht, hw', hfull, htaken⟩

end Bodies

/-- What `encode_block_parts` is given for the literals of a block, and whether the block is kept in
the end. -/
structure LiteralsCall where
  literals : List UInt8
  strategy : StrategyTag
  hufSearch : Bool
  litDisabled : Bool
  weights : WeightScratch
  sequenceCount : Nat
  out : List UInt8
  kept : Bool

/-- The table the next block may repeat: `commit_block_tables` for a block that is kept,
`discard_block_tables` for one that goes out raw. -/
def LiteralsCall.settle (call : LiteralsCall) (outcome : HuffOutcome)
    (lastHuff : Option HuffmanTable) : Option HuffmanTable :=
  if call.kept then outcome.apply lastHuff else lastHuff

/-- The literals sections of the blocks that are kept, in order. -/
def emitSections : List LiteralsCall → Option HuffmanTable → Option (List (List UInt8))
  | [], _ => some []
  | call :: calls, lastHuff => do
    let (outcome, w) ← encodeLiteralsSection call.literals lastHuff call.strategy call.hufSearch
      call.litDisabled call.weights call.sequenceCount (.ofOutput call.out)
    let w ← w.flush
    let sections ← emitSections calls (call.settle outcome lastHuff)
    some (if call.kept then w.output.drop call.out.length :: sections else sections)

/-- The literals of a run of compressed blocks, each block handed over from its literals section
on. -/
def takeSections (dict : Option Dictionary) :
    List (List UInt8) → HuffmanScratch → Except DecompressBlockError (List (List UInt8))
  | [], _ => .ok []
  | raw :: raws, scratch =>
    match LiteralsSection.parseFromHeader raw with
    | .error e => .error (.literalsSectionParseError e)
    | .ok (ls, headerLen) =>
      match decodeLiteralsZerocopy ls scratch dict (raw.drop headerLen) ls.payloadLen with
      | (.error e, _) => .error (.decompressLiteralsError e)
      | (.ok (literals, _), scratch) => (takeSections dict raws scratch).map (literals :: ·)

/-- What the two sides of a frame start from: nothing to repeat, or the table of a dictionary that
each side has parsed its own way. -/
inductive Opening : Option Dictionary → Option HuffmanTable → HuffmanScratch → Prop where
  | plain {dict : Option Dictionary} {scratch : HuffmanScratch}
    (fresh : scratch.table.fseTable.maxSymbol = 255) : Opening dict none scratch
  | primed {d : Dictionary} {description : List UInt8} {used : Nat} {t : HuffmanTable}
    {scratch : HuffmanScratch} (fresh : scratch.table.fseTable.maxSymbol = 255)
    (decoder : Huff0.Decoder.HuffmanTable.new.buildDecoder description = (.ok used, d.huf.table))
    (encoder : (Huff0.Decoder.HuffmanTable.new.buildWeightsOnly description).2.toEncoderTable =
      some (some t)) : Opening (some d) (some t) scratch.attachDict

variable {dict : Option Dictionary} {lastHuff : Option HuffmanTable} {scratch : HuffmanScratch}

theorem Opening.follows (h : Opening dict lastHuff scratch) : Follows dict lastHuff scratch := by
  cases h with
  | plain fresh =>
    refine ⟨fresh, ?_⟩
    intro t ht
    cases ht
  | @primed d description used t scratch fresh decoder encoder =>
    refine ⟨fresh, ?_⟩
    intro t' ht'
    cases ht'
    rcases Huff0.Decoder.HuffmanTable.description_builds .new description with
      ⟨e, he, -⟩ | ⟨n, -, -, -, hcomplete, htable⟩
    · rw [decoder] at he
      cases he
    · obtain ⟨enc, henc, hcodes⟩ := hcomplete.toEncoderTable
      cases encoder.symm.trans henc
      rw [decoder] at htable
      refine ⟨.described hcomplete henc, ?_⟩
      exact reads_of_inverse (Huff0.Decoder.HuffmanTable.buildDecoder_wellFormed decoder)
        (Huff0.Decoder.inverse_of_tables hcomplete.complete hcomplete.length_le hcodes htable)

/-- The decoder takes back the literals of every block that was kept. -/
theorem emitSections_taken {calls : List LiteralsCall} (hf : Follows dict lastHuff scratch)
    (hlen : ∀ call ∈ calls, call.literals.length ≤ Decoding.maxBlockSize) :
    ∃ sections, emitSections calls lastHuff = some sections ∧
      ∀ raws, List.Forall₂ (· <+: ·) sections raws →
        takeSections dict raws scratch = .ok ((calls.filter (·.kept)).map (·.literals)) := by
  induction calls generalizing lastHuff scratch with
  | nil =>
    refine ⟨[], rfl, ?_⟩
    rintro raws ⟨⟩
    rfl
  | cons call calls ih =>
    have hrest : ∀ c ∈ calls, c.literals.length ≤ Decoding.maxBlockSize :=
      fun c hc => hlen c (List.mem_cons_of_mem _ hc)
    obtain ⟨bytes, outcome, w, hw, hfull, ls, headerLen, scratch', -, hparse, -, -, hdecode, hnext⟩ :=
      encodeLiteralsSection_roundTrips hf (hlen call List.mem_cons_self) call.out call.strategy
        call.hufSearch call.litDisabled call.weights call.sequenceCount
    have hout : (BitWriter.ofOutput (call.out ++ bytes)).output.drop call.out.length = bytes :=
      List.drop_left
    cases hkept : call.kept with
    | false =>
      -- the block goes out raw: neither side's table has moved
      obtain ⟨sections, hs, htaken⟩ := ih hf hrest
      refine ⟨sections, ?_, ?_⟩
      · simp [emitSections, hw, hfull.flush, LiteralsCall.settle, hkept, hs]
      · simpa [hkept] using htaken
    | true =>
      obtain ⟨sections, hs, htaken⟩ := ih hnext hrest
      refine ⟨bytes :: sections, ?_, ?_⟩
      · simp [emitSections, hw, hfull.flush, LiteralsCall.settle, hkept, hs, hout]
      · rintro _ (_ | ⟨hfront, hraws⟩)
        obtain ⟨tail, rfl⟩ := hfront
        simp [takeSections, hparse, hdecode, htaken _ hraws, hkept, Except.map]

/-- Over any run of blocks, kept or discarded, and whatever is decided for their literals, the
decoder takes back the literals of each block that was kept, wherever its section ends. -/
theorem literals_runs_round_trip {calls : List LiteralsCall} (h : Opening dict lastHuff scratch)
    (hlen : ∀ call ∈ calls, call.literals.length ≤ Decoding.maxBlockSize) :
    ∃ sections, emitSections calls lastHuff = some sections ∧
      ∀ raws, List.Forall₂ (· <+: ·) sections raws →
        takeSections dict raws scratch = .ok ((calls.filter (·.kept)).map (·.literals)) :=
  emitSections_taken h.follows hlen

/-- Three hundred and sixty bytes of four symbols, one in half of the places. -/
def skewedLiterals : List UInt8 := (List.replicate 40 [0, 1, 0, 2, 0, 1, 0, 0, 3]).flatten

/-- A block with a new table, one that is discarded, one that repeats the table across it, and a run
of one byte. -/
def literalsSample : List LiteralsCall :=
  [⟨skewedLiterals, .btOpt, true, false, ⟨none, FSETable.blank⟩, 1, [], true⟩,
    ⟨List.replicate 300 7, .btUltra2, true, false, ⟨none, FSETable.blank⟩, 0, [9], false⟩,
    ⟨skewedLiterals.take 300, .lazy, false, false, ⟨none, FSETable.blank⟩, 2, [9], true⟩,
    ⟨[5, 5, 5], .lazy, false, false, ⟨none, FSETable.blank⟩, 2, [9], true⟩]

theorem literals_runs_round_trip_sample : ∃ sections, emitSections literalsSample none =
    some sections ∧ ∀ raws, List.Forall₂ (· <+: ·) sections raws →
      takeSections none raws .new =
        .ok [skewedLiterals, skewedLiterals.take 300, [5, 5, 5]] :=
  literals_runs_round_trip (.plain rfl) (by decide +kernel)

end Encoding
