import StructuredZstd.Encoding.LiteralsRoundTrip
import StructuredZstd.Huff0.LeafOrder

namespace Encoding

open BitIo Huff0.Encoder
open Decoding (Reads decodeFourStreams_holds holdsCodes_of_bits)
open Fse.Encoder (FSETable)

section Payload

variable {t : HuffmanTable} {dec : Huff0.Decoder.HuffmanTable} {data : List UInt8}
  {fseTable : FSETable} {w w₁ : BitWriter} {written : List UInt8}

/-- What is written of `data` behind `written`, and what a decoder makes of it. Four streams are
written of twelve bytes or more whose first three streams fit the entries of the jump table. -/
structure PayloadTakenBack (t : HuffmanTable) (dec : Huff0.Decoder.HuffmanTable)
    (fseTable : FSETable) (w : BitWriter) (written data : List UInt8) : Prop where
  one : ∃ w' stream, t.encode data (some fseTable) w = some w' ∧ w'.Full (written ++ stream) ∧
    Decoding.decodeOneStream dec data.length stream = .ok data
  four_iff : (t.encode4x data (some fseTable) w).isSome ↔
    12 ≤ data.length ∧ ∀ k < 3, t.quarterBytes data k < 2 ^ 16
  four : ∀ w', t.encode4x data (some fseTable) w = some w' → ∃ streams,
    w'.Full (written ++ streams) ∧ Decoding.decodeFourStreams dec data.length streams = .ok data

theorem payload_taken_back (h : t.Sound) (hdata : t.Encodes data) (hreads : Reads t dec)
    (hw₁ : t.writeTable fseTable w = some w₁) (hfull : w₁.Full written) :
    PayloadTakenBack t dec fseTable w written data := by
  have hnone : t.Describes none fun description => description = [] := by
    intro w bytes hw
    refine ⟨w, [], rfl, ?_, rfl⟩
    rwa [List.append_nil]
  have hfour : ∀ hmin : 12 ≤ data.length, ∀ hfits : ∀ k < 3, t.quarterBytes data k < 2 ^ 16,
      ∃ w' streams, t.encode4x data none w₁ = some w' ∧ w'.Full (written ++ streams) ∧
        Decoding.decodeFourStreams dec data.length streams = .ok data := by
    intro hmin hfits
    obtain ⟨w', _, s1, s2, s3, s4, hw', hfull', rfl, h1, h2, h3, h4⟩ :=
      h.encode4x hdata hmin hfits hnone hfull
    refine ⟨w', _, hw', hfull', decodeFourStreams_holds hreads hdata
      (h1.length_eq.trans_lt (hfits 0 (by decide))) (h2.length_eq.trans_lt (hfits 1 (by decide)))
      (h3.length_eq.trans_lt (hfits 2 (by decide))) (holdsCodes_segment h hdata h1)
      (holdsCodes_segment h hdata h2) (holdsCodes_segment h hdata h3)
      (holdsCodes_segment h hdata h4)⟩
  constructor
  · obtain ⟨w', _, stream, hw', hfull', rfl, hlen, hbits⟩ := h.encode hdata hnone hfull
    refine ⟨w', stream, ?_, hfull', (holdsCodes_of_bits hlen hbits).decodeOneStream hreads hdata⟩
    rw [HuffmanTable.encode_described hw₁, hw']
  · rw [HuffmanTable.encode4x_described hw₁]
    constructor
    · intro hsome
      obtain ⟨w', hw'⟩ := Option.isSome_iff_exists.mp hsome
      exact h.encode4x_fits hdata hw'
    · rintro ⟨hmin, hfits⟩
      obtain ⟨w', -, hw', -⟩ := hfour hmin hfits
      rw [hw']
      rfl
  · intro w' hw'
    rw [HuffmanTable.encode4x_described hw₁] at hw'
    obtain ⟨hmin, hfits⟩ := h.encode4x_fits hdata hw'
    obtain ⟨w'', streams, hw'', hfull', htaken⟩ := hfour hmin hfits
    cases hw'.symm.trans hw''
    exact ⟨streams, hfull', htaken⟩

end Payload

/-- The description of the table of a histogram, where the weights fit one, is read back in just its
bytes to a table of the same code lengths, and that table takes back whatever was encoded. -/
theorem huffman_coding_round_trip {counts : List Nat} (hfits : histogramFits counts)
    (htwo : 2 ≤ counts.countP (0 < ·)) (hlast : ∃ c, counts.getLast? = some c ∧ 0 < c) :
    ∃ t, HuffmanTable.buildFromCounts counts = some t ∧
      ∀ (fseTable : FSETable) (w : BitWriter) (bytes : List UInt8), w.Full bytes →
        t.tryTableDescriptionSize fseTable = some none ∧ t.writeTable fseTable w = none ∨
        ∃ w₁ description, t.tryTableDescriptionSize fseTable = some (some description.length) ∧
          t.writeTable fseTable w = some w₁ ∧ w₁.Full (bytes ++ description) ∧
          ∀ (held : Huff0.Decoder.HuffmanTable) (rest : List UInt8),
            held.fseTable.maxSymbol = 255 →
            ∃ dec, held.buildDecoder (description ++ rest) = (.ok description.length, dec) ∧
              dec.bits = t.codes.map Prod.snd ∧
              ∀ data : List UInt8, (∀ s ∈ data, 0 < counts.getD s.toNat 0) →
                PayloadTakenBack t dec fseTable w (bytes ++ description) data := by
  obtain ⟨t, hbuild, lengths, maxBits, hcoder⟩ := buildFromCountsGatedWith_codes hfits htwo true
  have hcounts : counts.length ≤ 256 := by
    simp only [histogramFits, Bool.and_eq_true, decide_eq_true_eq] at hfits
    exact hfits.1
  refine ⟨t, hbuild none, fun fseTable w bytes hw => ?_⟩
  obtain ⟨r, hr, hwrite⟩ := hcoder.sound.describes
  cases r with
  | none => exact .inl ⟨hr fseTable, HuffmanTable.writeTable_none (hr fseTable) w⟩
  | some size =>
    obtain ⟨w₁, description, hw₁, hfull, rfl, hcarries⟩ := hwrite size rfl fseTable w bytes hw
    refine .inr ⟨w₁, description, hr fseTable, hw₁, hfull, fun held rest hheld => ?_⟩
    have hlength : 2 ≤ t.codes.length := by
      rw [hcoder.table.length_eq, hcoder.length_eq]
      exact htwo.trans List.countP_le_length
    obtain ⟨dec, hdec, -, hbits, hreads⟩ := Decoding.reads_of_readBack
      (hcoder.readBack hcounts hlast (hcarries hlength)) hheld rest
    exact ⟨dec, hdec, hbits, fun data hdata => payload_taken_back hcoder.sound
      (fun s hs => hcoder.codes (hdata s hs)) hreads hw₁ hfull⟩

theorem huffman_coding_round_trip_skewed : ∃ t, HuffmanTable.buildFromCounts [5, 2, 1] = some t ∧
    ∃ w₁ description, t.writeTable FSETable.blank (.ofOutput [9]) = some w₁ ∧
      w₁.Full ([9] ++ description) ∧
      ∀ (held : Huff0.Decoder.HuffmanTable) (rest : List UInt8), held.fseTable.maxSymbol = 255 →
        ∃ dec, held.buildDecoder (description ++ rest) = (.ok description.length, dec) ∧
          dec.bits = [1, 2, 2] ∧
          PayloadTakenBack t dec FSETable.blank (.ofOutput [9]) ([9] ++ description)
            [0, 1, 0, 2, 0, 0, 1, 0, 0, 2, 0, 0, 0] := by
  have hsized : (HuffmanTable.buildFromCounts [5, 2, 1]).any (fun t =>
      t.tryTableDescriptionSize FSETable.blank ≠ some none &&
        t.codes.map Prod.snd = [1, 2, 2]) = true := by decide +kernel
  obtain ⟨t, ht, hcoding⟩ := huffman_coding_round_trip (show histogramFits [5, 2, 1] by decide)
    (by decide) ⟨1, rfl, by decide⟩
  rw [ht, Option.any_some, Bool.and_eq_true, decide_eq_true_eq, decide_eq_true_eq] at hsized
  rcases hcoding FSETable.blank (.ofOutput [9]) [9] (BitWriter.full_ofOutput [9]) with
    ⟨hnone, -⟩ | ⟨w₁, description, -, hw₁, hfull, hread⟩
  · exact (hsized.1 hnone).elim
  · refine ⟨t, ht, w₁, description, hw₁, hfull, fun held rest hheld => ?_⟩
    obtain ⟨dec, hdec, hbits, hpayload⟩ := hread held rest hheld
    exact ⟨dec, hdec, hbits.trans hsized.2, hpayload _ (by decide +kernel)⟩

/-- Five bytes are too few for four streams, 256 codes of one length fit no description, and a
histogram that ends with an absent symbol is read back to other code lengths. -/
theorem huffman_coding_limits :
    (HuffmanTable.buildFromCounts [5, 2, 1]).map (fun t =>
        (t.encode4x [0, 1, 0, 2, 0] (some FSETable.blank) (.ofOutput [])).isSome) = some false ∧
      (HuffmanTable.buildFromWeights (List.replicate 256 1)).map (fun t =>
        (t.writeTable FSETable.blank (.ofOutput [])).isSome) = some false ∧
      ((HuffmanTable.buildFromCounts [5, 2, 0]).bind fun t =>
        (t.writeTable FSETable.blank (.ofOutput [])).bind fun w => w.flush.map fun w =>
          (t.codes.map Prod.snd, (Huff0.Decoder.HuffmanTable.new.buildDecoder w.output).2.bits)) =
        some ([1, 1, 0], [2, 2, 1]) := by
  decide +kernel

end Encoding
