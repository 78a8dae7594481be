import StructuredZstd.Decoding.FourStreams
import StructuredZstd.Huff0.DescriptionRead
import StructuredZstd.Huff0.UnrolledStream

namespace Decoding

open Bits BitIo Huff0.Decoder

/-- A decode table that leads every code of an encoder table to its symbol, whatever follows. -/
structure Reads (enc : Huff0.Encoder.HuffmanTable) (dec : HuffmanTable) : Prop where
  wellFormed : dec.WellFormed
  decodes : ∀ s code len, enc.codes[s]? = some (code, len) → 0 < len →
    len ≤ dec.maxNumBits ∧ code < 2 ^ len ∧ ∀ x < 2 ^ (dec.maxNumBits - len),
      dec.packedDecode[code * 2 ^ (dec.maxNumBits - len) + x]? = some ⟨len, UInt8.ofNat s⟩

variable {enc : Huff0.Encoder.HuffmanTable} {dec : HuffmanTable} {data stream : List UInt8}

theorem reads_of_inverse (hdec : dec.WellFormed) (h : Huff0.Decoder.Inverse enc dec) :
    Reads enc dec := ⟨hdec, h.decodes⟩

/-- A reader of the description of a table builds one that reads its codes. -/
theorem reads_of_readBack {description : List UInt8} (h : Huff0.ReadBack enc description)
    {t : HuffmanTable} (hsym : t.fseTable.maxSymbol = 255) (rest : List UInt8) :
    ∃ dec, t.buildDecoder (description ++ rest) = (.ok description.length, dec) ∧
      dec.fseTable.maxSymbol = 255 ∧ dec.bits = enc.codes.map Prod.snd ∧ Reads enc dec := by
  obtain ⟨dec, hbuild, hkept, hbits, hdecodes⟩ := h t rest hsym
  exact ⟨dec, hbuild, hkept, hbits, HuffmanTable.buildDecoder_wellFormed hbuild, hdecodes⟩

/-- A symbol that can be encoded has a code of a bit at least. -/
theorem code_of_encodes (h : enc.Encodes data) {s : UInt8} (hs : s ∈ data) :
    ∃ code len, enc.codes[s.toNat]? = some (code, len) ∧ 0 < len ∧ enc.widthOf s.toNat = len := by
  have hsome := h s hs
  cases hcode : enc.codes[s.toNat]? with
  | none => simp [Huff0.Encoder.HuffmanTable.numBitsForSymbol, hcode] at hsome
  | some c =>
    obtain ⟨code, len⟩ := c
    by_cases h0 : len = 0
    · simp [Huff0.Encoder.HuffmanTable.numBitsForSymbol, hcode, h0] at hsome
    · refine ⟨code, len, rfl, Nat.pos_of_ne_zero h0, ?_⟩
      simp [Huff0.Encoder.HuffmanTable.widthOf, Huff0.Encoder.HuffmanTable.numBitsForSymbol, hcode,
        h0]

/-- The codes of `data`, the first one on top. -/
def codeStack (enc : Huff0.Encoder.HuffmanTable) (data : List UInt8) : Stack :=
  Stack.empty.pushAll (enc.codeFields data.reverse)

theorem codeStack_cons (s : UInt8) {code len : Nat} (h : enc.codes[s.toNat]? = some (code, len)) :
    codeStack enc (s :: data) = (codeStack enc data).push code len := by
  have hfield : enc.codeFields [s] = [(code, len)] := by
    simp [Huff0.Encoder.HuffmanTable.codeFields, List.getD_eq_getElem?_getD, h]
  have hsplit : enc.codeFields (data.reverse ++ [s]) =
      enc.codeFields data.reverse ++ enc.codeFields [s] := List.map_append
  rw [codeStack, List.reverse_cons, hsplit, Stack.pushAll_append, hfield]
  rfl

theorem codeStack_len : (codeStack enc data).len = enc.bitsOf data := by
  rw [codeStack, Stack.pushAll_len, Huff0.Encoder.HuffmanTable.codeFields_sum,
    Huff0.Encoder.HuffmanTable.bitsOf_reverse, Stack.empty_len, Nat.zero_add]

theorem bitsOf_cons (s : UInt8) :
    enc.bitsOf (s :: data) = enc.widthOf s.toNat + enc.bitsOf data := by
  simp [Huff0.Encoder.HuffmanTable.bitsOf]

namespace Reads

variable (h : Reads enc dec)

include h

/-- The code on top leads to its symbol, whatever lies below. -/
theorem slotAt_push {s : UInt8} {code len : Nat} (hcode : enc.codes[s.toNat]? = some (code, len))
    (hlen : 0 < len) (st : Stack) : slotAt dec (st.push code len) = ⟨len, s⟩ := by
  obtain ⟨hle, hlt, hslots⟩ := h.decodes _ _ _ hcode hlen
  have htop : (st.push code len).top dec.maxNumBits =
      code * 2 ^ (dec.maxNumBits - len) + st.top (dec.maxNumBits - len) := by
    conv_lhs => rw [← Nat.add_sub_cancel' hle]
    rw [Stack.top_add, Stack.top_push, Stack.rest_push, Nat.mod_eq_of_lt hlt]
  rw [slotAt, htop, List.getD_eq_getElem?_getD, hslots _ (Stack.top_lt _ _), Option.getD_some,
    UInt8.ofNat_toNat]

theorem symbolsAt_codeStack (hdata : enc.Encodes data) :
    symbolsAt dec data.length (codeStack enc data) = data ∧
      widthAt dec data.length (codeStack enc data) = enc.bitsOf data := by
  induction data with
  | nil => exact ⟨rfl, rfl⟩
  | cons s data ih =>
    obtain ⟨code, len, hcode, hpos, hwidth⟩ := code_of_encodes hdata List.mem_cons_self
    obtain ⟨hsymbols, hbits⟩ := ih (hdata.subset (List.subset_cons_self _ _))
    rw [codeStack_cons s hcode, List.length_cons, symbolsAt, widthAt, h.slotAt_push hcode hpos,
      Stack.rest_push, hsymbols, hbits, bitsOf_cons, hwidth]
    exact ⟨rfl, rfl⟩

/-- Short of the last symbol some bits are left. -/
theorem widthAt_lt (hdata : enc.Encodes data) {n : Nat} (hn : n < data.length) :
    widthAt dec n (codeStack enc data) < enc.bitsOf data := by
  induction data generalizing n with
  | nil => cases hn
  | cons s data ih =>
    obtain ⟨code, len, hcode, hpos, hwidth⟩ := code_of_encodes hdata List.mem_cons_self
    rw [codeStack_cons s hcode, bitsOf_cons, hwidth]
    cases n with
    | zero =>
      rw [widthAt]
      exact Nat.add_pos_left hpos _
    | succ n =>
      rw [widthAt, h.slotAt_push hcode hpos, Stack.rest_push]
      exact Nat.add_lt_add_left
        (ih (hdata.subset (List.subset_cons_self _ _)) (Nat.lt_of_succ_lt_succ hn)) len

end Reads

/-- A stream holds the codes of `data` below its end mark. -/
def HoldsCodes (enc : Huff0.Encoder.HuffmanTable) (data stream : List UInt8) : Prop :=
  ∃ k, 1 ≤ k ∧ k ≤ 8 ∧ Stack.ofBytes stream = (codeStack enc data).push 1 k

/-- What both stream writers leave. -/
theorem holdsCodes_of_bits (hlen : stream.length = enc.bitsOf data / 8 + 1)
    (hbits : le stream = (Stack.empty.pushAll (enc.codeFields data.reverse)).value +
      2 ^ enc.bitsOf data) : HoldsCodes enc data stream := by
  refine ⟨8 * stream.length - enc.bitsOf data, by omega, by omega, ?_⟩
  have hone : 1 < 2 ^ (8 * stream.length - enc.bitsOf data) :=
    Nat.one_lt_two_pow (by omega)
  ext
  · rw [Stack.push_value_of_lt _ hone, codeStack_len, Nat.one_mul]
    exact hbits
  · rw [Stack.push_len, codeStack_len, Stack.ofBytes_len]
    omega

namespace HoldsCodes

/-- A reader of the stream starts on the first code. -/
theorem start (hs : HoldsCodes enc data stream) (hdec : dec.WellFormed) :
    ∃ lane k, Lane.start dec stream = .ok lane ∧ lane.After dec ⟨stream, k⟩ 0 ∧
      (⟨stream, k⟩ : Opened).bits = codeStack enc data ∧
      ∀ n, (⟨stream, k⟩ : Opened).left dec n =
        (enc.bitsOf data : Int) - widthAt dec n (codeStack enc data) - dec.maxNumBits := by
  obtain ⟨k, hk1, hk8, hbytes⟩ := hs
  have hmax : dec.maxNumBits ≤ 12 := hdec.le
  have hbits : (⟨stream, k⟩ : Opened).bits = codeStack enc data := by
    rw [Opened.bits, hbytes, Stack.rest_push]
  have hleft : ∀ n, (⟨stream, k⟩ : Opened).left dec n =
      (enc.bitsOf data : Int) - widthAt dec n (codeStack enc data) - dec.maxNumBits := by
    intro n
    have hlen := congrArg Stack.len hbytes
    rw [Stack.ofBytes_len, Stack.push_len, codeStack_len] at hlen
    rw [Opened.left, hbits]
    push_cast
    omega
  have hat := BitReaderReversed.new_at stream
  rw [hbytes] at hat
  obtain ⟨r, hr, ha⟩ := hat.skipPadding hk1 hk8
  have htracks : r.Tracks (codeStack enc data) (codeStack enc data).len :=
    ⟨ha.sound, ha.stack, ha.remaining⟩
  obtain ⟨hvalue, hready⟩ := htracks.getBits (n := dec.maxNumBits) (by omega)
  refine ⟨⟨(r.getBits dec.maxNumBits).2, (r.getBits dec.maxNumBits).1, []⟩, k, ?_, ⟨?_, ?_, rfl⟩,
    hbits, hleft⟩
  · rw [Lane.start, hr]
    exact if_neg (Nat.not_lt.mpr hk8)
  · apply hready.cast
    · rw [Opened.after_zero, hbits]
    · rw [hleft, widthAt, codeStack_len]
      push_cast
      ring
  · rw [Opened.after_zero, hbits]
    exact hvalue

/-- The single-stream loop stops right behind the last symbol. -/
theorem decodeSingle (h : Reads enc dec) (hdata : enc.Encodes data) {o : Opened} {lane : Lane}
    {n fuel : Nat} (hafter : lane.After dec o n)
    (hleft : ∀ n, o.left dec n =
      (enc.bitsOf data : Int) - widthAt dec n (codeStack enc data) - dec.maxNumBits)
    (hn : n ≤ data.length) (hfuel : data.length < n + fuel) :
    (Decoding.decodeSingle dec fuel lane).After dec o data.length := by
  induction fuel generalizing lane n with
  | zero => omega
  | succ fuel ih =>
    rw [Decoding.decodeSingle, hafter.tracks.remaining, hleft]
    rcases Nat.lt_or_eq_of_le hn with hlt | rfl
    · have hmore := h.widthAt_lt hdata hlt
      rw [if_pos (by omega)]
      exact ih (hafter.step h.wellFormed) hlt (by omega)
    · rw [if_neg (by rw [(h.symbolsAt_codeStack hdata).2]; omega)]
      exact hafter

theorem length_le (hs : HoldsCodes enc data stream) (hdata : enc.Encodes data) :
    data.length ≤ 8 * stream.length := by
  obtain ⟨k, -, -, hbytes⟩ := hs
  have hlen := congrArg Stack.len hbytes
  rw [Stack.ofBytes_len, Stack.push_len, codeStack_len] at hlen
  have hwidth : data.length ≤ enc.bitsOf data := by
    clear hlen hbytes
    induction data with
    | nil => exact Nat.zero_le _
    | cons s data ih =>
      obtain ⟨code, len, -, hpos, hwidth⟩ := code_of_encodes hdata List.mem_cons_self
      have := ih (hdata.subset (List.subset_cons_self _ _))
      rw [bitsOf_cons, List.length_cons, hwidth]
      omega
  omega

/-- One stream decodes to the data it was made from. -/
theorem decodeOneStream (h : Reads enc dec) (hs : HoldsCodes enc data stream)
    (hdata : enc.Encodes data) :
    Decoding.decodeOneStream dec data.length stream = .ok data := by
  obtain ⟨lane, k, hstart, hafter, hbits, hleft⟩ := hs.start h.wellFormed
  obtain ⟨hsymbols, hwidth⟩ := h.symbolsAt_codeStack hdata
  have hlen := hs.length_le hdata
  have hend := decodeSingle h hdata hafter hleft (Nat.zero_le _)
    (show data.length < 0 + (8 * stream.length + 1) by omega)
  have hremaining := hend.tracks.remaining
  have hout := hend.out
  rw [hleft, hwidth] at hremaining
  rw [hbits, hsymbols] at hout
  simp only [Decoding.decodeOneStream, hstart, bind, Except.bind, hremaining, hout]
  rw [if_neg (by omega), if_neg (by omega)]
  rfl

/-- So does a stream on its own into its segment. -/
theorem decodeAlone (h : Reads enc dec) (hs : HoldsCodes enc data stream)
    (hdata : enc.Encodes data) : Decoding.decodeAlone dec data.length stream = .ok data := by
  obtain ⟨lane, k, hstart, hafter, hbits, hleft⟩ := hs.start h.wellFormed
  obtain ⟨hsymbols, hwidth⟩ := h.symbolsAt_codeStack hdata
  have halone := decodeAlone_spec h.wellFormed hstart hafter data.length
  rw [if_pos (by rw [hleft, hwidth]; omega), hbits, hsymbols] at halone
  cases hr : Decoding.decodeAlone dec data.length stream with
  | error e =>
    rw [hr] at halone
    cases halone
  | ok out =>
    rw [hr] at halone
    cases halone
    rfl

end HoldsCodes

section Four

open Huff0.Encoder.HuffmanTable (quarter quarter_subset)

/-- The four parts are as long as the segments of the output. -/
theorem quarters_length (data : List UInt8) :
    [(quarter data 0).length, (quarter data 1).length, (quarter data 2).length,
      (quarter data 3).length] = segmentLengths data.length := by
  simp only [quarter, segmentLengths]
  simp
  omega

theorem quarters_append (data : List UInt8) :
    quarter data 0 ++ (quarter data 1 ++ (quarter data 2 ++ quarter data 3)) = data := by
  simp only [quarter]
  generalize (data.length + 3) / 4 = size
  have h3 : data.drop (size * 3) = (data.drop (size * 2)).drop size := by
    rw [List.drop_drop, Nat.mul_succ]
  have h2 : data.drop (size * 2) = (data.drop size).drop size := by
    rw [List.drop_drop, Nat.mul_two]
  simp only [Nat.mul_zero, Nat.mul_one, List.drop_zero, OfNat.zero_ne_ofNat, OfNat.one_ne_ofNat,
    Nat.reduceEqDiff, if_true, if_false]
  rw [h3, List.take_append_drop, h2, List.take_append_drop, List.take_append_drop]

/-- An entry of the jump table is the size it was made from. -/
theorem jump_entry {n : Nat} (h : n < 2 ^ 16) :
    (UInt8.ofNat n).toNat + (UInt8.ofNat (n / 256)).toNat <<< 8 = n := by
  rw [UInt8.toNat_ofNat', UInt8.toNat_ofNat', Nat.shiftLeft_eq]
  omega

theorem slice_middle (before middle after : List UInt8) :
    ((before ++ (middle ++ after)).take (before.length + middle.length)).drop before.length =
      middle := by
  rw [← List.append_assoc, List.take_left' (List.length_append ..), List.drop_left]

/-- The jump table tells the four streams apart. -/
theorem fourStreams_append {s1 s2 s3 s4 : List UInt8} (h1 : s1.length < 2 ^ 16)
    (h2 : s2.length < 2 ^ 16) (h3 : s3.length < 2 ^ 16) :
    fourStreams (toLeBytes 2 s1.length ++ toLeBytes 2 s2.length ++ toLeBytes 2 s3.length ++
      (s1 ++ s2 ++ s3 ++ s4)) = .ok [s1, s2, s3, s4] := by
  have hbody : ∀ body : List UInt8, fourStreams (toLeBytes 2 s1.length ++ toLeBytes 2 s2.length ++
      toLeBytes 2 s3.length ++ body) =
        if body.length < s1.length + s2.length + s3.length then
          .error (.missingBytesForLiterals body.length (s1.length + s2.length + s3.length))
        else
          .ok [body.take s1.length, (body.take (s1.length + s2.length)).drop s1.length,
            (body.take (s1.length + s2.length + s3.length)).drop (s1.length + s2.length),
            body.drop (s1.length + s2.length + s3.length)] := by
    intro body
    have hsecond := jump_entry h2
    have hthird := jump_entry h3
    have hj2 : s1.length + (UInt8.ofNat s2.length).toNat +
        (UInt8.ofNat (s2.length / 256)).toNat <<< 8 = s1.length + s2.length := by omega
    have hj3 : s1.length + s2.length + (UInt8.ofNat s3.length).toNat +
        (UInt8.ofNat (s3.length / 256)).toNat <<< 8 = s1.length + s2.length + s3.length := by omega
    have hlong : ¬(body.length + 6 < 6) := by omega
    simp only [fourStreams, toLeBytes, List.cons_append, List.nil_append, List.length_cons,
      List.getD_cons_zero, List.getD_cons_succ, List.drop_succ_cons, List.drop_zero, hlong,
      jump_entry h1, hj2, hj3, if_false]
  have hsecond := slice_middle s1 s2 (s3 ++ s4)
  have hthird := slice_middle (s1 ++ s2) s3 s4
  have hlast : (s1 ++ s2 ++ s3 ++ s4).drop (s1 ++ s2 ++ s3).length = s4 := List.drop_left
  rw [hbody, if_neg (by simp only [List.length_append]; omega)]
  simp only [List.length_append, List.append_assoc, List.take_left] at hsecond hthird hlast ⊢
  rw [hsecond, hthird, Nat.add_assoc s1.length, hlast]

/-- Four streams behind their jump table decode to the data of all four. -/
theorem decodeFourStreams_holds (h : Reads enc dec) (hdata : enc.Encodes data)
    {s1 s2 s3 s4 : List UInt8} (h1 : s1.length < 2 ^ 16) (h2 : s2.length < 2 ^ 16)
    (h3 : s3.length < 2 ^ 16) (hs1 : HoldsCodes enc (quarter data 0) s1)
    (hs2 : HoldsCodes enc (quarter data 1) s2) (hs3 : HoldsCodes enc (quarter data 2) s3)
    (hs4 : HoldsCodes enc (quarter data 3) s4) :
    decodeFourStreams dec data.length (toLeBytes 2 s1.length ++ toLeBytes 2 s2.length ++
      toLeBytes 2 s3.length ++ (s1 ++ s2 ++ s3 ++ s4)) = .ok data := by
  have hpart : ∀ k, enc.Encodes (quarter data k) := fun k => hdata.subset (quarter_subset data k)
  have hseq : decodeSequentially dec data.length (toLeBytes 2 s1.length ++ toLeBytes 2 s2.length ++
      toLeBytes 2 s3.length ++ (s1 ++ s2 ++ s3 ++ s4)) = .ok data := by
    rw [decodeSequentially, fourStreams_append h1 h2 h3]
    simp only [bind, Except.bind, ← quarters_length, List.zip_cons_cons, List.zip_nil_right,
      decodeEach, hs1.decodeAlone h (hpart 0), hs2.decodeAlone h (hpart 1),
      hs3.decodeAlone h (hpart 2), hs4.decodeAlone h (hpart 3), pure, Except.pure,
      List.append_nil, quarters_append]
  have hfour := decodeFourStreams_toOption h.wellFormed data.length
    (toLeBytes 2 s1.length ++ toLeBytes 2 s2.length ++ toLeBytes 2 s3.length ++
      (s1 ++ s2 ++ s3 ++ s4))
  rw [hseq] at hfour
  cases hr : decodeFourStreams dec data.length (toLeBytes 2 s1.length ++ toLeBytes 2 s2.length ++
      toLeBytes 2 s3.length ++ (s1 ++ s2 ++ s3 ++ s4)) with
  | error e =>
    rw [hr] at hfour
    cases hfour
  | ok out =>
    rw [hr] at hfour
    cases hfour
    rfl

end Four

end Decoding
