import StructuredZstd.Encoding.LiteralsHeader
import StructuredZstd.Huff0.EmittedStreams

namespace Encoding

open Bits BitIo Huff0.Encoder
open Fse.Encoder (FSETable)

variable {w : BitWriter} {bytes literals : List UInt8}

/-- Clean fields that fill whole bytes are the bytes of their value. -/
theorem full_fields {fields : List (Nat × Nat)} {r : Option BitWriter} (hw : w.Full bytes)
    (h : w.Writes fields r) {k v : Nat} (hlen : (fields.map Prod.snd).sum = 8 * k)
    (hval : (Stack.empty.pushAll fields).value = v) :
    ∃ w', r = some w' ∧ w'.Full (bytes ++ toLeBytes k v) := by
  obtain ⟨w', more, hr, hfull, hmore⟩ := hw.writes h (by rw [hlen, Nat.mul_mod_right])
  have hmorelen : more.length = k := by
    have := congrArg Stack.len hmore
    rw [Stack.ofBytes_len, Stack.pushAll_len, hlen, Stack.empty_len, Nat.zero_add] at this
    exact Nat.eq_of_mul_eq_mul_left (by decide) this
  have hmoreval : le more = v := by
    rw [← hval, ← hmore]
    rfl
  have hlt : v < 2 ^ (8 * k) := by
    rw [← hmoreval, ← hmorelen]
    exact le_lt more
  refine ⟨w', hr, ?_⟩
  rw [← BitWriter.eq_toLeBytes hmorelen hmoreval hlt]
  exact hfull

theorem writeUncompressedLiteralsHeader_spec {sectionType literalsLen : Nat}
    (htype : sectionType < 2) (hlen : literalsLen < 2 ^ 20) (hw : w.Full bytes) :
    ∃ w', writeUncompressedLiteralsHeader sectionType literalsLen w = some w' ∧
      w'.Full (bytes ++ plainHeader sectionType literalsLen) := by
  have hkind : sectionType < 2 ^ 2 := by omega
  unfold plainHeader
  split
  · rename_i h31
    have hfields : w.Writes [(sectionType, 2), (0, 1), (literalsLen, 5)]
        (writeUncompressedLiteralsHeader sectionType literalsLen w) := by
      unfold writeUncompressedLiteralsHeader
      apply BitWriter.Writes.bind_cons (.field w hkind (by decide))
      intro w₁
      rw [if_pos h31]
      apply BitWriter.Writes.bind_cons (.field w₁ (by decide) (by decide))
      intro w₂
      exact .field w₂ (by omega) (by decide)
    apply full_fields hw hfields rfl
    simp [Stack.push_value, Nat.mod_eq_of_lt (show literalsLen < 32 by omega)]
    omega
  · rename_i h31
    split
    · rename_i h4095
      have hfields : w.Writes [(sectionType, 2), (1, 2), (literalsLen, 12)]
          (writeUncompressedLiteralsHeader sectionType literalsLen w) := by
        unfold writeUncompressedLiteralsHeader
        apply BitWriter.Writes.bind_cons (.field w hkind (by decide))
        intro w₁
        rw [if_neg h31, if_pos h4095]
        apply BitWriter.Writes.bind_cons (.field w₁ (by decide) (by decide))
        intro w₂
        exact .field w₂ (by omega) (by decide)
      apply full_fields hw hfields rfl
      simp [Stack.push_value, Nat.mod_eq_of_lt (show literalsLen < 4096 by omega)]
      omega
    · rename_i h4095
      have hfields : w.Writes [(sectionType, 2), (3, 2), (literalsLen, 20)]
          (writeUncompressedLiteralsHeader sectionType literalsLen w) := by
        unfold writeUncompressedLiteralsHeader
        apply BitWriter.Writes.bind_cons (.field w hkind (by decide))
        intro w₁
        rw [if_neg h31, if_neg h4095]
        apply BitWriter.Writes.bind_cons (.field w₁ (by decide) (by decide))
        intro w₂
        exact .field w₂ hlen (by decide)
      apply full_fields hw hfields rfl
      simp [Stack.push_value, Nat.mod_eq_of_lt (show literalsLen < 1048576 by omega)]
      omega

theorem rawLiterals_spec (hlen : literals.length < 2 ^ 20) (hw : w.Full bytes) :
    ∃ w', rawLiterals literals w = some w' ∧
      w'.Full (bytes ++ (plainHeader 0 literals.length ++ literals)) := by
  obtain ⟨w₁, hw₁, hfull₁⟩ := writeUncompressedLiteralsHeader_spec (show 0 < 2 by decide) hlen hw
  obtain ⟨w', hw', hfull⟩ := hfull₁.appendBytes literals
  refine ⟨w', ?_, by rwa [← List.append_assoc]⟩
  simp only [rawLiterals, hw₁, hw', Option.bind_eq_bind, Option.bind_some]

theorem rleLiterals_spec (hlen : literals.length < 2 ^ 20) (hw : w.Full bytes) :
    ∃ w', rleLiterals literals w = some w' ∧
      w'.Full (bytes ++ (plainHeader 1 literals.length ++ literals.take 1)) := by
  obtain ⟨w₁, hw₁, hfull₁⟩ := writeUncompressedLiteralsHeader_spec (show 1 < 2 by decide) hlen hw
  obtain ⟨w', hw', hfull⟩ := hfull₁.appendBytes (literals.take 1)
  refine ⟨w', ?_, by rwa [← List.append_assoc]⟩
  simp only [rleLiterals, hw₁, hw', Option.bind_eq_bind, Option.bind_some]

/-- What stands behind the header of a compressed section: a description, or nothing in its
place, and one stream, or four behind the sizes of the first three. -/
inductive CompressedBody (literals : List UInt8) : List UInt8 → Prop where
  | one (description stream : List UInt8) (short : literals.length < 256) :
    CompressedBody literals (description ++ stream)
  | four (description s1 s2 s3 s4 : List UInt8) (long : 256 ≤ literals.length)
    (fits : s1.length < 2 ^ 16 ∧ s2.length < 2 ^ 16 ∧ s3.length < 2 ^ 16) :
    CompressedBody literals (description ++ (toLeBytes 2 s1.length ++ toLeBytes 2 s2.length ++
      toLeBytes 2 s3.length) ++ (s1 ++ s2 ++ s3 ++ s4))

/-- The bytes of the streams and their sizes. -/
def payloadBytes (t : HuffmanTable) (literals : List UInt8) : Nat :=
  if literals.length < 256 then streamBytes (t.bitsOf literals)
  else
    6 + (t.quarterBytes literals 0 + t.quarterBytes literals 1 + t.quarterBytes literals 2 +
      t.quarterBytes literals 3)

theorem payloadBytes_pos (t : HuffmanTable) (literals : List UInt8) :
    0 < payloadBytes t literals := by
  unfold payloadBytes
  split
  · rw [streamBytes_eq]
    omega
  · omega

variable {t : HuffmanTable} {newTable : Option FSETable} {descSize : Nat}

theorem encode_body (h : t.Sound) (hdata : t.Encodes literals)
    (hlen : literals.length ≤ 128 * 1024) (hdesc : t.Described newTable descSize)
    (hw : w.Full bytes) {format : Nat} (hformat : format = 0 ↔ literals.length < 256) :
    ∃ w' body, (if format = 0 then t.encode literals newTable w
        else t.encode4x literals newTable w) = some w' ∧ w'.Full (bytes ++ body) ∧
      body.length = descSize + payloadBytes t literals ∧ CompressedBody literals body := by
  by_cases hshort : literals.length < 256
  · obtain ⟨w', description, stream, hw', hfull, hd, hs, -⟩ := h.encode hdata hdesc hw
    refine ⟨w', description ++ stream, ?_, hfull, ?_, .one description stream hshort⟩
    · rw [if_pos (hformat.mpr hshort), hw']
    · rw [List.length_append, hd, hs, payloadBytes, if_pos hshort, streamBytes_eq]
  · obtain ⟨w', description, s1, s2, s3, s4, hw', hfull, hd, ⟨-, h1⟩, ⟨-, h2⟩, ⟨-, h3⟩, ⟨-, h4⟩⟩ :=
      h.encode4x hdata (by omega) (fun _ => h.quarterBytes_lt hlen) hdesc hw
    refine ⟨w', _, ?_, hfull, ?_, .four description s1 s2 s3 s4 (Nat.le_of_not_lt hshort) ?_⟩
    · rw [if_neg (mt hformat.mp hshort), hw']
    · simp only [List.length_append, toLeBytes_length, hd, h1, h2, h3, h4, payloadBytes,
        if_neg hshort]
      omega
    · rw [h1, h2, h3]
      exact ⟨h.quarterBytes_lt hlen (by decide), h.quarterBytes_lt hlen (by decide),
        h.quarterBytes_lt hlen (by decide)⟩

/-- The size format of so many literals, and the width it gives the two sizes of the header. -/
structure SizeFormat (literalsLen format sizeBits : Nat) : Prop where
  eq : sizeFormat literalsLen = (format, sizeBits)
  one_stream : format = 0 ↔ literalsLen < 256
  format_lt : format < 4
  bits_ge : 8 ≤ sizeBits
  bits_le : sizeBits ≤ 18
  fits : literalsLen < 2 ^ sizeBits
  header_bits : 4 + sizeBits + sizeBits = 8 * compressedLiteralsHeaderBytes literalsLen

variable {sectionType literalsLen format sizeBits : Nat}

theorem exists_sizeFormat (h : literalsLen < 2 ^ 18) :
    ∃ format sizeBits, SizeFormat literalsLen format sizeBits := by
  rcases sizeFormat_cases h with ⟨hf, hb, hl⟩ | ⟨hf, hb, hl, hl'⟩ | ⟨hf, hb, hl, hl'⟩ |
    ⟨hf, hb, hl, hl'⟩
  all_goals
    refine ⟨_, _, hf, ?_, ?_, ?_, ?_, ?_, by rw [hb]⟩
    all_goals omega

theorem SizeFormat.keptHeader_eq (h : SizeFormat literalsLen format sizeBits) (compressedLen : Nat) :
    keptHeader sectionType literalsLen compressedLen =
      toLeBytes (compressedLiteralsHeaderBytes literalsLen) (sectionType + format * 4 +
        literalsLen * 16 + compressedLen * 2 ^ (4 + sizeBits)) := by
  rw [keptHeader, h.eq]

/-- Before the size of the body is known, only the bits below it are set. -/
theorem SizeFormat.le_keptHeader (h : SizeFormat literalsLen format sizeBits)
    (hkind : sectionType < 4) :
    le (keptHeader sectionType literalsLen 0) = sectionType + format * 4 + literalsLen * 16 ∧
      sectionType + format * 4 + literalsLen * 16 < 2 ^ (4 + sizeBits) := by
  have hformat := h.format_lt
  have hfits := h.fits
  have hvalue : sectionType + format * 4 + literalsLen * 16 < 2 ^ (4 + sizeBits) := by
    rw [Nat.pow_add]
    omega
  refine ⟨?_, hvalue⟩
  rw [h.keptHeader_eq, Nat.zero_mul, Nat.add_zero, le_toLeBytes, ← h.header_bits, Nat.mod_eq_of_lt]
  exact hvalue.trans_le (Nat.pow_le_pow_right (by decide) (Nat.le_add_right _ _))

/-- The four fields of the header, with no bits set in the size of the body. -/
theorem SizeFormat.blankHeader (h : SizeFormat literalsLen format sizeBits)
    (hkind : sectionType < 4) (hw : w.Full bytes) :
    ∃ w₁ w₂ w₃ w₄, w.writeBits sectionType 2 = some w₁ ∧ w₁.writeBits format 2 = some w₂ ∧
      w₂.writeBits literalsLen sizeBits = some w₃ ∧ w₃.writeBits 0 sizeBits = some w₄ ∧
      w₃.index = 8 * bytes.length + (4 + sizeBits) ∧
      w₄.Full (bytes ++ keptHeader sectionType literalsLen 0) := by
  have hhigh := h.bits_le
  obtain ⟨w₁, hw₁, hst₁⟩ := w.writeBits_spec (show sectionType < 2 ^ 2 from hkind) (by decide)
  obtain ⟨w₂, hw₂, hst₂⟩ := w₁.writeBits_spec (show format < 2 ^ 2 from h.format_lt) (by decide)
  obtain ⟨w₃, hw₃, hst₃⟩ := w₂.writeBits_spec h.fits (by omega)
  obtain ⟨w₄, hw₄, hst₄⟩ := w₃.writeBits_spec (Nat.two_pow_pos sizeBits) (by omega)
  refine ⟨w₁, w₂, w₃, w₄, hw₁, hw₂, hw₃, hw₄, ?_, ?_⟩
  · rw [BitWriter.index_eq, hst₃, hst₂, hst₁, hw]
    simp only [Stack.push_len, Stack.ofBytes_len]
    omega
  · have hfields : w.Writes [(sectionType, 2), (format, 2), (literalsLen, sizeBits),
        (0, sizeBits)] (some w₄) := by
      refine ⟨w₄, rfl, ?_⟩
      rw [hst₄, hst₃, hst₂, hst₁]
      simp only [Stack.pushAll_cons, Stack.pushAll_nil]
    obtain ⟨w', hw', hfull⟩ := full_fields hw hfields
      (k := compressedLiteralsHeaderBytes literalsLen)
      (v := sectionType + format * 4 + literalsLen * 16)
      (by
        rw [← h.header_bits]
        simp only [List.map_cons, List.map_nil, List.sum_cons, List.sum_nil]
        omega)
      (by
        simp [Stack.push_value, Nat.mod_eq_of_lt h.fits, Nat.mod_eq_of_lt hkind,
          Nat.mod_eq_of_lt h.format_lt])
    cases hw'
    rwa [h.keptHeader_eq, Nat.zero_mul, Nat.add_zero]

/-- The size of the body put into the header before it, where it fits. -/
theorem SizeFormat.patchedHeader (h : SizeFormat literalsLen format sizeBits)
    (hkind : sectionType < 4) {body : List UInt8} (hne : body ≠ [])
    (hw : w.Full (bytes ++ keptHeader sectionType literalsLen 0 ++ body)) :
    ∃ patched, w.changeBits (8 * bytes.length + (4 + sizeBits)) body.length sizeBits =
        some (.ofOutput (bytes ++ patched ++ body)) ∧
      patched.length = compressedLiteralsHeaderBytes literalsLen ∧
      (body.length < 2 ^ sizeBits →
        patched = keptHeader sectionType literalsLen body.length) := by
  obtain ⟨hle, hvalue⟩ := h.le_keptHeader hkind
  have hlength := keptHeader_length sectionType literalsLen 0
  obtain ⟨patched, hpatch, hpatchlen, hpatchval⟩ := hw.changeBits body.length
    (hlength ▸ h.header_bits) h.bits_ge (hle ▸ hvalue) hne
  rw [hlength] at hpatchlen
  refine ⟨patched, hpatch, hpatchlen, ?_⟩
  intro hsmall
  have hval := hpatchval hsmall
  rw [hle] at hval
  rw [h.keptHeader_eq]
  apply BitWriter.eq_toLeBytes hpatchlen hval
  have hroom := Nat.mul_le_mul_right (2 ^ (4 + sizeBits))
    (show body.length + 1 ≤ 2 ^ sizeBits from hsmall)
  rw [Nat.add_one_mul] at hroom
  rw [← h.header_bits, Nat.pow_add 2 (4 + sizeBits), Nat.mul_comm (2 ^ (4 + sizeBits))]
  omega

/-- The section taken back, and the literals written raw in its place. -/
theorem rawFallback_spec (hlen : literals.length < 2 ^ 20) (hw : w.Full bytes)
    (written : List UInt8) :
    ∃ w', (((BitWriter.ofOutput (bytes ++ written)).resetTo w.index).bind fun w =>
        (rawLiterals literals w).bind fun w => some (false, w)) = some (false, w') ∧
      w'.Full (bytes ++ (plainHeader 0 literals.length ++ literals)) := by
  obtain ⟨w', hw', hfull⟩ := rawLiterals_spec hlen (BitWriter.full_ofOutput bytes)
  refine ⟨w', ?_, hfull⟩
  rw [hw.index_eq, BitWriter.resetTo_ofOutput, Option.bind_some, hw', Option.bind_some]

/-- A section compressed into a body of `size` bytes: kept it has just the body's size in its
header, and one that gains too little is written raw in its place. -/
theorem emitCompressedLiterals_body {Q : List UInt8 → Prop} {size : Nat} (hpos : 0 < size)
    (hbody : ∀ (w : BitWriter) (bytes : List UInt8) (format : Nat), w.Full bytes →
      (format = 0 ↔ literals.length < 256) →
        ∃ w' body, (if format = 0 then t.encode literals newTable w
            else t.encode4x literals newTable w) = some w' ∧ w'.Full (bytes ++ body) ∧
          body.length = size ∧ Q body)
    (hlen : literals.length ≤ 128 * 1024) (hw : w.Full bytes) (strategy : StrategyTag) :
    ∃ w', (if useRawLiteralFallback size literals.length strategy then
        emitCompressedLiterals literals t newTable w w.index strategy = some (false, w') ∧
          w'.Full (bytes ++ (plainHeader 0 literals.length ++ literals))
      else
        ∃ body, emitCompressedLiterals literals t newTable w w.index strategy = some (true, w') ∧
          w'.Full (bytes ++ (keptHeader (if newTable.isSome then 2 else 3) literals.length
            body.length ++ body)) ∧ body.length = size ∧ Q body) := by
  generalize hkind : (if newTable.isSome then 2 else 3 : Nat) = sectionType
  have hkind4 : sectionType < 4 := by
    rw [← hkind]
    split <;> decide
  obtain ⟨format, sizeBits, hformat⟩ :=
    exists_sizeFormat (show literals.length < 2 ^ 18 by omega)
  obtain ⟨w₁, w₂, w₃, w₄, hw₁, hw₂, hw₃, hw₄, hindex, hblank⟩ := hformat.blankHeader hkind4 hw
  obtain ⟨w₅, body, hw₅, hfull₅, rfl, hform⟩ := hbody w₄ _ format hblank hformat.one_stream
  obtain ⟨patched, hpatch, hpatchlen, hkept⟩ :=
    hformat.patchedHeader hkind4 (List.ne_nil_of_length_pos hpos) hfull₅
  have hencoded : (w₅.index - w₄.index) / 8 = body.length := by
    rw [hfull₅.index_eq, hblank.index_eq]
    simp only [List.length_append]
    omega
  have hsection : ((BitWriter.ofOutput (bytes ++ patched ++ body)).index - w.index) / 8 -
      compressedLiteralsHeaderBytes literals.length = body.length := by
    rw [(BitWriter.full_ofOutput _).index_eq, hw.index_eq]
    simp only [List.length_append, hpatchlen]
    omega
  have hlong : ¬262143 < literals.length := by omega
  have hemit : emitCompressedLiterals literals t newTable w w.index strategy =
      if useRawLiteralFallback body.length literals.length strategy then
        ((BitWriter.ofOutput (bytes ++ patched ++ body)).resetTo w.index).bind fun w =>
          (rawLiterals literals w).bind fun w => some (false, w)
      else some (true, BitWriter.ofOutput (bytes ++ patched ++ body)) := by
    simp only [emitCompressedLiterals, hkind, hw₁, hw₂, hw₃, hw₄, hformat.eq, if_neg hlong,
      Option.bind_eq_bind, Option.bind_some, hindex]
    by_cases h0 : format = 0
    · rw [if_pos h0] at hw₅
      simp only [if_pos h0, hw₅, Option.bind_some, hencoded, hpatch, hsection]
    · rw [if_neg h0] at hw₅
      simp only [if_neg h0, hw₅, Option.bind_some, hencoded, hpatch, hsection]
  rw [hemit]
  split
  · obtain ⟨w', hw', hfull⟩ := rawFallback_spec (show literals.length < 2 ^ 20 by omega) hw
      (patched ++ body)
    rw [← List.append_assoc] at hw'
    exact ⟨w', hw', hfull⟩
  · rename_i hkeep
    refine ⟨_, body, rfl, ?_, rfl, hform⟩
    have hsmall : body.length < 2 ^ sizeBits := by
      have hfits := hformat.fits
      rw [useRawLiteralFallback, decide_eq_true_eq, not_le] at hkeep
      omega
    rw [← hkept hsmall, ← List.append_assoc]
    exact BitWriter.full_ofOutput _

/-- A section compressed with a sound table, its description `descSize` bytes long. -/
theorem emitCompressedLiterals_spec (h : t.Sound) (hdata : t.Encodes literals)
    (hlen : literals.length ≤ 128 * 1024) (hdesc : t.Described newTable descSize)
    (hw : w.Full bytes) (strategy : StrategyTag) :
    ∃ w', (if useRawLiteralFallback (descSize + payloadBytes t literals) literals.length strategy
      then
        emitCompressedLiterals literals t newTable w w.index strategy = some (false, w') ∧
          w'.Full (bytes ++ (plainHeader 0 literals.length ++ literals))
      else
        ∃ body, emitCompressedLiterals literals t newTable w w.index strategy = some (true, w') ∧
          w'.Full (bytes ++ (keptHeader (if newTable.isSome then 2 else 3) literals.length
            body.length ++ body)) ∧
          body.length = descSize + payloadBytes t literals ∧ CompressedBody literals body) :=
  emitCompressedLiterals_body (Nat.add_pos_right _ (payloadBytes_pos t literals))
    (fun _ _ _ hw hformat => encode_body h hdata hlen hdesc hw hformat) hlen hw strategy

end Encoding
