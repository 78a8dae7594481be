import StructuredZstd.Decoding.Dictionary
import StructuredZstd.Fse.HeaderRead
import StructuredZstd.Huff0.TableInverse

namespace Decoding

open Bits Fse Fse.Decoder Huff0.Decoder

/-- The outcome of a parse that may also panic. -/
inductive Outcome (α : Type) where
  | panic
  | error (e : DictionaryDecodeError)
  | ok (a : α)
deriving Repr, DecidableEq

namespace Outcome

variable {α β : Type}

def bind : Outcome α → (α → Outcome β) → Outcome β
  | panic, _ => panic
  | error e, _ => error e
  | ok a, f => f a

instance : Monad Outcome where
  pure := ok
  bind := bind

@[simp] theorem ok_bind (a : α) (f : α → Outcome β) : (ok a >>= f) = f a := rfl

def ofExcept : Except DictionaryDecodeError α → Outcome α
  | .error e => error e
  | .ok a => ok a

theorem ofExcept_bind (x : Except DictionaryDecodeError α) (f : α → Except DictionaryDecodeError β) :
    ofExcept (x >>= f) = ofExcept x >>= fun a => ofExcept (f a) := by
  cases x with
  | error e => rfl
  | ok a => rfl

/-- Two outcomes that are one error, or two values related by `r`. Neither is a panic. -/
inductive Agree (r : α → β → Prop) : Outcome α → Outcome β → Prop where
  | error (e : DictionaryDecodeError) : Agree r (.error e) (.error e)
  | ok {a : α} {b : β} : r a b → Agree r (.ok a) (.ok b)

variable {γ δ : Type} {r : α → β → Prop} {q : γ → δ → Prop}

theorem Agree.bind {x : Outcome α} {y : Outcome β} {f : α → Outcome γ} {g : β → Outcome δ}
    (h : Agree r x y) (hf : ∀ a b, r a b → Agree q (f a) (g b)) : Agree q (x >>= f) (y >>= g) := by
  cases h with
  | error e => exact .error e
  | ok hab => exact hf _ _ hab

theorem Agree.eq {x y : Outcome α} (h : Agree (· = ·) x y) : x = y := by
  cases h with
  | error e => rfl
  | ok hab => rw [hab]

end Outcome

namespace Dictionary

/-- `&raw[n..]`. -/
def sliceFrom (raw : List UInt8) (n : Nat) : Outcome (List UInt8) :=
  if n ≤ raw.length then .ok (raw.drop n) else .panic

/-- The assertions on the way to the Huffman table: those of the table its weights are coded
with, and those of the fill when the decode table is wanted. -/
def hufAsserts (buildDecodeTables : Bool) (raw : List UInt8) : Bool :=
  (match raw with
    | [] => true
    | header :: rest => 127 < header.toNat ∨ rest.length < header.toNat ∨
      HuffmanTable.new.fseTable.buildAsserts rest 6) &&
  match HuffmanTable.new.readWeights raw with
  | (.error _, _) => true
  | (.ok _, t) => !buildDecodeTables || t.fillAsserts

/-- The Huffman table, or only its code lengths. -/
def readHuf (buildDecodeTables : Bool) (raw : List UInt8) : Outcome (HuffmanScratch × Nat) :=
  if hufAsserts buildDecodeTables raw then
    match if buildDecodeTables then HuffmanTable.new.buildDecoder raw
      else HuffmanTable.new.buildWeightsOnly raw with
    | (.error e, _) => .error (.huffmanTableError e)
    | (.ok n, table) => .ok ({ HuffmanScratch.new with table := table }, n)
  else .panic

/-- A sequence table, or only its probabilities. -/
def readFse (buildDecodeTables : Bool) (t : SeqFSETable) (raw : List UInt8) (maxLog : Nat) :
    Outcome (SeqFSETable × Nat) :=
  if !buildDecodeTables || t.buildAsserts raw maxLog then
    match if buildDecodeTables then t.buildDecoder raw maxLog
      else t.readTableProbabilities raw maxLog with
    | (.error e, _) => .error (.fseTableError e)
    | (.ok n, table) => .ok (table, n)
  else .panic

/-- The parser both entry points share. -/
def decodeDictInner (raw : List UInt8) (buildDecodeTables : Bool) : Outcome Dictionary :=
  if raw.length < 8 then .error (.dictionaryTooSmall raw.length 8)
  else if raw.take 4 ≠ magicNum then .error (.badMagicNum (raw.take 4))
  else
    let id := le ((raw.drop 4).take 4)
    if id = 0 then .error .zeroDictionaryId
    else do
      let raw ← sliceFrom raw 8
      let (huf, hufSize) ← readHuf buildDecodeTables raw
      let raw ← sliceFrom raw hufSize
      let (offsets, ofSize) ← readFse buildDecodeTables FSEScratch.new.offsets raw ofMaxLog
      let offsets := if buildDecodeTables then offsets.enrichForOffsets else offsets
      let offsetsLongShare :=
        if buildDecodeTables then computeOffsetsLongShare offsets else FSEScratch.new.offsetsLongShare
      let raw ← sliceFrom raw ofSize
      let (matchLengths, mlSize) ← readFse buildDecodeTables FSEScratch.new.matchLengths raw mlMaxLog
      let matchLengths :=
        if buildDecodeTables then matchLengths.enrichWithPackedSeqMeta mlMeta else matchLengths
      let raw ← sliceFrom raw mlSize
      let (literalLengths, llSize) ←
        readFse buildDecodeTables FSEScratch.new.literalLengths raw llMaxLog
      let literalLengths :=
        if buildDecodeTables then literalLengths.enrichWithPackedSeqMeta llMeta else literalLengths
      let raw ← sliceFrom raw llSize
      let hist ← Outcome.ofExcept (readOffsetHist raw)
      let dictContent ← sliceFrom raw 12
      return {
        id := id
        fse := { FSEScratch.new with
          offsets := offsets
          offsetsLongShare := offsetsLongShare
          matchLengths := matchLengths
          literalLengths := literalLengths }
        huf := huf
        dictContent := dictContent
        offsetHist := hist }

/-- The view of the encoder: no decode tables. -/
def decodeDictForEncoding (raw : List UInt8) : Outcome Dictionary := decodeDictInner raw false

open Outcome

theorem hufAsserts_true (buildDecodeTables : Bool) (raw : List UInt8) :
    hufAsserts buildDecodeTables raw = true := by
  unfold hufAsserts
  rw [Bool.and_eq_true]
  constructor
  · cases raw with
    | nil => rfl
    | cons header rest =>
      have hbuild := (header_reads HuffmanTable.new.fseTable rest (show 6 ≤ 9 by decide)
        (by decide) (by decide)).1
      exact decide_eq_true (.inr (.inr hbuild))
  · cases hr : HuffmanTable.new.readWeights raw with
    | mk result t =>
      cases result with
      | error e => rfl
      | ok n =>
        have hfill := HuffmanTable.fillAsserts_of_sound (HuffmanTable.readWeights_ok hr)
        simp only [hfill, Bool.or_true]

/-- What the two reads of the Huffman table share. -/
structure HufRead (raw : List UInt8) (dec enc : HuffmanScratch × Nat) : Prop where
  size_eq : dec.2 = enc.2
  size_le : dec.2 ≤ raw.length
  completed : enc.1.table.Completed
  tableOf : Huff0.Decoder.TableOf enc.1.table.bits enc.1.table.maxNumBits dec.1.table

theorem readHuf_agree (raw : List UInt8) :
    Agree (HufRead raw) (readHuf true raw) (readHuf false raw) := by
  unfold readHuf
  simp only [hufAsserts_true, if_true, Bool.false_eq_true, if_false]
  rcases HuffmanTable.description_builds .new raw with ⟨e, h1, h2⟩ | ⟨n, hn, h1, h2, hc, ht⟩
  · cases hd : HuffmanTable.new.buildDecoder raw with
    | mk _ _ => cases hw : HuffmanTable.new.buildWeightsOnly raw with
      | mk _ _ =>
        rw [hd] at h1
        rw [hw] at h2
        cases h1
        cases h2
        exact .error _
  · cases hd : HuffmanTable.new.buildDecoder raw with
    | mk _ _ => cases hw : HuffmanTable.new.buildWeightsOnly raw with
      | mk _ _ =>
        rw [hd] at h1 ht
        rw [hw] at h2 hc ht
        cases h1
        cases h2
        exact .ok ⟨rfl, hn, hc, ht⟩

/-- What the two reads of a sequence table share. -/
structure FseRead (raw : List UInt8) (dec enc : SeqFSETable × Nat) : Prop where
  size_eq : dec.2 = enc.2
  size_le : dec.2 ≤ raw.length
  tables : ∃ d : Distribution, dec.1.Names d ∧ enc.1.Names d ∧
    Fse.Decoder.TableOf d .none dec.1 ∧ dec.1.symbolSpreadBuffer = d.slots

theorem readFse_agree (t : SeqFSETable) (raw : List UInt8) {maxLog : Nat} (hmax : maxLog ≤ 9)
    (hsym : t.maxSymbol ≤ 255) :
    Agree (FseRead raw) (readFse true t raw maxLog) (readFse false t raw maxLog) := by
  have hcap : 2 ^ maxLog ≤ 512 := Nat.pow_le_pow_right (by decide) hmax
  obtain ⟨hassert, hreads⟩ := header_reads t raw hmax hcap hsym
  unfold readFse
  simp only [hassert, Bool.or_true, if_true, Bool.false_eq_true, if_false]
  rcases hreads with ⟨e, h1, h2⟩ | ⟨n, d, hn, h1, h2, henc, hdec, htable, hspread⟩
  · cases hd : t.buildDecoder raw maxLog with
    | mk _ _ => cases hw : t.readTableProbabilities raw maxLog with
      | mk _ _ =>
        rw [hd] at h1
        rw [hw] at h2
        cases h1
        cases h2
        exact .error _
  · cases hd : t.buildDecoder raw maxLog with
    | mk _ _ => cases hw : t.readTableProbabilities raw maxLog with
      | mk _ _ =>
        rw [hd] at h1 hdec htable hspread
        rw [hw] at h2 henc
        cases h1
        cases h2
        exact .ok ⟨rfl, hn, d, hdec, henc, htable, hspread⟩

theorem sliceFrom_agree {raw : List UInt8} {n m : Nat} (hnm : n = m) (hn : n ≤ raw.length) :
    Agree (· = ·) (sliceFrom raw n) (sliceFrom raw m) := by
  subst hnm
  rw [sliceFrom, if_pos hn]
  exact .ok rfl

/-- The offset history is there before the content is cut off behind it. -/
theorem readOffsetHist_agree (raw : List UInt8) :
    Agree (fun a b => a = b ∧ 12 ≤ raw.length) (ofExcept (readOffsetHist raw))
      (ofExcept (readOffsetHist raw)) := by
  cases hr : readOffsetHist raw with
  | error e => exact .error e
  | ok hist =>
    refine .ok ⟨rfl, ?_⟩
    rw [readOffsetHist] at hr
    split at hr
    · cases hr
    · rename_i h
      exact Nat.le_of_not_lt h

theorem readHuf_true (raw : List UInt8) :
    Agree (fun a b => a = b ∧ a.2 ≤ raw.length) (readHuf true raw) (ofExcept (buildHuf raw)) := by
  have heq : readHuf true raw = ofExcept (buildHuf raw) := by
    simp only [readHuf, hufAsserts_true, if_true, buildHuf]
    cases HuffmanTable.new.buildDecoder raw with
    | mk result table =>
      cases result with
      | error e => rfl
      | ok n => rfl
  have hagree := readHuf_agree raw
  rw [← heq]
  generalize readHuf true raw = x, readHuf false raw = y at hagree
  cases hagree with
  | error e => exact .error e
  | ok h => exact .ok ⟨rfl, h.size_le⟩

theorem readFse_true (t : SeqFSETable) (raw : List UInt8) {maxLog : Nat} (hmax : maxLog ≤ 9)
    (hsym : t.maxSymbol ≤ 255) :
    Agree (fun a b => a = b ∧ a.2 ≤ raw.length) (readFse true t raw maxLog)
      (ofExcept (buildFse t raw maxLog)) := by
  have hcap : 2 ^ maxLog ≤ 512 := Nat.pow_le_pow_right (by decide) hmax
  have hassert := (header_reads t raw hmax hcap hsym).1
  have heq : readFse true t raw maxLog = ofExcept (buildFse t raw maxLog) := by
    simp only [readFse, hassert, Bool.or_true, if_true, buildFse]
    cases t.buildDecoder raw maxLog with
    | mk result table =>
      cases result with
      | error e => rfl
      | ok n => rfl
  have hagree := readFse_agree t raw hmax hsym
  rw [← heq]
  generalize readFse true t raw maxLog = x, readFse false t raw maxLog = y at hagree
  cases hagree with
  | error e => exact .error e
  | ok h => exact .ok ⟨rfl, h.size_le⟩

theorem sliceFrom_of_le {raw : List UInt8} {n : Nat} (h : n ≤ raw.length) :
    sliceFrom raw n = .ok (raw.drop n) := by
  rw [sliceFrom, if_pos h]

/-- The two views of one sequence table, and that what is built from them is inverse. -/
structure SeqViews (seqMeta : SeqMeta) (dec enc : SeqFSETable) : Prop where
  probs_eq : enc.symbolProbabilities = dec.symbolProbabilities
  log_eq : enc.accuracyLog = dec.accuracyLog
  inverse : ∃ table, enc.toEncoderTable = some (some table) ∧
    dec.toEncoderTable = some (some table) ∧
    Fse.Decoder.Inverse dec.symbolProbabilities dec.accuracyLog seqMeta.meaning table dec

/-- The two views of the Huffman table. -/
structure HufViews (dec enc : HuffmanTable) : Prop where
  bits_eq : enc.bits = dec.bits
  log_eq : enc.maxNumBits = dec.maxNumBits
  inverse : ∃ table, enc.toEncoderTable = some (some table) ∧
    dec.toEncoderTable = some (some table) ∧ Huff0.Decoder.Inverse table dec

/-- The two views of one dictionary. -/
structure Views (dec enc : Dictionary) : Prop where
  id_eq : enc.id = dec.id
  huf : HufViews dec.huf.table enc.huf.table
  offsets : SeqViews .offsets dec.fse.offsets enc.fse.offsets
  matchLengths : SeqViews (.packed mlMeta) dec.fse.matchLengths enc.fse.matchLengths
  literalLengths : SeqViews (.packed llMeta) dec.fse.literalLengths enc.fse.literalLengths
  hist_eq : enc.offsetHist = dec.offsetHist
  content_eq : enc.dictContent = dec.dictContent

theorem HufRead.views {raw : List UInt8} {dec enc : HuffmanScratch × Nat}
    (h : HufRead raw dec enc) : HufViews dec.1.table enc.1.table := by
  have hbits := h.tableOf.bits_eq
  have hlog := h.tableOf.log_eq
  obtain ⟨table, htable, hof⟩ := h.completed.toEncoderTable
  refine ⟨hbits.symm, hlog.symm, table, htable, ?_, ?_⟩
  · rw [HuffmanTable.toEncoderTable, hbits, hlog]
    exact htable
  · exact Huff0.Decoder.inverse_of_tables h.completed.complete h.completed.length_le hof h.tableOf

/-- Enrichment keeps what the encoder reads and completes what the decoder reads. -/
theorem SeqViews.of_read {d : Distribution} {seqMeta : SeqMeta} {dec enc : SeqFSETable}
    (hdec : dec.Names d) (henc : enc.Names d) (ht : Fse.Decoder.TableOf d seqMeta dec) :
    SeqViews seqMeta dec enc := by
  obtain ⟨table, htable, hof⟩ := henc.toEncoderTable
  refine ⟨?_, ?_, table, htable, ?_, ?_⟩
  · rw [henc.probs_eq, hdec.probs_eq]
  · rw [henc.log_eq, hdec.log_eq]
  · rw [FSETableImpl.toEncoderTable, hdec.probs_eq, hdec.log_eq, ← henc.probs_eq, ← henc.log_eq]
    exact htable
  · rw [hdec.probs_eq, hdec.log_eq]
    exact Fse.Decoder.inverse_of_tables hof ht

theorem FseRead.offsets {raw : List UInt8} {dec enc : SeqFSETable × Nat}
    (h : FseRead raw dec enc) : SeqViews .offsets dec.1.enrichForOffsets enc.1 := by
  obtain ⟨d, hdec, henc, ht, hspread⟩ := h.tables
  exact .of_read ⟨hdec.probs_eq, hdec.log_eq⟩ henc (ht.enrichForOffsets hspread)

theorem FseRead.packed {raw : List UInt8} {dec enc : SeqFSETable × Nat}
    (h : FseRead raw dec enc) (packed : List Nat) :
    SeqViews (.packed packed) (dec.1.enrichWithPackedSeqMeta packed) enc.1 := by
  obtain ⟨d, hdec, henc, ht, hspread⟩ := h.tables
  exact .of_read ⟨hdec.probs_eq, hdec.log_eq⟩ henc (ht.enrichWithPackedSeqMeta hspread packed)

/-- The two runs of the shared parser stay together. -/
theorem decodeDictInner_agree (raw : List UInt8) :
    Agree Views (decodeDictInner raw true) (decodeDictInner raw false) := by
  unfold decodeDictInner
  split
  · exact .error _
  · rename_i hlen
    split
    · exact .error _
    · dsimp only
      split
      · exact .error _
      · refine (sliceFrom_agree rfl (by omega)).bind ?_
        rintro raw _ rfl
        refine (readHuf_agree raw).bind ?_
        rintro huf huf' hhuf
        refine (sliceFrom_agree hhuf.size_eq hhuf.size_le).bind ?_
        rintro raw _ rfl
        refine (readFse_agree _ raw (by decide) (by decide)).bind ?_
        rintro offsets offsets' hof
        refine (sliceFrom_agree hof.size_eq hof.size_le).bind ?_
        rintro raw _ rfl
        refine (readFse_agree _ raw (by decide) (by decide)).bind ?_
        rintro matchLengths matchLengths' hml
        refine (sliceFrom_agree hml.size_eq hml.size_le).bind ?_
        rintro raw _ rfl
        refine (readFse_agree _ raw (by decide) (by decide)).bind ?_
        rintro literalLengths literalLengths' hll
        refine (sliceFrom_agree hll.size_eq hll.size_le).bind ?_
        rintro raw _ rfl
        refine (readOffsetHist_agree raw).bind ?_
        rintro hist _ ⟨rfl, h12⟩
        refine (sliceFrom_agree rfl h12).bind ?_
        rintro content _ rfl
        exact .ok ⟨rfl, hhuf.views, hof.offsets, hml.packed mlMeta, hll.packed llMeta, rfl, rfl⟩

/-- The parse with decode tables is the parse the decoder makes: none of its slices panics. -/
theorem decodeDictInner_true (raw : List UInt8) :
    decodeDictInner raw true = ofExcept (decodeDict raw) := by
  apply Agree.eq
  unfold decodeDictInner decodeDict
  split
  · exact .error _
  · rename_i hlen
    split
    · exact .error _
    · dsimp only
      split
      · exact .error _
      · rw [sliceFrom_of_le (by omega), ok_bind]
        simp only [decodeTables, ofExcept_bind, if_true]
        refine (readHuf_true _).bind ?_
        rintro huf _ ⟨rfl, hhuf⟩
        rw [sliceFrom_of_le hhuf, ok_bind]
        refine (readFse_true _ _ (by decide) (by decide)).bind ?_
        rintro offsets _ ⟨rfl, hof⟩
        rw [sliceFrom_of_le hof, ok_bind]
        refine (readFse_true _ _ (by decide) (by decide)).bind ?_
        rintro matchLengths _ ⟨rfl, hml⟩
        rw [sliceFrom_of_le hml, ok_bind]
        refine (readFse_true _ _ (by decide) (by decide)).bind ?_
        rintro literalLengths _ ⟨rfl, hll⟩
        rw [sliceFrom_of_le hll, ok_bind]
        refine (readOffsetHist_agree _).bind ?_
        rintro hist _ ⟨rfl, h12⟩
        rw [sliceFrom_of_le h12, ok_bind]
        exact .ok rfl

/-- Every byte string is rejected by both parsers with one error or accepted by both, and the
views agree. -/
theorem dictionary_views_agree (raw : List UInt8) :
    decodeDictInner raw true = ofExcept (decodeDict raw) ∧
      ((∃ e, decodeDict raw = .error e ∧ decodeDictForEncoding raw = .error e) ∨
        ∃ dec enc, decodeDict raw = .ok dec ∧ decodeDictForEncoding raw = .ok enc ∧
          Views dec enc) := by
  have hdec := decodeDictInner_true raw
  have hagree := decodeDictInner_agree raw
  refine ⟨hdec, ?_⟩
  rw [hdec] at hagree
  rw [decodeDictForEncoding]
  cases hd : decodeDict raw with
  | error e =>
    rw [hd, Outcome.ofExcept] at hagree
    generalize decodeDictInner raw false = out at hagree
    cases hagree
    exact .inl ⟨e, rfl, rfl⟩
  | ok dec =>
    rw [hd, Outcome.ofExcept] at hagree
    generalize decodeDictInner raw false = out at hagree
    cases hagree with
    | ok hviews => exact .inr ⟨dec, _, rfl, rfl, hviews⟩

end Dictionary

end Decoding
