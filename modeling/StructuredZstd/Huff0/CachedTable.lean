import StructuredZstd.Huff0.TableCoverage
import StructuredZstd.Huff0.WeightDescription

namespace Huff0.Encoder

open BitIo
open Fse.Encoder (FSETable buildTableFromCountsInto encodeInterleaved)

inductive DescriptionState where
  | notComputed
  | notEncodable
  | encoded (len : Nat)
deriving Repr, DecidableEq

/-- The FSE form of a table's weights, kept with the table. -/
structure WeightDescription where
  buf : List UInt8 := []
  state : DescriptionState := .notComputed
deriving Repr, DecidableEq

namespace WeightDescription

def clone (d : WeightDescription) : WeightDescription :=
  match d.state with
  | .encoded _ => { buf := d.buf, state := d.state }
  | _ => { buf := [], state := d.state }

/-- Overwrite a description; only bytes a reader looks at are copied. -/
def cloneFrom (_d source : WeightDescription) : WeightDescription :=
  match source.state with
  | .encoded _ => { buf := source.buf, state := source.state }
  | _ => { buf := [], state := source.state }

end WeightDescription

/-- Encode the weights into a buffer: whether the FSE form is the one to emit, and the bytes left
in the buffer, which a rejection leaves behind as well. -/
def encodeWeightDescriptionInto (weights : List Nat) (fseTable : FSETable) :
    Option (Bool × List UInt8) :=
  if weights.length ≤ 2 then some (false, [])
  else
    let counts := (List.range 13).map (weights.count ·)
    let maxCount := counts.foldl max 0
    if maxCount = weights.length ∨ maxCount ≤ 1 then some (false, [])
    else do
      let table ← buildTableFromCountsInto counts 6 false fseTable
      let w ← encodeInterleaved table weights (.ofOutput [])
      let w ← w.flush
      let length := w.output.length
      if 1 < length ∧ (length < weights.length / 2 ∨ 128 < weights.length) then
        if 128 ≤ length then some (false, w.output) else some (true, w.output)
      else some (false, w.output)

/-- The encoder table with the description that std builds keep beside it. -/
structure CachedTable where
  table : HuffmanTable
  description : WeightDescription

namespace CachedTable

/-- Build over a discarded table: its description is marked stale and its bytes stay. -/
def buildFromWeightsReusing (weights : List Nat) (spare : Option CachedTable) :
    Option CachedTable := do
  let table ← HuffmanTable.buildFromWeightsReusing weights (spare.map CachedTable.table)
  match spare with
  | some spare => some ⟨table, { spare.description with state := .notComputed }⟩
  | none => some ⟨table, {}⟩

def clone (t : CachedTable) : CachedTable := ⟨t.table, t.description.clone⟩

/-- Overwrite a table field by field. -/
def cloneFrom (t source : CachedTable) : CachedTable where
  table :=
    { codes := source.table.codes
      packedCodes := source.table.packedCodes
      tableLog := source.table.tableLog
      codes_le := source.table.codes_le
      packed_length := source.table.packed_length
      dead := source.table.dead }
  description := t.description.cloneFrom source.description

/-- Encode the description unless that is done already; a table of no codes panics. -/
def fillWeightDescriptionFromCodes (t : CachedTable) (fseTable : FSETable) : Option CachedTable :=
  if t.description.state ≠ .notComputed then some t
  else if t.table.codes = [] then none
  else do
    let (encodable, buf) ← encodeWeightDescriptionInto t.table.weights.dropLast fseTable
    some { t with
      description := ⟨buf, if encodable then .encoded buf.length else .notEncodable⟩ }

/-- The bytes of an encoded description; a length past the buffer panics. -/
def cachedEncodedWeightDescription (t : CachedTable) : Option (Option (List UInt8)) :=
  match t.description.state with
  | .encoded len =>
    if len ≤ t.description.buf.length then some (some (t.description.buf.take len)) else none
  | _ => some none

/-- The size of the description; none inside where neither form can carry the weights. -/
def tryTableDescriptionSize (t : CachedTable) (fseTable : FSETable) :
    Option (Option Nat × CachedTable) := do
  let t ← t.fillWeightDescriptionFromCodes fseTable
  match ← t.cachedEncodedWeightDescription with
  | some description => some (some (description.length + 1), t)
  | none =>
    let rawWeights := t.table.codes.length - 1
    some (if rawWeights ≤ 128 then some ((rawWeights + 1) / 2 + 1) else none, t)

/-- Write the description alone, off the cache where it is filled. -/
def writeTable (t : CachedTable) (w : BitWriter) : Option BitWriter :=
  match t.description.state with
  | .encoded len =>
    if len ≤ t.description.buf.length then do
      let w ← w.writeBits ((t.description.buf.take len).length % 256) 8
      w.appendBytes (t.description.buf.take len)
    else none
  | .notEncodable =>
    if t.table.codes = [] then none
    else writeRawWeightDescription t.table.weights.dropLast w
  | .notComputed =>
    if t.table.codes = [] then none
    else do
      let (encodable, encoded) ←
        encodeWeightDescriptionInto t.table.weights.dropLast FSETable.blank
      if encodable then
        let w ← w.writeBits (encoded.length % 256) 8
        w.appendBytes encoded
      else writeRawWeightDescription t.table.weights.dropLast w

end CachedTable

namespace HuffmanTable

/-- How far the code lengths lie apart, where every symbol of the other table has a code. -/
def canEncode (t other : HuffmanTable) : Option Nat := do
  if t.codes.length < other.codes.length then none
  let differences ← (other.codes.zip t.codes).mapM fun (o, c) =>
    if o.2 ≠ 0 ∧ c.2 = 0 then none else some (o.2 - c.2 + (c.2 - o.2))
  some differences.sum

end HuffmanTable

/-- What can be asked of a table, with the storage or the writer the question brings along. -/
inductive Query where
  | fill (fseTable : FSETable)
  | size (fseTable : FSETable)
  | write (w : BitWriter)
  | encodes (other : HuffmanTable)
  | encodedBy (other : HuffmanTable)
  | numBits (symbol : Nat)
  | packed (symbol : Nat)
  | tableLog
  | stream (data : List UInt8) (w : BitWriter)
  | segment (data : List UInt8)

inductive Answer where
  | done
  | number (n : Option Nat)
  | writer (w : Option BitWriter)
  | bytes (b : Option (List UInt8))

/-- The answer to a query and the table it leaves. -/
def CachedTable.ask (t : CachedTable) : Query → Option (Answer × CachedTable)
  | .fill fseTable => (t.fillWeightDescriptionFromCodes fseTable).map fun t => (.done, t)
  | .size fseTable => (t.tryTableDescriptionSize fseTable).map fun r => (.number r.1, r.2)
  | .write w => some (.writer (t.writeTable w), t)
  | .encodes other => some (.number (t.table.canEncode other), t)
  | .encodedBy other => some (.number (other.canEncode t.table), t)
  | .numBits symbol => some (.number (t.table.numBitsForSymbol symbol), t)
  | .packed symbol => some (.number t.table.packedCodes[symbol]?, t)
  | .tableLog => some (.number (some t.table.tableLog), t)
  | .stream data w => some (.writer (t.table.encodeStream data w), t)
  | .segment data => some (.bytes (t.table.encodeSegment data), t)

/-- The answers to a run of queries; none once one has panicked. -/
def CachedTable.answers (t : CachedTable) : List Query → Option (List Answer)
  | [] => some []
  | q :: qs => do
    let (a, t) ← t.ask q
    let rest ← t.answers qs
    some (a :: rest)

namespace CachedTable

/-- Tables of the same codes whose descriptions are in the same state, and of the same bytes
where these are read. -/
structure Same (t t' : CachedTable) : Prop where
  table_eq : t.table = t'.table
  state_eq : t.description.state = t'.description.state
  buf_eq : ∀ len, t.description.state = .encoded len → t.description.buf = t'.description.buf

variable {t t' : CachedTable}

theorem Same.refl (t : CachedTable) : Same t t := ⟨rfl, rfl, fun _ _ => rfl⟩

/-- Filling gives the same bytes, or leaves the tables as they are. -/
theorem Same.fill (h : Same t t') (fseTable : FSETable) :
    (t.fillWeightDescriptionFromCodes fseTable = none ∧
        t'.fillWeightDescriptionFromCodes fseTable = none) ∨
      ∃ r r', t.fillWeightDescriptionFromCodes fseTable = some r ∧
        t'.fillWeightDescriptionFromCodes fseTable = some r' ∧ Same r r' := by
  unfold fillWeightDescriptionFromCodes
  rw [← h.state_eq, ← h.table_eq]
  split
  · exact .inr ⟨t, t', rfl, rfl, h⟩
  · split
    · exact .inl ⟨rfl, rfl⟩
    · cases encodeWeightDescriptionInto t.table.weights.dropLast fseTable with
      | none => exact .inl ⟨rfl, rfl⟩
      | some r => exact .inr ⟨_, _, rfl, rfl, rfl, rfl, fun _ _ => rfl⟩

theorem Same.cached_eq (h : Same t t') :
    t.cachedEncodedWeightDescription = t'.cachedEncodedWeightDescription := by
  unfold cachedEncodedWeightDescription
  rw [← h.state_eq]
  cases hs : t.description.state with
  | notComputed => rfl
  | notEncodable => rfl
  | encoded len => simp only [h.buf_eq len hs]

theorem Same.writeTable_eq (h : Same t t') (w : BitWriter) : t.writeTable w = t'.writeTable w := by
  unfold writeTable
  rw [← h.state_eq, ← h.table_eq]
  cases hs : t.description.state with
  | notComputed => rfl
  | notEncodable => rfl
  | encoded len => simp only [h.buf_eq len hs]

theorem Same.size (h : Same t t') (fseTable : FSETable) :
    (t.tryTableDescriptionSize fseTable = none ∧ t'.tryTableDescriptionSize fseTable = none) ∨
      ∃ n r r', t.tryTableDescriptionSize fseTable = some (n, r) ∧
        t'.tryTableDescriptionSize fseTable = some (n, r') ∧ Same r r' := by
  unfold tryTableDescriptionSize
  rcases h.fill fseTable with ⟨hn, hn'⟩ | ⟨r, r', hr, hr', hsame⟩
  · left
    rw [hn, hn']
    exact ⟨rfl, rfl⟩
  · rw [hr, hr']
    simp only [Option.bind_eq_bind, Option.bind_some, hsame.cached_eq]
    cases r'.cachedEncodedWeightDescription with
    | none => exact .inl ⟨rfl, rfl⟩
    | some d =>
      right
      cases d with
      | none =>
        simp only [Option.bind_some, hsame.table_eq]
        exact ⟨_, r, r', rfl, rfl, hsame⟩
      | some description => exact ⟨_, r, r', rfl, rfl, hsame⟩

/-- Every query is answered alike and leaves the tables alike. -/
theorem Same.ask (h : Same t t') (q : Query) :
    (t.ask q = none ∧ t'.ask q = none) ∨
      ∃ a r r', t.ask q = some (a, r) ∧ t'.ask q = some (a, r') ∧ Same r r' := by
  cases q with
  | fill fseTable =>
    simp only [CachedTable.ask]
    rcases h.fill fseTable with ⟨hn, hn'⟩ | ⟨r, r', hr, hr', hsame⟩
    · exact .inl ⟨by rw [hn]; rfl, by rw [hn']; rfl⟩
    · exact .inr ⟨.done, r, r', by rw [hr]; rfl, by rw [hr']; rfl, hsame⟩
  | size fseTable =>
    simp only [CachedTable.ask]
    rcases h.size fseTable with ⟨hn, hn'⟩ | ⟨n, r, r', hr, hr', hsame⟩
    · exact .inl ⟨by rw [hn]; rfl, by rw [hn']; rfl⟩
    · exact .inr ⟨.number n, r, r', by rw [hr]; rfl, by rw [hr']; rfl, hsame⟩
  | write w =>
    simp only [CachedTable.ask, h.writeTable_eq]
    exact .inr ⟨_, t, t', rfl, rfl, h⟩
  | encodes other | encodedBy other | numBits symbol | packed symbol | tableLog
  | stream data w | segment data =>
    simp only [CachedTable.ask, h.table_eq]
    exact .inr ⟨_, t, t', rfl, rfl, h⟩

/-- So is every run of queries. -/
theorem Same.answers_eq (h : Same t t') (qs : List Query) : t.answers qs = t'.answers qs := by
  induction qs generalizing t t' with
  | nil => rfl
  | cons q qs ih =>
    rw [answers, answers]
    rcases h.ask q with ⟨hn, hn'⟩ | ⟨a, r, r', hr, hr', hsame⟩
    · rw [hn, hn']
    · rw [hr, hr']
      simp only [Option.bind_eq_bind, Option.bind_some, ih hsame]

/-- A table built over another is the same as one built anew, or neither is built. -/
theorem buildFromWeightsReusing_same (weights : List Nat) (spare : Option CachedTable) :
    (buildFromWeightsReusing weights spare = none ∧ buildFromWeightsReusing weights none = none) ∨
      ∃ t t₀, buildFromWeightsReusing weights spare = some t ∧
        buildFromWeightsReusing weights none = some t₀ ∧ Same t t₀ := by
  have hspare := buildFromWeightsReusing_spare weights (spare.map CachedTable.table)
  have hnone := buildFromWeightsReusing_spare weights none
  unfold buildFromWeightsReusing
  rw [hspare, Option.map_none, hnone]
  cases HuffmanTable.buildFromWeights weights with
  | none => exact .inl ⟨rfl, rfl⟩
  | some table =>
    right
    cases spare with
    | none => exact ⟨⟨table, {}⟩, ⟨table, {}⟩, rfl, rfl, Same.refl _⟩
    | some spare =>
      refine ⟨⟨table, { spare.description with state := .notComputed }⟩, ⟨table, {}⟩, rfl, rfl,
        rfl, rfl, ?_⟩
      intro len hlen
      cases hlen

theorem cloneFrom_eq_clone (t source : CachedTable) : t.cloneFrom source = source.clone := rfl

theorem clone_same (source : CachedTable) : Same source.clone source := by
  refine ⟨rfl, ?_, ?_⟩
  · simp only [clone, WeightDescription.clone]
    split <;> rfl
  · intro len hlen
    simp only [clone, WeightDescription.clone] at hlen ⊢
    split
    · rfl
    · rename_i hno
      split at hlen
      · rename_i l hl
        exact (hno l hl).elim
      · exact (hno len hlen).elim

theorem buildFromWeights_length {weights : List Nat} {t : HuffmanTable}
    (h : HuffmanTable.buildFromWeights weights = some t) : t.codes.length = weights.length := by
  unfold HuffmanTable.buildFromWeights HuffmanTable.buildFromWeightsReusing at h
  split at h
  · simp only at h
    split at h
    · cases h
      exact assignCodes_length _ _ _
    · cases h
  · cases h

/-- No symbol past the weights has a code. -/
theorem buildFromWeightsReusing_covers {weights : List Nat} {spare : Option CachedTable}
    {t : CachedTable} (h : buildFromWeightsReusing weights spare = some t) {s : Nat}
    (hs : weights.length ≤ s) :
    t.table.numBitsForSymbol s = none ∧ t.table.packedCodes.getD s 0 = 0 := by
  have hbuild : HuffmanTable.buildFromWeights weights = some t.table := by
    rw [← buildFromWeightsReusing_spare weights (spare.map CachedTable.table)]
    obtain ⟨table, htable, hrest⟩ := Option.bind_eq_some_iff.mp h
    cases spare <;> (cases hrest; exact htable)
  have hlen := buildFromWeights_length hbuild
  refine ⟨?_, t.table.dead s (hlen.trans_le hs)⟩
  rw [HuffmanTable.numBitsForSymbol, List.getElem?_eq_none (hlen.trans_le hs)]

end CachedTable

/-- A rebuilt table is the freshly built one to every reader, whatever it held before: the FSE
table with all its entries and the live part of its states, the Huffman table in the answers to
every run of queries, and a table copied over another in the answers of its source. -/
theorem rebuilt_tables_fresh :
    (∀ (d : Fse.Distribution) (out : FSETable), ∃ t t₀,
      Fse.Encoder.buildTableFromProbabilitiesInto d.probs d.accLog out = some t ∧
        Fse.Encoder.buildTableFromProbabilities d.probs d.accLog = some t₀ ∧
        Fse.Encoder.Same t t₀ ∧ t.nextState = t₀.nextState ∧ t.startState = t₀.startState ∧
        t.writeTable = t₀.writeTable ∧
        (∀ data w, encodeInterleaved t data w = encodeInterleaved t₀ data w) ∧
        ∀ s, d.probs.length ≤ s → t.states s = {} ∧ t.symbolTT s = {}) ∧
    (∀ (weights : List Nat) (spare : Option CachedTable),
      (CachedTable.buildFromWeightsReusing weights spare = none ∧
        CachedTable.buildFromWeightsReusing weights none = none) ∨
      ∃ t t₀, CachedTable.buildFromWeightsReusing weights spare = some t ∧
        CachedTable.buildFromWeightsReusing weights none = some t₀ ∧ t.table = t₀.table ∧
        (∀ qs, t.answers qs = t₀.answers qs) ∧
        ∀ s, weights.length ≤ s →
          t.table.numBitsForSymbol s = none ∧ t.table.packedCodes.getD s 0 = 0) ∧
    ∀ t source : CachedTable, (t.cloneFrom source).table = source.table ∧
      (∀ qs, (t.cloneFrom source).answers qs = source.clone.answers qs) ∧
      ∀ qs, (t.cloneFrom source).answers qs = source.answers qs := by
  refine ⟨fun d out => ?_, fun weights spare => ?_, fun t source => ?_⟩
  · obtain ⟨t, t₀, ht, ht₀, hsame⟩ := Fse.Encoder.build_same d out
    refine ⟨t, t₀, ht, ht₀, hsame, hsame.nextState_eq, hsame.startState_eq, hsame.writeTable_eq,
      hsame.encodeInterleaved_eq, fun s hs => t.dead s ?_⟩
    obtain ⟨t', ht', htable⟩ := Fse.Encoder.build_spec d out
    rw [ht] at ht'
    cases ht'
    rwa [htable.live_eq]
  · rcases CachedTable.buildFromWeightsReusing_same weights spare with hnone | ⟨t, t₀, ht, ht₀, h⟩
    · exact .inl hnone
    · exact .inr ⟨t, t₀, ht, ht₀, h.table_eq, h.answers_eq,
        fun s hs => CachedTable.buildFromWeightsReusing_covers ht hs⟩
  · refine ⟨rfl, fun qs => by rw [CachedTable.cloneFrom_eq_clone], fun qs => ?_⟩
    rw [CachedTable.cloneFrom_eq_clone]
    exact (CachedTable.clone_same source).answers_eq qs

end Huff0.Encoder
