import StructuredZstd.Legacy.HufTable

namespace Legacy

open BitIo Runs Guarded

/-- A table a later block may use again, with whether one is set. -/
structure Slot (T : Type) where
  table : T
  set : Bool
deriving Repr, DecidableEq

def Slot.get {T : Type} (slot : Slot T) : Option T := if slot.set then some slot.table else none

/-- Unset, with its storage kept. -/
def Slot.unset {T : Type} (slot : Slot T) : Slot T := { slot with set := false }

/-- A predefined distribution, as the formats' default tables list them. -/
def Distribution.predefined (counts : List Int) (tableLog : Nat) : Distribution :=
  ⟨counts ++ List.replicate (256 - counts.length) 0, counts.length - 1, tableLog⟩

/-- What v0.6 and v0.7 know of a sequence field: the largest symbol and table log, and the predefined
distribution. -/
structure Field where
  max : Nat
  maxLog : Nat
  default : List Int
  defaultLog : Nat
deriving Repr, DecidableEq

def llDefault : List Int :=
  [4, 3, 2, 2, 2, 2, 2, 2, 2, 2, 2, 2, 2, 1, 1, 1, 2, 2, 2, 2, 2, 2, 2, 2, 2, 3, 2, 1, 1, 1, 1, 1,
    -1, -1, -1, -1]

def mlDefault : List Int :=
  [1, 4, 3, 2, 2, 2, 2, 2, 2, 1, 1, 1, 1, 1, 1, 1, 1, 1, 1, 1, 1, 1, 1, 1, 1, 1, 1, 1, 1, 1, 1, 1,
    1, 1, 1, 1, 1, 1, 1, 1, 1, 1, 1, 1, 1, 1, -1, -1, -1, -1, -1, -1, -1]

def ofDefault : List Int :=
  [1, 1, 1, 1, 1, 1, 2, 2, 2, 1, 1, 1, 1, 1, 1, 1, 1, 1, 1, 1, 1, 1, 1, 1, -1, -1, -1, -1, -1]

def Field.ll : Field := ⟨35, 9, llDefault, 6⟩
def Field.of : Field := ⟨28, 8, ofDefault, 5⟩
def Field.ml : Field := ⟨52, 9, mlDefault, 6⟩

/-- What v0.5 knows of one. -/
structure FieldV05 where
  max : Nat
  maxLog : Nat
  rawBits : Nat
  checkedRle : Bool
deriving Repr, DecidableEq

def maxOffV05 : Nat := 31

def FieldV05.literalLength : FieldV05 := ⟨63, 10, 6, false⟩
def FieldV05.offset : FieldV05 := ⟨maxOffV05, 9, 5, true⟩
def FieldV05.matchLength : FieldV05 := ⟨127, 10, 7, true⟩

section Tables

def repeated : LegacyFrameError := corrupt "sequence table repeated before one was sent"

/-- The table of a description, in the storage of an unset slot. -/
def describedTable (slot : Slot FseTable) (src : List UInt8) (max maxLog : Nat) :
    Guarded (LegacyFrameError × Slot FseTable) (Slot FseTable × Nat) := do
  let (dist, len) ← mapError (fun _ => (corrupt "bad sequence table", slot))
    (readDistribution src max)
  if maxLog < dist.tableLog then throw (corrupt "sequence table too large", slot)
  else
    let table ← mapError (fun (e, table) => (e, { slot with table := table }))
      (slot.table.build dist)
    pure (⟨table, true⟩, len)

/-- Set the table of a sequence field by its mode: the slot, and the bytes the description took. -/
def seqTable (slot : Slot FseTable) (mode : Nat) (src : List UInt8) (field : Field)
    (repeatTables : Bool) : Guarded (LegacyFrameError × Slot FseTable) (Slot FseTable × Nat) :=
  if mode = 2 then
    if ¬repeatTables ∨ ¬slot.set then throw (repeated, slot) else pure (slot, 0)
  else if mode = 0 then do
    let table ← mapError (fun (e, table) => (e, ⟨table, false⟩))
      (slot.table.build (.predefined field.default field.defaultLog))
    pure (⟨table, true⟩, 0)
  else if mode = 1 then
    match src.head? with
    | none => throw (.truncated, slot.unset)
    | some symbol =>
      if field.max < symbol.toNat then throw (corrupt "sequence symbol out of range", slot.unset)
      else pure (⟨slot.table.setRle symbol.toNat, true⟩, 1)
  else describedTable slot.unset src field.max field.maxLog

/-- The same for v0.5, the description starting at `at_`. -/
def fieldTable (slot : Slot FseTable) (mode : Nat) (src : List UInt8) (at_ : Nat)
    (field : FieldV05) (repeatTables : Bool) :
    Guarded (LegacyFrameError × Slot FseTable) (Slot FseTable × Nat) :=
  if mode = 2 then
    if ¬repeatTables ∨ ¬slot.set then throw (repeated, slot) else pure (slot, 0)
  else if mode = 0 then pure (⟨slot.table.setRaw field.rawBits, true⟩, 0)
  else if mode = 1 then
    if field.checkedRle ∧ src.length < at_ + 2 then throw (.truncated, slot.unset)
    else
      match src[at_]? with
      | none => throw (.truncated, slot.unset)
      | some symbol =>
        -- Only offsets are masked.
        let symbol := if field.max = maxOffV05 then symbol.toNat &&& maxOffV05 else symbol.toNat
        pure (⟨slot.table.setRle symbol, true⟩, 1)
  else do
    let description ← slice src at_ src.length
    describedTable slot.unset description field.max field.maxLog

/-- The literal length, offset and match length tables last in use. -/
structure SeqTables where
  ll : Slot FseTable
  of : Slot FseTable
  ml : Slot FseTable
deriving Repr, DecidableEq

def SeqTables.unset (tables : SeqTables) : SeqTables :=
  ⟨tables.ll.unset, tables.of.unset, tables.ml.unset⟩

/-- The three tables, all set once a block has used them. -/
def SeqTables.all (tables : SeqTables) :
    Guarded (LegacyFrameError × SeqTables) (FseTable × FseTable × FseTable) :=
  match tables.ll.get, tables.of.get, tables.ml.get with
  | some ll, some of, some ml => pure (ll, of, ml)
  | _, _, _ => throw (repeated, tables)

/-- The tables of a sequence section of v0.6 or v0.7, whose modes stand before `at_`. -/
def seqTables (tables : SeqTables) (modes : Nat) (src : List UInt8) (at_ : Nat)
    (repeatTables : Bool) : Guarded (LegacyFrameError × SeqTables) (SeqTables × Nat) := do
  let description ← slice src at_ src.length
  let (ll, len) ← mapError (fun (e, slot) => (e, { tables with ll := slot }))
    (seqTable tables.ll (modes >>> 6) description .ll repeatTables)
  let tables := { tables with ll := ll }
  let description ← slice src (at_ + len) src.length
  let (of, len') ← mapError (fun (e, slot) => (e, { tables with of := slot }))
    (seqTable tables.of (modes >>> 4 &&& 3) description .of repeatTables)
  let tables := { tables with of := of }
  let description ← slice src (at_ + len + len') src.length
  let (ml, len'') ← mapError (fun (e, slot) => (e, { tables with ml := slot }))
    (seqTable tables.ml (modes >>> 2 &&& 3) description .ml repeatTables)
  pure ({ tables with ml := ml }, at_ + len + len' + len'')

/-- The tables of a sequence section of v0.5, whose dumps end before `at_`. -/
def fieldTables (tables : SeqTables) (modes : Nat) (src : List UInt8) (at_ : Nat)
    (repeatTables : Bool) : Guarded (LegacyFrameError × SeqTables) (SeqTables × Nat) := do
  let (ll, len) ← mapError (fun (e, slot) => (e, { tables with ll := slot }))
    (fieldTable tables.ll (modes >>> 6) src at_ .literalLength repeatTables)
  let tables := { tables with ll := ll }
  let (of, len') ← mapError (fun (e, slot) => (e, { tables with of := slot }))
    (fieldTable tables.of (modes >>> 4 &&& 3) src (at_ + len) .offset repeatTables)
  let tables := { tables with of := of }
  let (ml, len'') ← mapError (fun (e, slot) => (e, { tables with ml := slot }))
    (fieldTable tables.ml (modes >>> 2 &&& 3) src (at_ + len + len') .matchLength repeatTables)
  pure ({ tables with ml := ml }, at_ + len + len' + len'')

end Tables

section Literals

/-- The literals of a v0.7 section with its own table, which the next sections may repeat. -/
def huffmanLiterals (slot : Slot HufTable) (src : List UInt8) (size : Nat) (singleStream : Bool) :
    Guarded (LegacyFrameError × Slot HufTable) (Slot HufTable × List Nat) :=
  if ¬singleStream ∧ (size ≤ src.length ∨ src.length ≤ 1) then
    throw (corrupt "Huffman literals no smaller than their content", slot)
  else do
    let (table, tableLen) ← mapError (fun (_, table) => (corrupt "bad Huffman table", ⟨table, false⟩))
      (slot.table.readInto src .pastStart)
    if src.length ≤ tableLen then
      throw (corrupt "Huffman table fills the literal section", ⟨table, false⟩)
    else
      let streams ← slice src tableLen src.length
      let out ← mapError (fun _ => (corrupt "bad Huffman literals", ⟨table, false⟩))
        (if singleStream then table.decodeOneStream streams size
        else table.decodeFourStreams streams size)
      pure (⟨table, true⟩, out)

/-- The literals of a v0.5 or v0.6 section with its own table, which nothing repeats. -/
def huffman (table : HufTable) (src : List UInt8) (size : Nat) (fourStreams : Bool)
    (streamEnd : StreamEnd) : Guarded (LegacyFrameError × HufTable) (HufTable × List Nat) := do
  let (table, tableLen) ← mapError (fun (_, table) => (corrupt "bad Huffman table", table))
    (table.readInto src streamEnd)
  if src.length ≤ tableLen then throw (corrupt "Huffman table fills the literal section", table)
  else
    let streams ← slice src tableLen src.length
    let out ← mapError (fun _ => (corrupt "bad Huffman literals", table))
      (if fourStreams then table.decodeFourStreams streams size
      else table.decodeOneStream streams size)
    pure (table, out)

/-- The literals of a section that repeats the table of an earlier one. -/
def repeatLiterals (slot : Slot HufTable) (src : List UInt8) (size : Nat) :
    Guarded (LegacyFrameError × Slot HufTable) (List Nat) :=
  match slot.get with
  | none => throw (.dictionaryCorrupted, slot)
  | some table =>
    mapError (fun _ => (corrupt "bad Huffman literals", slot)) (table.decodeOneStream src size)

end Literals

/-- The formats that share the entropy coding. -/
inductive Version where
  | v05
  | v06
  | v07
deriving Repr, DecidableEq

/-- What a decoder keeps from block to block: the Huffman table literals may repeat (a dictionary's, in
v0.5 and v0.6), the table a block's own description is read into there, and the sequence tables. -/
structure Decoder where
  huf : Slot HufTable
  own : HufTable
  tables : SeqTables
  repeatTables : Bool
deriving Repr, DecidableEq

/-- The tables a block asks for. -/
inductive TableUse where
  | literals (src : List UInt8) (size : Nat) (singleStream : Bool)
  | repeatLiterals (src : List UInt8) (size : Nat)
  | sequences (modes : Nat) (src : List UInt8) (at_ : Nat)
deriving Repr, DecidableEq

namespace Decoder

/-- An error leaves the decoder with the tables as they were left. -/
def step (version : Version) (d : Decoder) : TableUse → Guarded (LegacyFrameError × Decoder) Decoder
  | .literals src size singleStream =>
    match version with
    | .v07 => do
      let (huf, _) ← mapError (fun (e, slot) => (e, { d with huf := slot }))
        (huffmanLiterals d.huf src size singleStream)
      pure { d with huf := huf }
    | .v06 => do
      let (own, _) ← mapError (fun (e, table) => (e, { d with own := table }))
        (huffman d.own src size (!singleStream) .pastStart)
      pure { d with own := own }
    | .v05 => do
      let (own, _) ← mapError (fun (e, table) => (e, { d with own := table }))
        (huffman d.own src size (!singleStream) .exact)
      pure { d with own := own }
  | .repeatLiterals src size =>
    if version ≠ .v07 ∧ ¬d.repeatTables then throw (.dictionaryCorrupted, d)
    else do
      let _ ← mapError (fun (e, slot) => (e, { d with huf := slot })) (repeatLiterals d.huf src size)
      pure d
  | .sequences modes src at_ =>
    match version with
    | .v05 => do
      let (tables, _) ← mapError (fun (e, tables) => (e, { d with tables := tables }))
        (fieldTables d.tables modes src at_ d.repeatTables)
      let _ ← mapError (fun (e, tables) => (e, { d with tables := tables })) tables.all
      pure { d with tables := tables }
    | .v06 => do
      let (tables, _) ← mapError (fun (e, tables) => (e, { d with tables := tables }))
        (seqTables d.tables modes src at_ d.repeatTables)
      let _ ← mapError (fun (e, tables) => (e, { d with tables := tables, repeatTables := false }))
        tables.all
      pure { d with tables := tables, repeatTables := false }
    | .v07 => do
      let (tables, _) ← mapError (fun (e, tables) => (e, { d with tables := tables }))
        (seqTables d.tables modes src at_ d.repeatTables)
      let _ ← mapError (fun (e, tables) => (e, { d with tables := tables, repeatTables := true }))
        tables.all
      pure { d with tables := tables, repeatTables := true }

/-- The decoder after a use, whether it was refused or not. -/
def after (version : Version) (d : Decoder) (use : TableUse) : Option Decoder :=
  (d.step version use).run.map fun
    | .ok d => d
    | .error (_, d) => d

def run (version : Version) : Decoder → List TableUse → Option Decoder
  | d, [] => some d
  | d, use :: uses => do
    let d ← d.after version use
    run version d uses

end Decoder

section Spec

/-- A table that was built to its end. -/
def FseTable.Complete (t : FseTable) : Prop :=
  (∃ dist : Distribution, dist.Full ∧ FseTable.Built dist t) ∨
  (∃ table : FseTable, ∃ nbBits ≤ 12, t = table.setRaw nbBits) ∨
  ∃ table : FseTable, ∃ symbol, t = table.setRle symbol

theorem FseTable.complete_setRaw (table : FseTable) {nbBits : Nat} (h : nbBits ≤ 12) :
    (table.setRaw nbBits).Complete := .inr (.inl ⟨table, nbBits, h, rfl⟩)

theorem FseTable.complete_setRle (table : FseTable) (symbol : Nat) :
    (table.setRle symbol).Complete := .inr (.inr ⟨table, symbol, rfl⟩)

/-- However a table was filled, a state read off it stays inside. -/
theorem FseTable.Complete.sound {t : FseTable} (h : t.Complete) : t.Sound := by
  rcases h with ⟨_, -, hbuilt⟩ | ⟨table, nbBits, hbits, rfl⟩ | ⟨table, symbol, rfl⟩
  · exact hbuilt.sound
  · exact FseTable.setRaw_sound table hbits
  · exact FseTable.setRle_sound table symbol

/-- A slot is set only with a table that was built to its end. -/
def Slot.Whole {T : Type} (P : T → Prop) (slot : Slot T) : Prop := slot.set = true → P slot.table

theorem Slot.Whole.get {T : Type} {P : T → Prop} {slot : Slot T} (h : slot.Whole P) {t : T}
    (ht : slot.get = some t) : P t := by
  unfold Slot.get at ht
  split at ht
  · cases ht
    exact h ‹_›
  · cases ht

theorem Slot.whole_of_unset {T : Type} {P : T → Prop} {slot : Slot T} (h : slot.set = false) :
    slot.Whole P := by
  intro hset
  rw [h] at hset
  cases hset

/-- What is left of a slot by an error: as it was, or unset. -/
def Slot.KeptOrUnset {T : Type} (slot slot' : Slot T) : Prop := slot' = slot ∨ slot'.set = false

theorem Slot.KeptOrUnset.whole {T : Type} {P : T → Prop} {slot slot' : Slot T}
    (h : slot.KeptOrUnset slot') (hwhole : slot.Whole P) : slot'.Whole P := by
  rcases h with rfl | hunset
  · exact hwhole
  · exact whole_of_unset hunset

theorem Distribution.predefined_full {counts : List Int} {tableLog : Nat} (hpos : counts ≠ [])
    (hlen : counts.length ≤ 256) (hrange : ∀ c ∈ counts, -1 ≤ c)
    (hsum : Fse.weightSum counts = 2 ^ tableLog) : (predefined counts tableLog).Full := by
  have hlength : 0 < counts.length := List.length_pos_iff.mpr hpos
  refine ⟨?_, ?_, ?_, ?_, ?_⟩
  · simp [predefined, hlen]
  · simp only [predefined]
    omega
  · intro c hc
    rcases List.mem_append.mp hc with hc | hc
    · exact hrange c hc
    · rw [List.eq_of_mem_replicate hc]
      omega
  · have hzero := weightSum_zeros (256 - counts.length)
    simp only [predefined]
    unfold Fse.weightSum at hsum hzero ⊢
    rw [List.map_append, List.sum_append, hzero, hsum]
    rfl
  · intro s hs hs'
    simp only [predefined] at hs ⊢
    rw [List.getElem?_append_right (by omega), List.getElem?_replicate, if_pos (by omega)]

/-- A field whose predefined distribution has a table. -/
structure Field.Valid (field : Field) : Prop where
  max_le : field.max ≤ 255
  default_ne : field.default ≠ []
  default_length : field.default.length ≤ 256
  default_range : ∀ c ∈ field.default, -1 ≤ c
  default_sum : Fse.weightSum field.default = 2 ^ field.defaultLog
  default_log : 4 ≤ field.defaultLog ∧ field.defaultLog ≤ 12

theorem Field.ll_valid : Field.ll.Valid := by
  constructor <;> decide

theorem Field.of_valid : Field.of.Valid := by
  constructor <;> decide

theorem Field.ml_valid : Field.ml.Valid := by
  constructor <;> decide

variable {slot : Slot FseTable} {src : List UInt8}

/-- A slot after a use of it: unset or as it was if refused, set with a whole table if not. -/
abbrev SlotEnds (slot : Slot FseTable) (room : Nat)
    (m : Guarded (LegacyFrameError × Slot FseTable) (Slot FseTable × Nat)) : Prop :=
  Ends m (fun e => slot.KeptOrUnset e.2) fun r =>
    r.1.set = true ∧ r.1.Whole FseTable.Complete ∧ r.2 ≤ room

theorem describedTable_ends (hlen : src.length < 2 ^ 56) {max : Nat} (hmax : max ≤ 255)
    (maxLog : Nat) : SlotEnds slot src.length (describedTable slot.unset src max maxLog) := by
  refine ((readDistribution_meets hmax hlen).ends_mapError (fun _ => .inr rfl)).bind ?_
  rintro ⟨dist, len⟩ ⟨hconsumed, -, hlo, -, hdist⟩
  dsimp only at hconsumed hlo hdist ⊢
  refine ends_ite (fun _ => ends_throw (.inr rfl)) (fun _ => ?_)
  -- Only a full distribution gives a table at all.
  have hbuild : Meets (slot.unset.table.build dist) FseTable.Complete := by
    rcases hdist with hfull | hover
    · exact (FseTable.build_meets (.inl hfull) (by omega) _).mono
        fun t ht => .inl ⟨dist, hfull, ht⟩
    · unfold FseTable.build
      rw [if_pos (show fseMaxTableLog < dist.tableLog by rw [hover.1]; decide)]
      exact meets_throw _
  refine (hbuild.ends_mapError (fun _ => .inr rfl)).bind ?_
  intro table htable
  exact ends_pure ⟨rfl, fun _ => htable, hconsumed⟩

theorem repeat_ends (hwhole : slot.Whole FseTable.Complete) (repeatTables : Bool) (room : Nat) :
    SlotEnds slot room
      (if ¬repeatTables ∨ ¬slot.set then throw (repeated, slot) else pure (slot, 0)) := by
  refine ends_ite (fun _ => ends_throw (.inl rfl)) ?_
  intro hset
  refine ends_pure ⟨?_, hwhole, Nat.zero_le _⟩
  simp at hset
  exact hset.2

theorem seqTable_ends (hwhole : slot.Whole FseTable.Complete) (hlen : src.length < 2 ^ 56)
    {field : Field} (hfield : field.Valid) (mode : Nat) (repeatTables : Bool) :
    SlotEnds slot src.length (seqTable slot mode src field repeatTables) := by
  refine ends_ite (fun _ => repeat_ends hwhole _ _) (fun _ => ends_ite ?_ (fun _ => ends_ite ?_ ?_))
  · intro _
    have hfull := Distribution.predefined_full hfield.default_ne hfield.default_length
      hfield.default_range hfield.default_sum
    have hbuild : Meets (slot.table.build (.predefined field.default field.defaultLog))
        FseTable.Complete :=
      (FseTable.build_meets (.inl hfull) hfield.default_log.1 _).mono
        fun t ht => .inl ⟨_, hfull, ht⟩
    refine (hbuild.ends_mapError (fun _ => .inr rfl)).bind ?_
    intro table htable
    exact ends_pure ⟨rfl, fun _ => htable, Nat.zero_le _⟩
  · intro _
    cases src with
    | nil => exact ends_throw (.inr rfl)
    | cons symbol src =>
      refine ends_ite (fun _ => ends_throw (.inr rfl)) (fun _ => ?_)
      exact ends_pure ⟨rfl, fun _ => slot.table.complete_setRle _, by simp⟩
  · intro _
    exact describedTable_ends hlen hfield.max_le _

theorem fieldTable_ends (hwhole : slot.Whole FseTable.Complete) (hlen : src.length < 2 ^ 56)
    {field : FieldV05} (hmax : field.max ≤ 255) (hraw : field.rawBits ≤ 12) (mode : Nat) {at_ : Nat}
    (hat : at_ ≤ src.length) (repeatTables : Bool) :
    SlotEnds slot (src.length - at_) (fieldTable slot mode src at_ field repeatTables) := by
  refine ends_ite (fun _ => repeat_ends hwhole _ _) (fun _ => ends_ite ?_ (fun _ => ends_ite ?_ ?_))
  · intro _
    exact ends_pure ⟨rfl, fun _ => slot.table.complete_setRaw hraw, Nat.zero_le _⟩
  · intro _
    refine ends_ite (fun _ => ends_throw (.inr rfl)) (fun _ => ?_)
    cases hget : src[at_]? with
    | none => exact ends_throw (.inr rfl)
    | some symbol =>
      have hlt := (List.getElem?_eq_some_iff.mp hget).1
      exact ends_pure ⟨rfl, fun _ => slot.table.complete_setRle _, by dsimp only; omega⟩
  · intro _
    have hdrop : (src.take src.length).drop at_ = src.drop at_ := by rw [List.take_length]
    rw [slice_eq hat le_rfl, pure_bind, hdrop, ← List.length_drop]
    refine describedTable_ends ?_ hmax _
    rw [List.length_drop]
    omega

structure SeqTables.Whole (tables : SeqTables) : Prop where
  ll : tables.ll.Whole FseTable.Complete
  of : tables.of.Whole FseTable.Complete
  ml : tables.ml.Whole FseTable.Complete

variable {tables : SeqTables}

theorem slice_length (at_ : Nat) :
    ((src.take src.length).drop at_).length = src.length - at_ := by
  rw [List.take_length, List.length_drop]

theorem seqTables_ends (hwhole : tables.Whole) (hlen : src.length < 2 ^ 56) (modes : Nat) {at_ : Nat}
    (hat : at_ ≤ src.length) (repeatTables : Bool) :
    Ends (seqTables tables modes src at_ repeatTables) (fun e => e.2.Whole) fun r =>
      r.1.Whole ∧ r.2 ≤ src.length := by
  unfold seqTables
  rw [slice_eq hat le_rfl, pure_bind]
  have hll := seqTable_ends hwhole.ll (show ((src.take src.length).drop at_).length < 2 ^ 56 by
    rw [slice_length]; omega) Field.ll_valid (modes >>> 6) repeatTables
  refine (hll.mapError ?_).bind ?_
  · rintro ⟨e, slot⟩ he
    exact ⟨he.whole hwhole.ll, hwhole.of, hwhole.ml⟩
  rintro ⟨ll, len⟩ ⟨-, hll, hlen₁⟩
  rw [slice_length] at hlen₁
  dsimp only at hll hlen₁ ⊢
  rw [slice_eq (by omega) le_rfl, pure_bind]
  have hof := seqTable_ends hwhole.of
    (show ((src.take src.length).drop (at_ + len)).length < 2 ^ 56 by
      rw [slice_length]; omega) Field.of_valid (modes >>> 4 &&& 3) repeatTables
  refine (hof.mapError ?_).bind ?_
  · rintro ⟨e, slot⟩ he
    exact ⟨hll, he.whole hwhole.of, hwhole.ml⟩
  rintro ⟨of, len'⟩ ⟨-, hof, hlen₂⟩
  rw [slice_length] at hlen₂
  dsimp only at hof hlen₂ ⊢
  rw [slice_eq (by omega) le_rfl, pure_bind]
  have hml := seqTable_ends hwhole.ml
    (show ((src.take src.length).drop (at_ + len + len')).length < 2 ^ 56 by
      rw [slice_length]; omega) Field.ml_valid (modes >>> 2 &&& 3) repeatTables
  refine (hml.mapError ?_).bind ?_
  · rintro ⟨e, slot⟩ he
    exact ⟨hll, hof, he.whole hwhole.ml⟩
  rintro ⟨ml, len''⟩ ⟨-, hml, hlen₃⟩
  rw [slice_length] at hlen₃
  dsimp only at hml hlen₃ ⊢
  exact ends_pure ⟨⟨hll, hof, hml⟩, by dsimp only; omega⟩

theorem fieldTables_ends (hwhole : tables.Whole) (hlen : src.length < 2 ^ 56) (modes : Nat)
    {at_ : Nat} (hat : at_ ≤ src.length) (repeatTables : Bool) :
    Ends (fieldTables tables modes src at_ repeatTables) (fun e => e.2.Whole) fun r =>
      r.1.Whole ∧ r.2 ≤ src.length := by
  have hll := fieldTable_ends hwhole.ll hlen (show FieldV05.literalLength.max ≤ 255 by decide) (by decide)
    (modes >>> 6) hat repeatTables
  refine (hll.mapError ?_).bind ?_
  · rintro ⟨e, slot⟩ he
    exact ⟨he.whole hwhole.ll, hwhole.of, hwhole.ml⟩
  rintro ⟨ll, len⟩ ⟨-, hll, hlen₁⟩
  dsimp only at hll hlen₁ ⊢
  have hof := fieldTable_ends hwhole.of hlen (show FieldV05.offset.max ≤ 255 by decide) (by decide)
    (modes >>> 4 &&& 3) (show at_ + len ≤ src.length by omega) repeatTables
  refine (hof.mapError ?_).bind ?_
  · rintro ⟨e, slot⟩ he
    exact ⟨hll, he.whole hwhole.of, hwhole.ml⟩
  rintro ⟨of, len'⟩ ⟨-, hof, hlen₂⟩
  dsimp only at hof hlen₂ ⊢
  have hml := fieldTable_ends hwhole.ml hlen (show FieldV05.matchLength.max ≤ 255 by decide) (by decide)
    (modes >>> 2 &&& 3) (show at_ + len + len' ≤ src.length by omega) repeatTables
  refine (hml.mapError ?_).bind ?_
  · rintro ⟨e, slot⟩ he
    exact ⟨hll, hof, he.whole hwhole.ml⟩
  rintro ⟨ml, len''⟩ ⟨-, hml, hlen₃⟩
  dsimp only at hml hlen₃ ⊢
  exact ends_pure ⟨⟨hll, hof, hml⟩, by dsimp only; omega⟩

/-- Three set tables, or a refusal that leaves them as they are. -/
theorem SeqTables.all_ends (tables : SeqTables) :
    Ends tables.all (fun e => e.2 = tables) fun r =>
      tables.ll.get = some r.1 ∧ tables.of.get = some r.2.1 ∧ tables.ml.get = some r.2.2 := by
  unfold all
  cases hll : tables.ll.get with
  | none => exact ends_throw rfl
  | some ll =>
    cases hof : tables.of.get with
    | none => exact ends_throw rfl
    | some of =>
      cases hml : tables.ml.get with
      | none => exact ends_throw rfl
      | some ml => exact ends_pure ⟨rfl, rfl, rfl⟩

variable {slot : Slot HufTable}

theorem streams_meets {table : HufTable} (hsound : table.Sound) (hlen : src.length < 2 ^ 56)
    {size : Nat} (hsize : size < 2 ^ 55) (b : Bool) :
    Meets (if b then table.decodeOneStream src size else table.decodeFourStreams src size)
      fun out => out.length = size := by
  cases b with
  | true => exact hsound.decodeOneStream_meets hlen (by omega)
  | false => exact hsound.decodeFourStreams_meets hlen hsize

theorem huffmanLiterals_ends (hlen : src.length < 2 ^ 56) {size : Nat} (hsize : size < 2 ^ 55)
    (singleStream : Bool) :
    Ends (huffmanLiterals slot src size singleStream) (fun e => slot.KeptOrUnset e.2) fun r =>
      r.1.set = true ∧ r.1.Whole HufTable.Sound ∧ r.2.length = size := by
  refine ends_ite (fun _ => ends_throw (.inl rfl)) (fun _ => ?_)
  refine ((HufTable.readInto_meets hlen .pastStart slot.table).ends_mapError
    (fun _ => .inr rfl)).bind ?_
  rintro ⟨table, tableLen⟩ ⟨hsound, htable⟩
  refine ends_ite (fun _ => ends_throw (.inr rfl)) (fun _ => ?_)
  rw [slice_eq htable le_rfl, pure_bind]
  have hstreams := streams_meets hsound
    (show ((src.take src.length).drop tableLen).length < 2 ^ 56 by
      rw [slice_length]; omega) hsize singleStream
  refine (hstreams.ends_mapError (fun _ => .inr rfl)).bind ?_
  intro out hout
  exact ends_pure ⟨rfl, fun _ => hsound, hout⟩

theorem huffman_meets (hlen : src.length < 2 ^ 56) {size : Nat} (hsize : size < 2 ^ 55)
    (fourStreams : Bool) (streamEnd : StreamEnd) (table : HufTable) :
    Meets (huffman table src size fourStreams streamEnd) fun r => r.2.length = size := by
  refine ((HufTable.readInto_meets hlen streamEnd table).mapError _).bind ?_
  rintro ⟨table, tableLen⟩ ⟨hsound, htable⟩
  refine meets_ite (fun _ => meets_throw _) (fun _ => ?_)
  rw [slice_eq htable le_rfl, pure_bind]
  have hstreams := streams_meets hsound
    (show ((src.take src.length).drop tableLen).length < 2 ^ 56 by
      rw [slice_length]; omega) hsize (!fourStreams)
  have hswap : (if fourStreams then
        table.decodeFourStreams ((src.take src.length).drop tableLen) size
      else table.decodeOneStream ((src.take src.length).drop tableLen) size) =
      if !fourStreams then table.decodeOneStream ((src.take src.length).drop tableLen) size
      else table.decodeFourStreams ((src.take src.length).drop tableLen) size := by
    cases fourStreams <;> rfl
  dsimp only at htable ⊢
  rw [hswap]
  refine (hstreams.mapError _).bind ?_
  intro out hout
  exact meets_pure hout

theorem repeatLiterals_ends (hwhole : slot.Whole HufTable.Sound) (hlen : src.length < 2 ^ 56)
    {size : Nat} (hsize : size < 2 ^ 55) :
    Ends (repeatLiterals slot src size) (fun e => e.2 = slot) fun out => out.length = size := by
  unfold repeatLiterals
  cases hget : slot.get with
  | none => exact ends_throw rfl
  | some table =>
    have hsound := hwhole.get hget
    exact (hsound.decodeOneStream_meets hlen (by omega)).ends_mapError fun _ => rfl

/-- No slot is set with a table that was not built to its end. -/
structure Decoder.Whole (d : Decoder) : Prop where
  huf : d.huf.Whole HufTable.Sound
  tables : d.tables.Whole

/-- What a block's literals and sequence sections are: parts of a block, decoded to no more than one
holds. -/
def TableUse.Fits : TableUse → Prop
  | .literals src size _ | .repeatLiterals src size => src.length < 2 ^ 56 ∧ size < 2 ^ 55
  | .sequences _ src at_ => src.length < 2 ^ 56 ∧ at_ ≤ src.length

/-- One use keeps the slots whole, refused or not. -/
theorem Decoder.step_ends (version : Version) {d : Decoder} (h : d.Whole) {use : TableUse}
    (huse : use.Fits) : Ends (d.step version use) (fun e => e.2.Whole) Decoder.Whole := by
  cases use with
  | literals src size singleStream =>
    obtain ⟨hlen, hsize⟩ := huse
    cases version with
    | v07 =>
      refine ((huffmanLiterals_ends hlen hsize singleStream).mapError ?_).bind ?_
      · rintro ⟨e, slot⟩ he
        exact ⟨he.whole h.huf, h.tables⟩
      · rintro ⟨huf, out⟩ ⟨-, hhuf, -⟩
        exact ends_pure ⟨hhuf, h.tables⟩
    | v06 =>
      refine ((huffman_meets hlen hsize _ _ _).ends_mapError fun _ => ⟨h.huf, h.tables⟩).bind ?_
      rintro ⟨own, out⟩ -
      exact ends_pure ⟨h.huf, h.tables⟩
    | v05 =>
      refine ((huffman_meets hlen hsize _ _ _).ends_mapError fun _ => ⟨h.huf, h.tables⟩).bind ?_
      rintro ⟨own, out⟩ -
      exact ends_pure ⟨h.huf, h.tables⟩
  | repeatLiterals src size =>
    obtain ⟨hlen, hsize⟩ := huse
    refine ends_ite (fun _ => ends_throw h) (fun _ => ?_)
    refine ((repeatLiterals_ends h.huf hlen hsize).mapError ?_).bind fun _ _ => ends_pure h
    rintro ⟨e, slot⟩ rfl
    exact h
  | sequences modes src at_ =>
    obtain ⟨hlen, hat⟩ := huse
    cases version with
    | v05 =>
      refine ((fieldTables_ends h.tables hlen modes hat d.repeatTables).mapError
        fun e he => ⟨h.huf, he⟩).bind ?_
      rintro ⟨tables, len⟩ ⟨htables, -⟩
      refine ((SeqTables.all_ends tables).mapError ?_).bind fun _ _ => ends_pure ⟨h.huf, htables⟩
      rintro ⟨e, _⟩ rfl
      exact ⟨h.huf, htables⟩
    | v06 =>
      refine ((seqTables_ends h.tables hlen modes hat d.repeatTables).mapError
        fun e he => ⟨h.huf, he⟩).bind ?_
      rintro ⟨tables, len⟩ ⟨htables, -⟩
      refine ((SeqTables.all_ends tables).mapError ?_).bind fun _ _ => ends_pure ⟨h.huf, htables⟩
      rintro ⟨e, _⟩ rfl
      exact ⟨h.huf, htables⟩
    | v07 =>
      refine ((seqTables_ends h.tables hlen modes hat d.repeatTables).mapError
        fun e he => ⟨h.huf, he⟩).bind ?_
      rintro ⟨tables, len⟩ ⟨htables, -⟩
      refine ((SeqTables.all_ends tables).mapError ?_).bind fun _ _ => ends_pure ⟨h.huf, htables⟩
      rintro ⟨e, _⟩ rfl
      exact ⟨h.huf, htables⟩

theorem Decoder.after_whole (version : Version) {d : Decoder} (h : d.Whole) {use : TableUse}
    (huse : use.Fits) : ∃ d', d.after version use = some d' ∧ d'.Whole := by
  obtain ⟨r, hr, herr, hok⟩ := Decoder.step_ends version h huse
  unfold after
  rw [hr]
  cases r with
  | ok d' => exact ⟨d', rfl, hok d' rfl⟩
  | error e => exact ⟨e.2, rfl, herr e rfl⟩

theorem Decoder.run_whole (version : Version) {uses : List TableUse} {d : Decoder} (h : d.Whole)
    (huses : ∀ use ∈ uses, use.Fits) : ∃ d', run version d uses = some d' ∧ d'.Whole := by
  induction uses generalizing d with
  | nil => exact ⟨d, rfl, h⟩
  | cons use uses ih =>
    obtain ⟨d₁, hd₁, h₁⟩ := after_whole version h (huses use (List.mem_cons_self ..))
    obtain ⟨d', hd', h'⟩ := ih h₁ fun u hu => huses u (List.mem_cons_of_mem _ hu)
    refine ⟨d', ?_, h'⟩
    rw [run, hd₁]
    exact hd'

/-- Legacy entropy parsing ends on every input. -/
theorem legacy_entropy_total :
    (∀ (src : List UInt8) (maxSymbol : Nat), src.length < 2 ^ 56 → maxSymbol ≤ 255 →
      (readDistribution src maxSymbol).run.isSome ∧
      ∀ dist consumed, (readDistribution src maxSymbol).run = some (.ok (dist, consumed)) →
        consumed ≤ src.length ∧
        (¬dist.Overlarge → Fse.weightSum dist.counts = 2 ^ dist.tableLog) ∧
        ∀ table : FseTable,
          (dist.tableLog ≤ 12 → ∃ t, table.build dist = pure t ∧ FseTable.Built dist t) ∧
          (12 < dist.tableLog →
            table.build dist = throw (corrupt "FSE table log too large", table))) ∧
    (∀ (src : List UInt8) (out : List Nat) (limit : Nat) (streamEnd : StreamEnd) (table : FseTable),
      src.length < 2 ^ 56 → out.length = 256 → limit ≤ 255 →
      (fseDecompress src out limit streamEnd table).run.isSome) ∧
    (∀ (src : List UInt8) (streamEnd : StreamEnd) (table : HufTable), src.length < 2 ^ 56 →
      (table.readInto src streamEnd).run.isSome ∧
      ∀ t consumed, (table.readInto src streamEnd).run = some (.ok (t, consumed)) →
        t.Sound ∧ consumed ≤ src.length) ∧
    (∀ (table : HufTable) (src : List UInt8) (n : Nat), table.Sound → src.length < 2 ^ 56 →
      n < 2 ^ 55 → (table.decodeOneStream src n).run.isSome ∧
        (table.decodeFourStreams src n).run.isSome) ∧
    (∀ (version : Version) (uses : List TableUse) (d : Decoder), d.Whole →
      (∀ use ∈ uses, use.Fits) → ∃ d', Decoder.run version d uses = some d' ∧ d'.Whole) := by
  refine ⟨?_, ?_, ?_, ?_, ?_⟩
  · intro src maxSymbol hlen hmax
    have hmeets := readDistribution_meets hmax hlen
    refine ⟨hmeets.isSome, ?_⟩
    intro dist consumed hrun
    obtain ⟨hconsumed, -, hlo, -, hdist⟩ := hmeets.ok hrun
    dsimp only at hconsumed hlo hdist
    refine ⟨hconsumed, ?_, ?_⟩
    · intro hnot
      rcases hdist with hfull | hover
      · exact hfull.sum_eq
      · exact absurd hover hnot
    · intro table
      refine ⟨?_, ?_⟩
      · intro hlog
        rcases hdist with hfull | hover
        · exact FseTable.build_full hfull (by omega) hlog table
        · have := hover.1
          omega
      · intro hlog
        exact if_pos hlog
  · intro src out limit streamEnd table hlen hout hlimit
    exact (fseDecompress_meets hlimit hlen hout streamEnd table).isSome
  · intro src streamEnd table hlen
    have hmeets := HufTable.readInto_meets hlen streamEnd table
    exact ⟨hmeets.isSome, fun t consumed hrun => hmeets.ok hrun⟩
  · intro table src n hsound hlen hn
    exact ⟨(hsound.decodeOneStream_meets hlen (by omega)).isSome,
      (hsound.decodeFourStreams_meets hlen hn).isSome⟩
  · intro version uses d hwhole huses
    exact Decoder.run_whole version hwhole huses

/-- Nothing set yet. -/
def Decoder.empty : Decoder :=
  ⟨⟨.empty, false⟩, .empty, ⟨⟨.empty, false⟩, ⟨.empty, false⟩, ⟨.empty, false⟩⟩, false⟩

/-- A block that sends its tables, one that repeats them, and one refused in its description, after
which the literals have no table to repeat. -/
def tableUses : List TableUse :=
  [.sequences 0 [] 0, .literals [129, 0x11, 0x0B] 2 true, .sequences 0xA8 [] 0,
    .repeatLiterals [0x0B] 2, .literals [0x80] 4 true, .repeatLiterals [0x0B] 2]

/-- Thirty states for one symbol and two below one; three symbols with codes of two bits, two and
one. -/
theorem legacy_entropy_total_samples :
    ((readDistribution [0xF0, 1, 0, 0] 255).run =
        some (.ok (⟨[30, -1, -1] ++ List.replicate 253 0, 2, 5⟩, 2)) ∧
      ∃ t, FseTable.empty.build ⟨[30, -1, -1] ++ List.replicate 253 0, 2, 5⟩ = pure t ∧
        FseTable.Built ⟨[30, -1, -1] ++ List.replicate 253 0, 2, 5⟩ t) ∧
    (fseDecompress [0xF0, 1, 0x40, 0x80] (List.replicate 256 0) 255 .pastStart .empty).run.isSome ∧
    (∃ t, (HufTable.empty.readInto [129, 0x11] .exact).run = some (.ok (t, 2)) ∧ t.Sound ∧
      (t.decodeOneStream [0x0B] 2).run.isSome ∧
      (t.decodeFourStreams [1, 0, 1, 0, 1, 0, 0x0B, 0x0B, 0x0B, 0x0B] 8).run.isSome) ∧
    ∃ d, Decoder.run .v07 .empty tableUses = some d ∧ d.Whole := by
  obtain ⟨hdistribution, hdecompress, hhuffman, hstreams, hruns⟩ := legacy_entropy_total
  refine ⟨?_, ?_, ?_, ?_⟩
  · have hrun : (readDistribution [0xF0, 1, 0, 0] 255).run =
        some (.ok (⟨[30, -1, -1] ++ List.replicate 253 0, 2, 5⟩, 2)) := by decide +kernel
    obtain ⟨-, haccepted⟩ := hdistribution [0xF0, 1, 0, 0] 255 (by decide) le_rfl
    obtain ⟨-, -, hbuild⟩ := haccepted _ _ hrun
    exact ⟨hrun, (hbuild .empty).1 (by decide)⟩
  · exact hdecompress [0xF0, 1, 0x40, 0x80] _ 255 .pastStart .empty (by decide)
      List.length_replicate le_rfl
  · obtain ⟨-, haccepted⟩ := hhuffman [129, 0x11] .exact .empty (by decide)
    have hrun : (HufTable.empty.readInto [129, 0x11] .exact).run =
        some (.ok (⟨2, [(0, 2), (1, 2), (2, 1), (2, 1)], .empty⟩, 2)) := by decide +kernel
    obtain ⟨hsound, -⟩ := haccepted _ _ hrun
    exact ⟨_, hrun, hsound, (hstreams _ [0x0B] 2 hsound (by decide) (by decide)).1,
      (hstreams _ [1, 0, 1, 0, 1, 0, 0x0B, 0x0B, 0x0B, 0x0B] 8 hsound (by decide) (by decide)).2⟩
  · refine hruns .v07 tableUses .empty ?_ ?_
    · exact ⟨Slot.whole_of_unset rfl, Slot.whole_of_unset rfl, Slot.whole_of_unset rfl,
        Slot.whole_of_unset rfl⟩
    · simp [tableUses, TableUse.Fits]

/-- A description of a table of `2 ^ 15` states all of one symbol is accepted with a count of
`-2 ^ 15`, and its table refused. -/
theorem overlarge_description : ∃ dist consumed,
    (readDistribution [0xFA, 0xFF, 0x0F, 0x00] 255).run = some (.ok (dist, consumed)) ∧
      Fse.weightSum dist.counts ≠ 2 ^ dist.tableLog ∧
      FseTable.empty.build dist = throw (corrupt "FSE table log too large", .empty) := by
  refine ⟨⟨(List.replicate 256 0).set 0 (-2 ^ 15), 0, 15⟩, 3, ?_, ?_, ?_⟩
  · decide +kernel
  · decide +kernel
  · exact if_pos (by decide)

end Spec

end Legacy
