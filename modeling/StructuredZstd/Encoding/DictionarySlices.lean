import StructuredZstd.Encoding.DictionaryFill
import StructuredZstd.Encoding.DictionaryBudget

namespace Encoding

open Lz
open MatchGeneratorDriver (primeSliceLen)

section Groups

variable {data more : List UInt8}

theorem readLe_append {idx n : Nat} (h : idx + n ≤ data.length) :
    readLe (data ++ more) idx n = readLe data idx n := by
  unfold readLe
  rw [List.drop_append_of_le_length (by omega), List.take_append_of_le_length]
  rw [List.length_drop]
  omega

theorem hashPtrRaw_append {idx : Nat} (h : idx + hashReadSize ≤ data.length) (mls hashLog : Nat) :
    hashPtrRaw mls (data ++ more) idx hashLog = hashPtrRaw mls data idx hashLog := by
  have h8 : readLe (data ++ more) idx 8 = readLe data idx 8 := readLe_append h
  have h4 : readLe (data ++ more) idx 4 = readLe data idx 4 := by
    apply readLe_append
    simp only [hashReadSize] at h
    omega
  unfold hashPtrRaw
  rw [h8, h4]

namespace FastHashTable

theorem copyGroup_append {s : Nat} (h : s + fillStep < data.length - hashReadSize + 2)
    (hlen : hashReadSize ≤ data.length) (t : FastHashTable) :
    t.copyGroup (data ++ more) s = t.copyGroup data s := by
  have hhash : ∀ (t : FastHashTable) p, p ≤ 2 → t.hashPtr (data ++ more) (s + p) =
      t.hashPtr data (s + p) := by
    intro t p hp
    apply hashPtrRaw_append
    simp only [fillStep, hashReadSize] at *
    omega
  have hfirst : t.hashPtr (data ++ more) s = t.hashPtr data s := hhash t 0 (Nat.zero_le 2)
  unfold copyGroup
  rw [hfirst]
  apply List.foldl_ext
  intro t p hp
  have hle : p ≤ 2 := by
    have hmem := (List.mem_range'_1.mp hp).2
    simp only [fillStep] at hmem
    omega
  rw [hhash t p hle]

theorem dictGroup_append {s : Nat} (h : s + fillStep < data.length - hashReadSize + 2)
    (hlen : hashReadSize ≤ data.length) (mls : Nat) (t : FastHashTable) :
    dictGroup (data ++ more) mls s t = dictGroup data mls s t := by
  have hhash : ∀ (t : FastHashTable) p, p ≤ 2 →
      hashPtrRaw mls (data ++ more) (s + p) (t.hashLog + dictTagBits) =
        hashPtrRaw mls data (s + p) (t.hashLog + dictTagBits) := by
    intro t p hp
    apply hashPtrRaw_append
    simp only [fillStep, hashReadSize] at *
    omega
  have hfirst : hashPtrRaw mls (data ++ more) s (t.hashLog + dictTagBits) =
      hashPtrRaw mls data s (t.hashLog + dictTagBits) := hhash t 0 (Nat.zero_le 2)
  unfold dictGroup
  simp only [hfirst]
  apply List.foldl_ext
  intro t p hp
  have hle : p ≤ 2 := by
    have hmem := (List.mem_range'_1.mp hp).2
    simp only [fillStep] at hmem
    omega
  simp only [hhash t p hle]

/-- A group leaves the table's shape as it is. -/
theorem dictGroup_shape (data : List UInt8) (mls s : Nat) (t : FastHashTable) :
    (dictGroup data mls s t).hashLog = t.hashLog ∧ (dictGroup data mls s t).mls = t.mls := by
  unfold dictGroup
  apply List.foldlRecOn (motive := fun u : FastHashTable => u.hashLog = t.hashLog ∧ u.mls = t.mls)
  · exact ⟨rfl, rfl⟩
  · intro u hu p _
    dsimp only
    split <;> exact hu

end FastHashTable

end Groups

theorem strideFill_shape (data : List UInt8) (mls stop s : Nat) (t : FastHashTable) :
    (strideFill (FastHashTable.dictGroup data mls) fillStep stop s t).1.hashLog = t.hashLog ∧
      (strideFill (FastHashTable.dictGroup data mls) fillStep stop s t).1.mls = t.mls := by
  induction s, t using strideFill.induct (FastHashTable.dictGroup data mls) fillStep stop with
  | case1 s t hgo ih =>
    rw [strideFill_group hgo.1 hgo.2, ih.1, ih.2]
    exact FastHashTable.dictGroup_shape data mls s t
  | case2 s t hgo =>
    rw [strideFill, if_neg hgo]
    exact ⟨rfl, rfl⟩

/-- Filling over a history and going on over a longer one is filling over the longer one. -/
theorem strideFill_append (group : List UInt8 → Nat → FastHashTable → FastHashTable)
    {data : List UInt8} (more : List UInt8)
    (hgroup : ∀ s t, s + fillStep < data.length - hashReadSize + 2 →
      group (data ++ more) s t = group data s t) (s : Nat) (t : FastHashTable) :
    strideFill (group (data ++ more)) fillStep ((data ++ more).length - hashReadSize + 2)
        (strideFill (group data) fillStep (data.length - hashReadSize + 2) s t).2
        (strideFill (group data) fillStep (data.length - hashReadSize + 2) s t).1 =
      strideFill (group (data ++ more)) fillStep ((data ++ more).length - hashReadSize + 2) s t := by
  rw [← strideFill_congr (fun p t hp => hgroup p t hp)]
  apply strideFill_resume (Nat.succ_pos 2)
  rw [List.length_append]
  omega

namespace DictionaryFill

variable {cdictTableLog : Nat → Nat → Nat} {f : DictionaryFill} {dictLen : Nat}

/-- Nothing is staged and nothing waits to be committed. -/
structure Clean (f : DictionaryFill) : Prop where
  staged : f.window.stagedBlock = none
  uncommitted : f.window.uncommittedLen = 0

theorem Clean.live (h : f.Clean) : f.window.live = f.window.history := by
  rw [FastWindow.live, FastWindow.committedLen, h.uncommitted, Nat.sub_zero, List.take_length]

theorem Clean.committedLen (h : f.Clean) : f.window.committedLen = f.window.history.length := by
  rw [FastWindow.committedLen, h.uncommitted, Nat.sub_zero]

/-- The matcher with a chunk committed and taken, before any of it is indexed. -/
def appended (f : DictionaryFill) (chunk : List UInt8) : DictionaryFill :=
  { f with
    matcher := { f.matcher with
      window := { f.window with
        history := f.window.history ++ chunk
        uncommittedLen := 0
        stagedBlock := none
        lastBlockStart := f.window.history.length
        uncommittedLen_le := Nat.zero_le _ }
      tablePosHighWater :=
        max f.matcher.tablePosHighWater (f.window.history.length + chunk.length) } }

@[simp] theorem appended_hashTable (f : DictionaryFill) (chunk : List UInt8) :
    (f.appended chunk).matcher.hashTable = f.matcher.hashTable := rfl

@[simp] theorem appended_dictIndexFloor (f : DictionaryFill) (chunk : List UInt8) :
    (f.appended chunk).window.dictIndexFloor = f.window.dictIndexFloor := rfl

@[simp] theorem setDict_hashTable (f : DictionaryFill) (dict : DictAttach × Option FastHashTable) :
    (f.setDict dict).matcher.hashTable = f.matcher.hashTable := rfl

@[simp] theorem setDict_dict (f : DictionaryFill) (dict : DictAttach × Option FastHashTable) :
    (f.setDict dict).window.dict = dict.1 := rfl

@[simp] theorem setDict_dictIndexFloor (f : DictionaryFill)
    (dict : DictAttach × Option FastHashTable) :
    (f.setDict dict).window.dictIndexFloor = f.window.dictIndexFloor := rfl

@[simp] theorem setDict_committedLen (f : DictionaryFill)
    (dict : DictAttach × Option FastHashTable) :
    (f.setDict dict).window.committedLen = f.window.committedLen := rfl

theorem appended_clean (f : DictionaryFill) (chunk : List UInt8) : (f.appended chunk).Clean :=
  ⟨rfl, rfl⟩

/-- The start of the newest block forgotten: only a search of that block reads it. -/
def forget (f : DictionaryFill) : DictionaryFill :=
  f.setWindow { f.window with lastBlockStart := 0 }

theorem appended_appended (f : DictionaryFill) (a b : List UInt8) :
    ((f.appended a).appended b).forget = (f.appended (a ++ b)).forget := by
  have hhigh : max (max f.matcher.tablePosHighWater (f.window.history.length + a.length))
      ((f.window.history ++ a).length + b.length) =
      max f.matcher.tablePosHighWater (f.window.history.length + (a ++ b).length) := by
    rw [List.length_append, List.length_append]
    omega
  simp only [window] at hhigh
  simp only [appended, forget, setWindow, window, hhigh, List.append_assoc]

theorem commitBlock_filled (h : f.Clean) {chunk : List UInt8}
    (hroom : f.window.history.length + chunk.length ≤ f.window.maxWindowSize * 2) :
    (f.window.fillUncommitted chunk).commitBlock chunk.length =
        some ((f.window.fillUncommitted chunk).stage chunk.length, 0) ∧
      (f.window.fillUncommitted chunk).evictedBy chunk.length = 0 := by
  have hreal : (f.window.fillUncommitted chunk).realLen = f.window.history.length := by
    simp [FastWindow.realLen, FastWindow.committedLen, FastWindow.fillUncommitted, historyDrainBase,
      h.uncommitted]
  have hevicted : (f.window.fillUncommitted chunk).evictedBy chunk.length = 0 := by
    have hmax : (f.window.fillUncommitted chunk).maxWindowSize = f.window.maxWindowSize := rfl
    rw [FastWindow.evictedBy, hreal, hmax, if_neg (by omega)]
  refine ⟨?_, hevicted⟩
  have hgo : ¬ ((f.window.fillUncommitted chunk).stagedBlock.isSome ∨
      (f.window.fillUncommitted chunk).uncommittedLen < chunk.length ∨
      (f.window.fillUncommitted chunk).maxWindowSize * 2 < chunk.length) := by
    simp only [FastWindow.fillUncommitted, h.staged, h.uncommitted, Option.isSome_none,
      Bool.false_eq_true, Nat.zero_add, Nat.lt_irrefl, false_or, not_lt]
    exact Nat.le_trans (Nat.le_add_left _ _) hroom
  unfold FastWindow.commitBlock
  rw [if_neg hgo]
  simp only [hevicted, Nat.lt_irrefl, gt_iff_lt, if_false]

/-- The committed slice taken. -/
theorem takeStagedBlock_committed (h : f.Clean) {chunk : List UInt8}
    (hroom : f.window.history.length + chunk.length ≤ f.window.maxWindowSize * 2) :
    ((f.setWindow (f.window.fillUncommitted chunk)).commitBlock chunk.length).bind takeStagedBlock =
      some (f.appended chunk) := by
  obtain ⟨hcommit, hevicted⟩ := commitBlock_filled h hroom
  have hmatcher : (f.setWindow (f.window.fillUncommitted chunk)).matcher.commitBlock chunk.length =
      some { f.matcher with window := (f.window.fillUncommitted chunk).stage chunk.length } := by
    unfold FastKernelMatcher.commitBlock
    rw [show (f.setWindow (f.window.fillUncommitted chunk)).matcher.window =
      f.window.fillUncommitted chunk from rfl, hcommit]
    rfl
  have hstaged : (f.setWindow (f.window.fillUncommitted chunk)).commitBlock chunk.length =
      some (f.setWindow ((f.window.fillUncommitted chunk).stage chunk.length)) := by
    unfold commitBlock
    rw [hmatcher, show (f.setWindow (f.window.fillUncommitted chunk)).window =
      f.window.fillUncommitted chunk from rfl, hevicted]
    rfl
  rw [hstaged]
  have hzero : f.matcher.window.uncommittedLen = 0 := h.uncommitted
  simp [takeStagedBlock, FastKernelMatcher.takeStagedBlock, FastWindow.takeStagedBlock, setWindow,
    FastWindow.stage, FastWindow.fillUncommitted, appended, window, FastWindow.committedLen, hzero]

theorem takeStagedBlock_setDict (dict : DictAttach × Option FastHashTable) :
    (f.setDict dict).takeStagedBlock = f.takeStagedBlock.map (·.setDict dict) := by
  unfold takeStagedBlock FastKernelMatcher.takeStagedBlock FastWindow.takeStagedBlock
  cases hstaged : f.matcher.window.stagedBlock with
  | none => simp [setDict, setWindow, window, hstaged]
  | some len =>
    simp only [setDict, setWindow, window, hstaged, Option.map_some]
    rfl

/-- The dictionary's boundary past a slice of a copied dictionary. -/
def markLoaded (f : DictionaryFill) : DictionaryFill :=
  f.setWindow { f.window with loadedDictEnd := f.window.committedLen }

/-- A slice that evicts nothing: the chunk appended, then indexed. -/
theorem primeSlice_eq (h : f.Clean) {chunk : List UInt8}
    (hroom : f.window.history.length + chunk.length ≤ f.window.maxWindowSize * 2)
    (attach : Bool) :
    f.primeSlice cdictTableLog attach dictLen chunk =
      if attach then
        ((f.appended chunk).filledDict cdictTableLog dictLen).map (f.appended chunk).setDict
      else
        some (((f.appended chunk).setLive (f.appended chunk).filledLive).setDict
          (DictAttach.new, none)).markLoaded := by
  have htaken := takeStagedBlock_committed h hroom
  unfold primeSlice
  cases attach with
  | true =>
    obtain ⟨g, hg, htake⟩ := Option.bind_eq_some_iff.mp htaken
    simp only [hg, Option.bind_some, if_true, skipMatchingForDictPrime, htake,
      primeDictTableForRange]
  | false =>
    obtain ⟨g, hg, htake⟩ := Option.bind_eq_some_iff.mp htaken
    simp only [hg, Option.bind_some, Bool.false_eq_true, if_false, skipMatchingForDictCopy,
      takeStagedBlock_setDict, htake, Option.map_some]
    rfl

/-- The width the dictionary's own table is to have. -/
def dictHashLog (f : DictionaryFill) (cdictTableLog : Nat → Nat → Nat) (dictLen : Nat) : Nat :=
  f.dictTableHashLog.getD (cdictTableLog f.matcher.hashTable.hashLog dictLen)

/-- The dictionary's state a fill starts from: a table of another shape is dropped. -/
def readied (f : DictionaryFill) (hashLog : Nat) : DictAttach × Option FastHashTable :=
  let stale := f.dictTable.any fun t => t.hashLog != hashLog || t.mls != f.matcher.hashTable.mls
  (if stale then { DictAttach.new with regionLen := f.window.committedLen }
    else { f.window.dict with regionLen := f.window.committedLen },
    (if stale then none else f.dictTable).or (FastHashTable.new hashLog f.matcher.hashTable.mls))

/-- A table of the wanted shape is kept. -/
theorem readied_kept {hashLog : Nat} {t : FastHashTable} (htable : f.dictTable = some t)
    (hlog : t.hashLog = hashLog) (hmls : t.mls = f.matcher.hashTable.mls) :
    f.readied hashLog = ({ f.window.dict with regionLen := f.window.committedLen }, some t) := by
  unfold readied
  simp [htable, hlog, hmls]

/-- Whatever a fill starts from has the wanted shape. -/
theorem readied_shape {hashLog : Nat} {t : FastHashTable} (h : (f.readied hashLog).2 = some t) :
    t.hashLog = hashLog ∧ t.mls = f.matcher.hashTable.mls := by
  have hnew : ∀ u, FastHashTable.new hashLog f.matcher.hashTable.mls = some u →
      u.hashLog = hashLog ∧ u.mls = f.matcher.hashTable.mls := by
    intro u hu
    unfold FastHashTable.new at hu
    split at hu <;> cases hu
    exact ⟨rfl, rfl⟩
  simp only [readied] at h
  split at h
  · exact hnew t h
  · rename_i hfresh
    cases htable : f.dictTable with
    | none =>
      rw [htable] at h
      exact hnew t h
    | some u =>
      rw [htable] at h hfresh
      cases h
      simpa using hfresh

theorem readied_dict (f : DictionaryFill) (hashLog : Nat) :
    (f.readied hashLog).1 = { DictAttach.new with regionLen := f.window.committedLen } ∨
      (f.readied hashLog).1 = { f.window.dict with regionLen := f.window.committedLen } := by
  unfold readied
  dsimp only
  split
  · exact .inl rfl
  · exact .inr rfl

theorem readied_appended (f : DictionaryFill) (b : List UInt8) (hashLog : Nat) :
    (f.appended b).readied hashLog =
      ({ (f.readied hashLog).1 with regionLen := (f.appended b).window.committedLen },
        (f.readied hashLog).2) := by
  have hdict : (f.appended b).window.dict = f.window.dict := rfl
  have htable : (f.appended b).dictTable = f.dictTable := rfl
  have hmls : (f.appended b).matcher.hashTable = f.matcher.hashTable := rfl
  simp only [readied, hdict, htable, hmls]
  split <;> rfl

/-- A fill that does not return early. -/
theorem filledDict_eq (cdictTableLog : Nat → Nat → Nat) (dictLen : Nat) {data : List UInt8}
    (hlive : f.window.live = data)
    (hlen : f.window.committedLen = data.length) (hprimed : f.window.dict.primed = false)
    (hlong : hashReadSize ≤ data.length)
    (hstart : max f.window.dict.nextToUpdate f.window.dictIndexFloor ≤
      data.length - hashReadSize) :
    f.filledDict cdictTableLog dictLen =
      (f.readied (f.dictHashLog cdictTableLog dictLen)).2.bind fun t =>
        if t.hashLog + dictTagBits ≤ 32 ∧
            (data.length - hashReadSize) >>> (32 - dictTagBits) = 0 then
          let dict := (f.readied (f.dictHashLog cdictTableLog dictLen)).1
          let filled := strideFill (FastHashTable.dictGroup data f.matcher.hashTable.mls) fillStep
            (data.length - hashReadSize + 2) (max dict.nextToUpdate f.window.dictIndexFloor) t
          some ({ dict with attached := true, nextToUpdate := filled.2 }, some filled.1)
        else none := by
  have hgo : ¬ (f.window.dict.primed = true ∨ data.length < hashReadSize ∨
      data.length - hashReadSize < max f.window.dict.nextToUpdate f.window.dictIndexFloor) := by
    simp only [hprimed, Bool.false_eq_true, false_or, not_or, not_lt]
    exact ⟨hlong, hstart⟩
  unfold filledDict
  simp only [hlen, hlive]
  rw [if_neg hgo]
  simp only [readied, dictHashLog, hlen]
  rfl

/-- The dictionary's own table after a slice and a second one is the table after both as one. -/
theorem filledDict_append {a b : List UInt8} (hb : 0 < b.length) :
    ((f.appended a).filledDict cdictTableLog dictLen).bind (fun dict =>
        (((f.appended a).appended b).setDict dict).filledDict cdictTableLog dictLen) =
      ((f.appended a).appended b).filledDict cdictTableLog dictLen := by
  have hlive : (f.appended a).window.live = f.window.history ++ a := (appended_clean f a).live
  have hlen : (f.appended a).window.committedLen = (f.window.history ++ a).length :=
    (appended_clean f a).committedLen
  have hlive' : ((f.appended a).appended b).window.live = f.window.history ++ a ++ b :=
    (appended_clean _ b).live
  have hlen' : ((f.appended a).appended b).window.committedLen =
      (f.window.history ++ a ++ b).length := (appended_clean _ b).committedLen
  have hmore : (f.window.history ++ a ++ b).length = (f.window.history ++ a).length + b.length :=
    List.length_append
  generalize f.window.history ++ a = data at *
  by_cases hearly : f.window.dict.primed = true ∨ data.length < hashReadSize ∨
      data.length - hashReadSize < max f.window.dict.nextToUpdate f.window.dictIndexFloor
  · -- nothing of the first slice is indexed
    have hfirst : (f.appended a).filledDict cdictTableLog dictLen =
        some ({ f.window.dict with regionLen := data.length }, f.dictTable) := by
      unfold filledDict
      simp only [hlen]
      exact if_pos hearly
    rw [hfirst]
    rfl
  · obtain ⟨hprimed, hearly⟩ := not_or.mp hearly
    obtain ⟨hlong, hstart⟩ := not_or.mp hearly
    have hprimed := Bool.not_eq_true _ ▸ hprimed
    have hlong : hashReadSize ≤ data.length := Nat.not_lt.mp hlong
    have hstart := Nat.not_lt.mp hstart
    have hfirst : (f.appended a).filledDict cdictTableLog dictLen = _ :=
      filledDict_eq cdictTableLog dictLen hlive hlen hprimed hlong hstart
    have hboth : ((f.appended a).appended b).filledDict cdictTableLog dictLen = _ :=
      filledDict_eq cdictTableLog dictLen hlive' hlen' hprimed (by omega)
        (show max f.window.dict.nextToUpdate f.window.dictIndexFloor ≤ _ by omega)
    have hready := readied_appended (f.appended a) b
      (((f.appended a).appended b).dictHashLog cdictTableLog dictLen)
    have hhash : ((f.appended a).appended b).dictHashLog cdictTableLog dictLen =
      (f.appended a).dictHashLog cdictTableLog dictLen := rfl
    rw [hfirst, hboth, hready, hhash]
    simp only [appended_hashTable, appended_dictIndexFloor]
    generalize hwidth : (f.appended a).dictHashLog cdictTableLog dictLen = hashLog at *
    cases htable : ((f.appended a).readied hashLog).2 with
    | none => rfl
    | some t =>
      have hshape := readied_shape htable
      have hdict : ((f.appended a).readied hashLog).1.primed = false ∧
          max ((f.appended a).readied hashLog).1.nextToUpdate f.window.dictIndexFloor ≤
            data.length - hashReadSize := by
        cases readied_dict (f.appended a) hashLog with
        | inl h =>
          rw [h]
          exact ⟨rfl, Nat.le_trans (max_le_max_right _ (Nat.zero_le _)) hstart⟩
        | inr h =>
          rw [h]
          exact ⟨hprimed, hstart⟩
      generalize ((f.appended a).readied hashLog).1 = dict at *
      obtain ⟨hdictPrimed, hdictStart⟩ := hdict
      have hbounds := strideFill_bounds (FastHashTable.dictGroup data f.matcher.hashTable.mls)
        fillStep (data.length - hashReadSize + 2)
        (max dict.nextToUpdate f.window.dictIndexFloor) t
      have hkeeps := strideFill_shape data f.matcher.hashTable.mls
        (data.length - hashReadSize + 2) (max dict.nextToUpdate f.window.dictIndexFloor) t
      have happend := strideFill_append
        (fun d => FastHashTable.dictGroup d f.matcher.hashTable.mls) b
        (fun s t hs => FastHashTable.dictGroup_append hs hlong f.matcher.hashTable.mls t)
        (max dict.nextToUpdate f.window.dictIndexFloor) t
      simp only [Option.bind_some]
      by_cases hfits : t.hashLog + dictTagBits ≤ 32 ∧
          (data.length - hashReadSize) >>> (32 - dictTagBits) = 0
      · rw [if_pos hfits]
        generalize strideFill (FastHashTable.dictGroup data f.matcher.hashTable.mls) fillStep
          (data.length - hashReadSize + 2) (max dict.nextToUpdate f.window.dictIndexFloor) t =
          filled at *
        have hresume : max filled.2 f.window.dictIndexFloor = filled.2 := by omega
        have hsecond := filledDict_eq cdictTableLog dictLen
          (f := ((f.appended a).appended b).setDict
            ({ dict with attached := true, nextToUpdate := filled.2 }, some filled.1))
          hlive' hlen' hdictPrimed (by omega)
          (show max filled.2 f.window.dictIndexFloor ≤ _ by omega)
        have hkept := readied_kept
          (f := ((f.appended a).appended b).setDict
            ({ dict with attached := true, nextToUpdate := filled.2 }, some filled.1))
          rfl (hkeeps.1.trans hshape.1) (hkeeps.2.trans hshape.2)
        rw [show (((f.appended a).appended b).setDict
            ({ dict with attached := true, nextToUpdate := filled.2 }, some filled.1)).dictHashLog
              cdictTableLog dictLen = hashLog from hwidth, hkept] at hsecond
        simp only [setDict_dict, setDict_dictIndexFloor, setDict_committedLen, setDict_hashTable,
          appended_hashTable, appended_dictIndexFloor, Option.bind_some, hresume, happend]
          at hsecond ⊢
        rw [hsecond, hkeeps.1]
      · have hfits' : ¬ (t.hashLog + dictTagBits ≤ 32 ∧
            ((data ++ b).length - hashReadSize) >>> (32 - dictTagBits) = 0) := by
          intro h
          apply hfits
          refine ⟨h.1, ?_⟩
          rw [Nat.shiftRight_eq_div_pow, Nat.div_eq_zero_iff_lt (Nat.two_pow_pos _)] at h ⊢
          omega
        rw [if_neg hfits, if_neg hfits']
        rfl

theorem filledLive_eq {data : List UInt8} {s : Nat} (hlive : f.window.live = data)
    (hlen : f.window.committedLen = data.length)
    (hs : max f.matcher.dictCopyFillNext f.window.dictIndexFloor = s)
    (hlong : hashReadSize ≤ data.length) (hstart : s ≤ data.length - hashReadSize) :
    f.filledLive = strideFill (FastHashTable.copyGroup data) fillStep
      (data.length - hashReadSize + 2) s f.matcher.hashTable := by
  subst hs
  unfold filledLive
  rw [hlen, hlive]
  exact if_neg (not_or.mpr ⟨Nat.not_lt.mpr hlong, Nat.not_lt.mpr hstart⟩)

/-- The live table after a slice and a second one is the table after both as one. -/
theorem filledLive_append {a b : List UInt8} (hb : 0 < b.length) :
    (((f.appended a).appended b).setLive (f.appended a).filledLive).filledLive =
      ((f.appended a).appended b).filledLive := by
  have hlive : (f.appended a).window.live = f.window.history ++ a := (appended_clean f a).live
  have hlen : (f.appended a).window.committedLen = (f.window.history ++ a).length :=
    (appended_clean f a).committedLen
  have hlive' : ((f.appended a).appended b).window.live = f.window.history ++ a ++ b :=
    (appended_clean _ b).live
  have hlen' : ((f.appended a).appended b).window.committedLen =
      (f.window.history ++ a ++ b).length := (appended_clean _ b).committedLen
  generalize f.window.history ++ a = data at *
  by_cases hearly : data.length < hashReadSize ∨
      data.length - hashReadSize < max f.matcher.dictCopyFillNext f.window.dictIndexFloor
  · have hfirst : (f.appended a).filledLive =
        (f.matcher.hashTable, f.matcher.dictCopyFillNext) := by
      unfold filledLive
      rw [hlen]
      exact if_pos hearly
    rw [hfirst]
    rfl
  · obtain ⟨hlong, hstart⟩ := not_or.mp hearly
    have hlong : hashReadSize ≤ data.length := Nat.not_lt.mp hlong
    have hstart := Nat.not_lt.mp hstart
    have hfirst := filledLive_eq hlive hlen rfl hlong hstart
    have hbounds := strideFill_bounds (FastHashTable.copyGroup data) fillStep
      (data.length - hashReadSize + 2) (max f.matcher.dictCopyFillNext f.window.dictIndexFloor)
      f.matcher.hashTable
    have happend := strideFill_append FastHashTable.copyGroup b
      (fun s t hs => FastHashTable.copyGroup_append hs hlong t)
      (max f.matcher.dictCopyFillNext f.window.dictIndexFloor) f.matcher.hashTable
    have hfirst : (f.appended a).filledLive = strideFill (FastHashTable.copyGroup data) fillStep
      (data.length - hashReadSize + 2) (max f.matcher.dictCopyFillNext f.window.dictIndexFloor)
      f.matcher.hashTable := hfirst
    rw [hfirst]
    generalize strideFill (FastHashTable.copyGroup data) fillStep
      (data.length - hashReadSize + 2) (max f.matcher.dictCopyFillNext f.window.dictIndexFloor)
      f.matcher.hashTable = filled at *
    have hmore : (data ++ b).length = data.length + b.length := List.length_append
    have hresume : max filled.2 f.window.dictIndexFloor = filled.2 := by omega
    have hleft : (((f.appended a).appended b).setLive filled).filledLive = _ :=
      filledLive_eq hlive' hlen' hresume (by omega) (by omega)
    have hright : ((f.appended a).appended b).filledLive = _ :=
      filledLive_eq hlive' hlen' rfl (by omega)
        (show max f.matcher.dictCopyFillNext f.window.dictIndexFloor ≤ _ by omega)
    rw [hleft, hright]
    exact happend

@[simp] theorem setDict_setDict (f : DictionaryFill) (d d' : DictAttach × Option FastHashTable) :
    (f.setDict d).setDict d' = f.setDict d' := rfl

theorem setDict_appended (f : DictionaryFill) (d : DictAttach × Option FastHashTable)
    (chunk : List UInt8) : (f.setDict d).appended chunk = (f.appended chunk).setDict d := rfl

theorem forget_setDict (f : DictionaryFill) (d : DictAttach × Option FastHashTable) :
    (f.setDict d).forget = f.forget.setDict d := rfl

theorem filledDict_forget (f : DictionaryFill) :
    f.forget.filledDict cdictTableLog dictLen = f.filledDict cdictTableLog dictLen := rfl

theorem filledLive_forget (f : DictionaryFill) : f.forget.filledLive = f.filledLive := rfl

/-- Two slices are the two as one. -/
theorem primeSlice_append (h : f.Clean) {a b : List UInt8} (hb : 0 < b.length)
    (hroom : f.window.history.length + (a ++ b).length ≤ f.window.maxWindowSize * 2)
    (attach : Bool) :
    ((f.primeSlice cdictTableLog attach dictLen a).bind fun g =>
        (g.primeSlice cdictTableLog attach dictLen b).map forget) =
      (f.primeSlice cdictTableLog attach dictLen (a ++ b)).map forget := by
  have hlength : (a ++ b).length = a.length + b.length := List.length_append
  have hroomA : f.window.history.length + a.length ≤ f.window.maxWindowSize * 2 := by omega
  have hroomB : (f.window.history ++ a).length + b.length ≤ f.window.maxWindowSize * 2 := by
    rw [List.length_append]
    omega
  have hboth := appended_appended f a b
  rw [primeSlice_eq h hroomA, primeSlice_eq h hroom]
  cases attach with
  | true =>
    have hdict : (f.appended (a ++ b)).filledDict cdictTableLog dictLen =
        ((f.appended a).appended b).filledDict cdictTableLog dictLen := by
      rw [← filledDict_forget, ← hboth, filledDict_forget]
    have hsecond : ∀ d, ((f.appended a).setDict d).primeSlice cdictTableLog true dictLen b = _ :=
      fun d => primeSlice_eq (f := (f.appended a).setDict d) ⟨rfl, rfl⟩ hroomB true
    simp only [if_true, Option.bind_map, Function.comp_def, hsecond, Option.map_map,
      setDict_appended, setDict_setDict, forget_setDict, hboth]
    rw [hdict, ← filledDict_append hb, Option.map_bind]
    rfl
  | false =>
    have hlive : (f.appended (a ++ b)).filledLive = ((f.appended a).appended b).filledLive := by
      rw [← filledLive_forget, ← hboth, filledLive_forget]
    have hsecond : ((((f.appended a).setLive (f.appended a).filledLive).setDict
        (DictAttach.new, none)).markLoaded).primeSlice cdictTableLog false dictLen b = _ :=
      primeSlice_eq (f := (((f.appended a).setLive (f.appended a).filledLive).setDict
        (DictAttach.new, none)).markLoaded) ⟨rfl, rfl⟩ hroomB false
    simp only [Bool.false_eq_true, if_false, Option.bind_some, Option.map_some] at hsecond ⊢
    rw [hsecond, hlive, ← filledLive_append hb]
    have hlast := congrArg (fun g => (((g.setLive (((f.appended a).appended b).setLive
      (f.appended a).filledLive).filledLive).setDict (DictAttach.new, none)).markLoaded)) hboth
    exact congrArg some hlast

/-- What a slice leaves of the window. -/
theorem primeSlice_window (h : f.Clean) {chunk : List UInt8}
    (hroom : f.window.history.length + chunk.length ≤ f.window.maxWindowSize * 2)
    {attach : Bool} {g : DictionaryFill}
    (hg : f.primeSlice cdictTableLog attach dictLen chunk = some g) :
    g.Clean ∧ g.window.history = f.window.history ++ chunk ∧
      g.window.maxWindowSize = f.window.maxWindowSize := by
  rw [primeSlice_eq h hroom] at hg
  cases attach with
  | true =>
    obtain ⟨dict, -, rfl⟩ := Option.map_eq_some_iff.mp hg
    exact ⟨⟨rfl, rfl⟩, rfl, rfl⟩
  | false =>
    cases hg
    exact ⟨⟨rfl, rfl⟩, rfl, rfl⟩

/-- Any run of slices is the one slice of them all. -/
theorem foldlM_primeSlice {attach : Bool} {cuts : List (List UInt8)} (h : f.Clean)
    (hne : cuts ≠ []) (hpos : ∀ c ∈ cuts, 0 < c.length)
    (hroom : f.window.history.length + cuts.flatten.length ≤ f.window.maxWindowSize * 2) :
    (cuts.foldlM (fun (f : DictionaryFill) c => f.primeSlice cdictTableLog attach dictLen c)
        f).map forget =
      (f.primeSlice cdictTableLog attach dictLen cuts.flatten).map forget := by
  induction cuts generalizing f with
  | nil => exact absurd rfl hne
  | cons c cuts ih =>
    cases cuts with
    | nil =>
      simp only [List.foldlM_cons, List.foldlM_nil, List.flatten_singleton, bind_pure]
    | cons c' rest =>
      have hflat : (c :: c' :: rest).flatten = c ++ (c' :: rest).flatten := List.flatten_cons
      have hlater : 0 < (c' :: rest).flatten.length := by
        have hc' := hpos c' (.tail c (.head rest))
        rw [List.flatten_cons, List.length_append]
        omega
      rw [hflat] at hroom ⊢
      rw [List.length_append] at hroom
      rw [List.foldlM_cons, ← primeSlice_append h hlater (by rw [List.length_append]; omega)]
      refine (Option.map_bind).trans (Option.bind_congr ?_)
      intro g hg
      obtain ⟨hclean, hhistory, hmax⟩ := primeSlice_window h (by omega) hg
      apply ih hclean (List.cons_ne_nil _ _) (fun x hx => hpos x (.tail c hx))
      rw [hhistory, hmax, List.length_append]
      omega

end DictionaryFill

section Cuts

variable {sliceSize minTail : Nat}

/-- A cut neither is too short nor leaves too little. -/
theorem primeSliceLen_spec {left : Nat} (hslice : minTail ≤ sliceSize) (hleft : minTail ≤ left) :
    ∃ len, primeSliceLen sliceSize minTail left = some len ∧ minTail ≤ len ∧ len ≤ left ∧
      (left - len = 0 ∨ minTail ≤ left - len) := by
  unfold primeSliceLen
  split
  · exact ⟨left, rfl, hleft, Nat.le_refl _, .inl (Nat.sub_self _)⟩
  · split
    · rw [if_neg (Nat.not_lt.mpr hleft)]
      split
      · exact ⟨_, rfl, by omega, by omega, .inr (by omega)⟩
      · exact ⟨left, rfl, hleft, Nat.le_refl _, .inl (Nat.sub_self _)⟩
    · exact ⟨sliceSize, rfl, hslice, by omega, .inr (by omega)⟩

/-- The cuts of a dictionary that can be hashed: every byte once, in order, none too short. -/
theorem primeCuts_tile (rest : List UInt8) (hpos : 0 < minTail) (hslice : minTail ≤ sliceSize)
    (hrest : rest = [] ∨ minTail ≤ rest.length) :
    ∃ cuts, primeCuts sliceSize minTail rest = some cuts ∧ cuts.flatten = rest ∧
      ∀ c ∈ cuts, minTail ≤ c.length := by
  induction hn : rest.length using Nat.strongRecOn generalizing rest with
  | ind n ih =>
    rw [primeCuts]
    by_cases hnil : rest = []
    · exact ⟨[], if_pos hnil, hnil.symm, fun c hc => absurd hc List.not_mem_nil⟩
    · have hleft : minTail ≤ rest.length := hrest.resolve_left hnil
      obtain ⟨len, hlen, hmin, hle, hback⟩ := primeSliceLen_spec hslice hleft
      have hdrop : (rest.drop len).length = rest.length - len := List.length_drop
      obtain ⟨cuts, hcuts, hflat, hall⟩ := ih (rest.drop len).length (by omega) (rest.drop len)
        (hback.imp (fun h => List.eq_nil_of_length_eq_zero (hdrop.trans h))
          (fun h => hdrop.symm ▸ h)) rfl
      refine ⟨rest.take len :: cuts, ?_, ?_, ?_⟩
      · rw [if_neg hnil, hlen]
        dsimp only
        rw [dif_neg (by omega), hcuts]
        rfl
      · rw [List.flatten_cons, hflat, List.take_append_drop]
      · intro c hc
        cases hc with
        | head => rw [List.length_take]; omega
        | tail _ hc => exact hall c hc

end Cuts

namespace DictionaryFill

variable {cdictTableLog : Nat → Nat → Nat} {f : DictionaryFill} {dictLen : Nat}

theorem primeSlices_eq_foldlM {attach : Bool} {sliceSize : Nat} {rest : List UInt8}
    {cuts : List (List UInt8)} (h : primeCuts sliceSize fastMinPrimedTail rest = some cuts) :
    f.primeSlices cdictTableLog attach dictLen sliceSize rest =
      cuts.foldlM (fun f c => f.primeSlice cdictTableLog attach dictLen c) f := by
  induction hn : rest.length using Nat.strongRecOn generalizing rest cuts f with
  | ind n ih =>
    rw [primeCuts] at h
    rw [primeSlices]
    split at h
    · rename_i hnil
      cases h
      rw [if_pos hnil]
      rfl
    · rename_i hnil
      rw [if_neg hnil]
      cases hlen : MatchGeneratorDriver.primeSliceLen sliceSize fastMinPrimedTail rest.length with
      | none => simp only [hlen, reduceCtorEq] at h
      | some len =>
        simp only [hlen] at h ⊢
        split at h
        · cases h
        · rename_i hlong
          obtain ⟨tail, htail, rfl⟩ := Option.map_eq_some_iff.mp h
          have hne : 0 < rest.length := List.length_pos_iff.mpr hnil
          rw [dif_neg (by omega), List.foldlM_cons]
          refine Option.bind_congr ?_
          intro g _
          exact ih (rest.drop len).length (by rw [List.length_drop]; omega) htail rfl

/-- Nothing above the slices reads where the newest block starts. -/
theorem map_forget_congr {a b : Option DictionaryFill} (h : a.map forget = b.map forget)
    {finish : DictionaryFill → DictionaryFill} (hfinish : ∀ g, (finish g).forget = finish g.forget) :
    (a.map finish).map forget = (b.map finish).map forget := by
  have hswap : ∀ o : Option DictionaryFill, (o.map finish).map forget = (o.map forget).map finish := by
    intro o
    simp only [Option.map_map, Function.comp_def, hfinish]
  rw [hswap, hswap, h]

/-- The matcher as its dictionary's slices find it. -/
def widened (f : DictionaryFill) (reachLog dictLen : Nat) : DictionaryFill :=
  let floored := f.setWindow { f.window with dictIndexFloor := dictLen - 1 <<< reachLog }
  { floored with matcher := floored.matcher.widenForDictionary dictLen }

/-- Slices of any size leave what the content as one slice leaves. -/
theorem primeSlices_agree {attach : Bool} {sliceSize : Nat} {content : List UInt8}
    (h : f.Clean) (hslice : fastMinPrimedTail ≤ sliceSize)
    (hlong : fastMinPrimedTail ≤ content.length)
    (hroom : f.window.history.length + content.length ≤ f.window.maxWindowSize * 2) :
    (f.primeSlices cdictTableLog attach dictLen sliceSize content).map forget =
      (f.primeSlices cdictTableLog attach dictLen content.length content).map forget := by
  have hrun : ∀ size, fastMinPrimedTail ≤ size →
      (f.primeSlices cdictTableLog attach dictLen size content).map forget =
        (f.primeSlice cdictTableLog attach dictLen content).map forget := by
    intro size hsize
    obtain ⟨cuts, hcuts, hflat, hall⟩ := primeCuts_tile content (Nat.succ_pos 4) hsize (.inr hlong)
    have hne : cuts ≠ [] := by
      rintro rfl
      rw [← hflat, List.flatten_nil, List.length_nil] at hlong
      exact absurd hlong (by decide)
    rw [primeSlices_eq_foldlM hcuts, foldlM_primeSlice h hne ?_ (hflat.symm ▸ hroom), hflat]
    intro c hc
    exact Nat.lt_of_lt_of_le (Nat.succ_pos 4) (hall c hc)
  rw [hrun sliceSize hslice, hrun content.length hlong]

end DictionaryFill

namespace MatchGeneratorDriver

variable {d d' : MatchGeneratorDriver}

theorem primeSlice_keeps {chunk : List UInt8} (h0 : d.dictionaryRetainedBudget = 0)
    (hd : d.primeSlice chunk = some d') :
    d'.dictionaryRetainedBudget = 0 ∧ d'.sliceSize = d.sliceSize ∧
      d'.storage.minPrimedTail = d.storage.minPrimedTail := by
  obtain ⟨d₁, hfill, hd⟩ := Option.bind_eq_some_iff.mp hd
  rw [fillInPlace, Option.map_eq_some_iff] at hfill
  obtain ⟨s₁, hs₁, rfl⟩ := hfill
  obtain ⟨d₂, hcommit, hd⟩ := Option.bind_eq_some_iff.mp hd
  obtain ⟨s₂, e, hs₂, rfl⟩ := commitFilled_of_unbudgeted hcommit h0
  obtain ⟨s₃, hs₃, rfl⟩ := Option.map_eq_some_iff.mp hd
  have hf := MatcherStorage.fillInPlace_spec hs₁
  obtain ⟨hc, -⟩ := MatcherStorage.commitBlock_committed hs₂
  obtain ⟨hi, -⟩ := MatcherStorage.indexDictionarySlice_spec hs₃
  exact ⟨h0, rfl, MatcherStorage.minPrimedTail_of_tag (hi.tag.trans (hc.tag.trans hf.tag))⟩

/-- Every backend is primed by the cuts of its own shortest slice. -/
theorem primeSlices_eq_foldlM (h0 : d.dictionaryRetainedBudget = 0) {rest : List UInt8}
    {cuts : List (List UInt8)}
    (h : primeCuts d.sliceSize d.storage.minPrimedTail rest = some cuts) :
    d.primeSlices rest = cuts.foldlM (fun (d : MatchGeneratorDriver) c => d.primeSlice c) d := by
  induction hn : rest.length using Nat.strongRecOn generalizing rest cuts d with
  | ind n ih =>
    rw [primeCuts] at h
    rw [primeSlices]
    split at h
    · rename_i hnil
      cases h
      rw [if_pos hnil]
      rfl
    · rename_i hnil
      rw [if_neg hnil]
      cases hlen : primeSliceLen d.sliceSize d.storage.minPrimedTail rest.length with
      | none => simp only [hlen, reduceCtorEq] at h
      | some len =>
        simp only [hlen] at h ⊢
        split at h
        · cases h
        · rename_i hlong
          obtain ⟨tail, htail, rfl⟩ := Option.map_eq_some_iff.mp h
          have hne : 0 < rest.length := List.length_pos_iff.mpr hnil
          have hpos := d.storage.minPrimedTail_pos
          rw [dif_neg (by omega), List.foldlM_cons]
          refine Option.bind_congr ?_
          intro d' hd'
          obtain ⟨h0', hsize, htag⟩ := primeSlice_keeps h0 hd'
          exact ih (rest.drop len).length (by rw [List.length_drop]; omega) h0'
            (by rw [hsize, htag]; exact htail) rfl

/-- The driver as its dictionary's slices find it. -/
def widened (d : MatchGeneratorDriver) (dictLen : Nat) : MatchGeneratorDriver :=
  { d with
    storage := (d.storage.setDictionaryIndexFloor (dictLen - 1 <<< d.dictReachLog)).setMaxWindowSize
      (min (d.storage.maxWindowSize + dictLen) maxPrimedWindowSize) }

/-- The driver once its dictionary's slices are in. -/
def granted (base committed : Nat) (d : MatchGeneratorDriver) : MatchGeneratorDriver :=
  let granted := min committed (maxPrimedWindowSize - base)
  { d with
    storage :=
      ((d.storage.setMaxWindowSize (base + granted)).markDictPrimed).setDictionaryIndexFloor 0
    dictionaryRetainedBudget := d.dictionaryRetainedBudget + granted }

/-- The slices a driver commits a dictionary in: all of it once and in order if the backend can
hash it, and nothing of it otherwise. -/
structure Tiles (d : MatchGeneratorDriver) (content : List UInt8) (cuts : List (List UInt8)) :
    Prop where
  whole : cuts.flatten = if content.length ≥ d.storage.minPrimedTail then content else []
  hashable : ∀ c ∈ cuts, d.storage.minPrimedTail ≤ c.length
  committed : content ≠ [] → d.primeWithDictionary content =
    (cuts.foldlM (fun (d : MatchGeneratorDriver) c => d.primeSlice c)
      (d.widened content.length)).map (granted d.storage.maxWindowSize cuts.flatten.length)

theorem exists_tiles (shape : FrameShape) (content : List UInt8) :
    ∃ cuts, Tiles shape.reset content cuts := by
  have hsize : shape.reset.storage.minPrimedTail ≤ shape.reset.sliceSize := by
    have hle := MatcherStorage.minPrimedTail_le shape.reset.storage
    have hmem := (sliceSize_mem shape).1
    omega
  have hbudget : shape.reset.dictionaryRetainedBudget = 0 := rfl
  generalize shape.reset = d at *
  have htail : (d.widened content.length).storage.minPrimedTail = d.storage.minPrimedTail := by
    apply MatcherStorage.minPrimedTail_of_tag
    simp only [widened, MatcherStorage.setMaxWindowSize_tag]
    cases d.storage <;> rfl
  obtain ⟨cuts, hcuts, hflat, hall⟩ := primeCuts_tile
    (if content.length ≥ d.storage.minPrimedTail then content else [])
    d.storage.minPrimedTail_pos hsize (by split <;> simp_all)
  refine ⟨cuts, hflat, hall, ?_⟩
  intro hne
  have hdef : d.primeWithDictionary content =
      ((d.widened content.length).primeSlices
        (if decide (content.length ≥ (d.widened content.length).storage.minPrimedTail) then content
          else [])).map
        (granted d.storage.maxWindowSize
          (if decide (content.length ≥ (d.widened content.length).storage.minPrimedTail) then
            content.length else 0)) := by
    rw [primeWithDictionary, if_neg hne]
    rfl
  rw [← primeSlices_eq_foldlM (d := d.widened content.length) hbudget (htail.symm ▸ hcuts), hflat,
    hdef, htail]
  by_cases hlong : content.length ≥ d.storage.minPrimedTail
  · simp only [hlong, decide_true, if_true]
  · simp only [hlong, decide_false, Bool.false_eq_true, if_false, List.length_nil]

end MatchGeneratorDriver

/-- A dictionary's slices are its bytes, each once and in order, none shorter than the backend
hashes; a dictionary shorter than that is left out whole. Whatever their size, they leave the Fast
matcher, its live table and the dictionary's own included, as the whole content in one slice does:
only where the newest block starts differs. -/
theorem dictionary_slices_agree (shape : FrameShape) (cdictTableLog : Nat → Nat → Nat)
    (f : DictionaryFill) (attach : Bool) (sliceSize reachLog : Nat) (content : List UInt8)
    (hclean : f.Clean) (hempty : f.window.history = [])
    (hslice : fastMinPrimedTail ≤ sliceSize)
    (hroom : content.length ≤ (f.widened reachLog content.length).window.maxWindowSize * 2) :
    (∃ cuts, MatchGeneratorDriver.Tiles shape.reset content cuts) ∧
    (f.primeWithDictionary cdictTableLog attach sliceSize reachLog content).map
        DictionaryFill.forget =
      (f.primeWithDictionary cdictTableLog attach content.length reachLog content).map
        DictionaryFill.forget := by
  refine ⟨MatchGeneratorDriver.exists_tiles shape content, ?_⟩
  unfold DictionaryFill.primeWithDictionary
  by_cases hnil : content = []
  · rw [if_pos hnil, if_pos hnil]
  rw [if_neg hnil, if_neg hnil]
  apply DictionaryFill.map_forget_congr
  · by_cases hlong : content.length ≥ fastMinPrimedTail
    · simp only [hlong, if_true]
      exact DictionaryFill.primeSlices_agree (f := f.widened reachLog content.length)
        ⟨hclean.staged, hclean.uncommitted⟩ hslice hlong
        (by
          have hstart : (f.widened reachLog content.length).window.history = [] := hempty
          rw [hstart, List.length_nil, Nat.zero_add]
          exact hroom)
    · simp only [hlong, if_false]
      rw [DictionaryFill.primeSlices, DictionaryFill.primeSlices]
      rfl
  · intro g
    rfl

theorem dictionary_slices_agree_copied :
    (∃ cuts, MatchGeneratorDriver.Tiles
      (⟨none, 10, 0, none, true, 31, by decide, by decide⟩ : FrameShape).reset
      (List.replicate 12 7) cuts) ∧
    ((⟨⟨.empty 10, ⟨List.replicate 64 0, 6, 4, 0, 0⟩, none, 0, false, 0⟩, none, none⟩ :
        DictionaryFill).primeWithDictionary (fun log _ => log) false 6 31
          (List.replicate 12 7)).map DictionaryFill.forget =
      ((⟨⟨.empty 10, ⟨List.replicate 64 0, 6, 4, 0, 0⟩, none, 0, false, 0⟩, none, none⟩ :
        DictionaryFill).primeWithDictionary (fun log _ => log) false 12 31
          (List.replicate 12 7)).map DictionaryFill.forget :=
  dictionary_slices_agree _ _ _ false 6 31 (List.replicate 12 7) ⟨rfl, rfl⟩ rfl (by decide)
    (by decide)

/-- Three bytes are no dictionary to the Fast backend: nothing is committed. -/
theorem dictionary_too_short_left_out :
    ((⟨none, 10, 0, none, true, 31, by decide, by decide⟩ : FrameShape).reset.primeWithDictionary
      [1, 2, 3]).map (fun d => d.storage.live) = some [] := by
  change ((MatchGeneratorDriver.primeSlices _ []).map _).map _ = some []
  rw [MatchGeneratorDriver.primeSlices, if_pos rfl]
  rfl

end Encoding
