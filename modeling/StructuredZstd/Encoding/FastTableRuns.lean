import StructuredZstd.Encoding.WindowSpec
import StructuredZstd.Encoding.FastMatcher
import StructuredZstd.Encoding.FastHashTableSpec

namespace Encoding

open Lz FastHashTable

/-- What the driver asks of the Fast matcher. `hash` gives the hash of the bytes at a position, and
a scan stores whatever positions the kernel comes by. -/
inductive FastStep where
  | reset (shape : FastFrameShape) (kept dictKept : Bool)
  | widenForDictionary (len : Nat)
  | settleWindow (size : Nat)
  | trimToWindow
  | fillUncommitted (bytes : List UInt8)
  | commitBlock (len : Nat)
  | uncommitBlock (len : Nat)
  | indexFloor (floor : Nat)
  | dictPrime
  | markDictPrimed
  | dictCopy (hash : Nat → Nat)
  | startMatching (hash : Nat → Nat) (positions : List Nat)
  | skipMatching (hash : Nat → Nat) (hint : Option Bool)
  | skipLongMatch (hash : Nat → Nat)
  | setBorrowedWindow (len : Nat)
  | clearBorrowedWindow
  | startMatchingBorrowed (hash : Nat → Nat) (start stop : Nat) (positions : List Nat)
  | skipMatchingBorrowed (hash : Nat → Nat) (start stop : Nat) (hint : Option Bool)
  | skipLongMatchBorrowed (hash : Nat → Nat) (start stop : Nat)

/-- A matcher with what was done to its table, newest first; whether the frame attaches its
dictionary, and the last position an in-place skip of the frame has stored. -/
structure FastFrame where
  matcher : FastKernelMatcher
  log : List SlotOp
  attachFrame : Bool
  skippedTo : Nat

namespace FastFrame

/-- The log of the positions stored under their hashes. -/
def putOps (t : FastHashTable) (hash : Nat → Nat) (positions : List Nat) : List SlotOp :=
  (positions.map fun p =>
    let h := t.reduceHash (hash p)
    .put (h / 2 ^ t.tagBits) (h % 2 ^ t.tagBits) p).reverse

variable (x : FastFrame)

abbrev table : FastHashTable := x.matcher.hashTable
abbrev window : FastWindow := x.matcher.window

/-- Store positions in the table, and in the log. -/
def store (put : FastHashTable → Nat → Nat → FastHashTable) (hash : Nat → Nat)
    (positions : List Nat) : FastFrame :=
  { x with
    matcher := { x.matcher with hashTable := x.table.putEach put hash positions }
    log := putOps x.table hash positions ++ x.log }

/-- The window dropped bytes off its front. -/
def slid (evicted : Nat) (m : FastKernelMatcher) : FastFrame :=
  { x with
    matcher := m
    log := if 0 < evicted then .slide evicted :: x.log else x.log }

/-- The window is the owned history. -/
def owned : Bool := x.matcher.borrowed.isNone

/-- The driver scans an input in place right after the reset or the prime, with the dictionary
attached if the frame has one; a table is left out only where the dictionary is too short to
hash. -/
def scansInPlace (len : Nat) : Bool :=
  x.log.head? == some .clear && x.window.dict.attached == x.attachFrame &&
    if x.window.dict.attached then decide (x.window.dict.regionLen + len ≤ u32Max)
    else decide (x.window.dict.regionLen < hashReadSize ∧ len ≤ u32Max)

/-- The positions a step stores. -/
def stores : FastStep → List Nat
  | .dictCopy hash =>
    let end_ := x.window.committedLen
    let fillStart := max x.matcher.dictCopyFillNext x.window.dictIndexFloor
    if end_ < hashReadSize ∨ end_ - hashReadSize < fillStart then []
    else (x.table.dictCopyFill hash fillStart (end_ - hashReadSize)).1
  | .startMatching _ positions => positions
  | .skipMatching _ hint =>
    skipPositions hint (x.window.committedLen - x.window.stagedBlock.getD 0) x.window.committedLen
  | .skipLongMatch _ =>
    longMatchPositions (x.window.committedLen - x.window.stagedBlock.getD 0) x.window.committedLen
  | .startMatchingBorrowed _ _ _ positions => positions
  | .skipMatchingBorrowed _ start stop hint =>
    (skipPositions hint start stop).map (x.matcher.inputBase + ·)
  | .skipLongMatchBorrowed _ start stop =>
    (longMatchPositions start stop).map (x.matcher.inputBase + ·)
  | _ => []

/-- One call of the driver. The guards are the assertions of the code and the order the driver
keeps: a dictionary is primed or copied as the frame was reset for, the owned window and an input
scanned in place exclude each other. -/
def step : FastStep → FastFrame → Option FastFrame
  | .reset shape kept dictKept, x =>
    if (kept → x.table.table.length = 1 <<< shape.hashLog) ∧
        shape.carry ≠ .overwrittenByRestore shape.tagged then
      let dict := if dictKept then x.window.dict else x.window.dict.invalidate
      ({ x.matcher with window := { x.window with dict := dict } }.reset shape kept).map fun m =>
        { matcher := m
          log := .clear :: x.log
          attachFrame := shape.carry == TableCarry.advanceEpoch
          skippedTo := 0 }
    else none
  | .widenForDictionary len, x =>
    if x.owned ∧ x.log.head? = some .clear then
      some { x with matcher := x.matcher.widenForDictionary len }
    else none
  | .settleWindow size, x =>
    if size ≤ x.window.maxWindowSize then
      some { x with matcher := { x.matcher with window := x.window.setMaxWindowSize size } }
    else none
  | .trimToWindow, x =>
    if x.owned then
      some (x.slid (x.window.trimToWindow).2 x.matcher.trimToWindow)
    else none
  | .fillUncommitted bytes, x =>
    if x.owned then
      some { x with matcher := { x.matcher with window := x.window.fillUncommitted bytes } }
    else none
  | .commitBlock len, x =>
    if x.owned then (x.matcher.commitBlock len).map (x.slid (x.window.evictedBy len)) else none
  | .uncommitBlock len, x =>
    if x.owned then
      (x.window.uncommitBlock len).map fun w =>
        { x with matcher := { x.matcher with window := w } }
    else none
  | .indexFloor floor, x =>
    some { x with
      matcher := { x.matcher with window := { x.window with dictIndexFloor := floor } } }
  | .dictPrime, x =>
    if x.owned ∧ x.attachFrame then
      (x.matcher.takeStagedBlock).bind fun (m, _) =>
        m.window.primeDictTableForRange.map fun w =>
          { x with matcher := { m with window := w } }
    else none
  | .markDictPrimed, x =>
    some { x with matcher := { x.matcher with
      window := { x.window with dict := x.window.dict.markPrimed } } }
  | .dictCopy hash, x =>
    if x.owned ∧ x.attachFrame = false then
      (x.matcher.takeStagedBlock).map fun (m, _) =>
        let end_ := x.window.committedLen
        let fillStart := max m.dictCopyFillNext m.window.dictIndexFloor
        let next :=
          if end_ < hashReadSize ∨ end_ - hashReadSize < fillStart then m.dictCopyFillNext
          else (x.table.dictCopyFill hash fillStart (end_ - hashReadSize)).2
        { x with
          matcher := { m with
            window := { m.window with dict := m.window.dict.invalidate, loadedDictEnd := end_ }
            dictCopyFillNext := next } }.store put hash (x.stores (.dictCopy hash))
    else none
  | .startMatching hash positions, x =>
    if x.owned ∧ ∀ p ∈ positions, p + hashReadSize ≤ x.window.committedLen then
      (x.matcher.takeStagedBlock).map fun (m, _) =>
        { x with matcher := m }.store m.kernelPut hash positions
    else none
  | .skipMatching hash hint, x =>
    if x.owned then
      (x.matcher.takeStagedBlock).map fun (m, _) =>
        { x with matcher := m }.store put hash (x.stores (.skipMatching hash hint))
    else none
  | .skipLongMatch hash, x =>
    if x.owned then
      (x.matcher.takeStagedBlock).map fun (m, _) =>
        { x with matcher := m }.store put hash (x.stores (.skipLongMatch hash))
    else none
  | .setBorrowedWindow len, x =>
    if x.scansInPlace len then
      (x.matcher.setBorrowedWindow len).map fun m => { x with matcher := m }
    else none
  | .clearBorrowedWindow, x => some { x with matcher := x.matcher.clearBorrowedWindow }
  | .startMatchingBorrowed hash start stop positions, x =>
    if x.matcher.blockInBounds start stop ∧
        ∀ p ∈ positions, p + hashReadSize ≤ x.matcher.virtualEnd stop then
      let m := { x.matcher with
        tablePosHighWater := max x.matcher.tablePosHighWater (x.matcher.virtualEnd stop) }
      some ({ x with matcher := m }.store m.kernelPut hash positions)
    else none
  | .skipMatchingBorrowed hash start stop hint, x =>
    if x.matcher.blockInBounds start stop then
      let positions := x.stores (.skipMatchingBorrowed hash start stop hint)
      some { x.store put hash positions with
        skippedTo := positions.foldl max x.skippedTo }
    else none
  | .skipLongMatchBorrowed hash start stop, x =>
    if x.matcher.blockInBounds start stop ∧ x.window.dict.attached = false then
      let m := { x.matcher with tablePosHighWater := max x.matcher.tablePosHighWater stop }
      some ({ x with matcher := m }.store put hash
        (x.stores (.skipLongMatchBorrowed hash start stop)))
    else none

/-- What keeps the positions of a tagged table beside their tags. -/
structure TagLimits (x : FastFrame) : Prop where
  plain : x.attachFrame = false
  window : taggedPositionsFit x.window.maxWindowSize = true
  size : x.window.committedLen + maxBlockSize ≤ taggedPositionLimit
  inPlace : ∀ len, x.matcher.borrowed = some len → len ≤ taggedPositionLimit
  empty : x.log.head? = some .clear → Below x.table 0

/-- What the driver keeps a frame's matcher in. -/
structure Inv (x : FastFrame) : Prop where
  shaped : Shaped x.table
  holds : Holds x.table x.log
  unbiased : x.table.bias ≠ 0 → x.window.dict.attached = true ∧ x.attachFrame = true
  below : x.table.tagBits = 0 → Below x.table (max x.matcher.tablePosHighWater x.skippedTo)
  highWater : x.matcher.tablePosHighWater ≤ u32Max
  maxWindow : x.window.maxWindowSize ≤ maxPrimedWindowSize
  size : x.window.committedLen ≤ maxPrimedWindowSize * 2
  primed : x.window.dict.primed = true → x.window.dict.attached = true
  inPlace : ∀ len, x.matcher.borrowed = some len →
    x.window.dict.attached = x.attachFrame ∧ x.matcher.virtualEnd len ≤ u32Max ∧
      (x.window.dict.attached = false → x.window.dict.regionLen < hashReadSize)
  tagged : x.table.tagBits ≠ 0 → TagLimits x

/-- One step's condition: an in-place skip past the high-water mark is not followed by an epoch
advance, and the window scanned or slid leaves the bias room in a `u32`. -/
def Admitted (x : FastFrame) : FastStep → Prop
  | .reset shape kept dictKept =>
    kept ∧ dictKept ∧ shape.carry = .advanceEpoch ∧ x.window.dict.primed ∧
      x.table.epochFits x.matcher.tablePosHighWater → x.skippedTo ≤ x.matcher.tablePosHighWater
  | .trimToWindow => x.table.bias + (x.window.trimToWindow).2 < 2 ^ 32
  | .commitBlock len => x.table.bias + x.window.evictedBy len < 2 ^ 32
  | .startMatching _ _ | .skipLongMatch _ =>
    x.table.bias + (x.window.committedLen - hashReadSize) < 2 ^ 32
  | .skipMatching _ hint =>
    hint ≠ none → x.table.bias + (x.window.committedLen - hashReadSize) < 2 ^ 32
  | .startMatchingBorrowed _ _ stop _ =>
    x.table.bias + (x.matcher.virtualEnd stop - hashReadSize) < 2 ^ 32
  | .skipMatchingBorrowed _ _ stop hint =>
    hint ≠ none → x.table.bias + (x.matcher.virtualEnd stop - hashReadSize) < 2 ^ 32
  | _ => True

instance : (x : FastFrame) → (s : FastStep) → Decidable (Admitted x s)
  | _, .reset .. => inferInstanceAs (Decidable (_ ∧ _ ∧ _ ∧ _ ∧ _ → _))
  | _, .trimToWindow => inferInstanceAs (Decidable (_ < _))
  | _, .commitBlock _ => inferInstanceAs (Decidable (_ < _))
  | _, .startMatching .. => inferInstanceAs (Decidable (_ < _))
  | _, .skipLongMatch _ => inferInstanceAs (Decidable (_ < _))
  | _, .skipMatching .. => inferInstanceAs (Decidable (_ ≠ _ → _))
  | _, .startMatchingBorrowed .. => inferInstanceAs (Decidable (_ < _))
  | _, .skipMatchingBorrowed .. => inferInstanceAs (Decidable (_ ≠ _ → _))
  | _, .widenForDictionary _ | _, .settleWindow _ | _, .fillUncommitted _ | _, .uncommitBlock _
  | _, .indexFloor _ | _, .dictPrime | _, .markDictPrimed | _, .dictCopy _
  | _, .setBorrowedWindow _ | _, .clearBorrowedWindow | _, .skipLongMatchBorrowed .. => isTrue trivial

section Store

variable {x : FastFrame} {hash : Nat → Nat}

theorem reduceHash_lt (t : FastHashTable) (h : Nat) :
    t.reduceHash h < 2 ^ (t.hashLog + t.tagBits) :=
  Nat.mod_lt _ (Nat.two_pow_pos _)

/-- The kernels that leave the bias out store as the others do where there is none. -/
theorem hotPut_eq {t : FastHashTable} (h : t.bias = 0) (hash pos : Nat) :
    t.hotPut hash pos = t.put hash pos := by
  cases t
  cases h
  rfl

/-- A store that agrees with `put` on the tables of a run. -/
def Plain (put : FastHashTable → Nat → Nat → FastHashTable) (t : FastHashTable) : Prop :=
  put = FastHashTable.put ∨ put = FastHashTable.hotPut ∧ t.bias = 0

theorem Plain.eq {put : FastHashTable → Nat → Nat → FastHashTable} {t : FastHashTable}
    (h : Plain put t) (hash pos : Nat) : put t hash pos = t.put hash pos := by
  rcases h with rfl | ⟨rfl, hbias⟩
  · rfl
  · exact hotPut_eq hbias hash pos

/-- What a table keeps while positions are stored in it. -/
structure Stored (t t' : FastHashTable) (log : List SlotOp) (top : Nat) : Prop where
  shaped : Shaped t'
  holds : Holds t' log
  below : t.tagBits = 0 → Below t' top
  bias : t'.bias = t.bias
  tagBits : t'.tagBits = t.tagBits
  hashLog : t'.hashLog = t.hashLog

theorem stored_putEach {put : FastHashTable → Nat → Nat → FastHashTable} {top : Nat}
    (positions : List Nat) {t : FastHashTable} {log : List SlotOp} (hput : Plain put t)
    (hs : Shaped t) (hh : Holds t log) (hbelow : t.tagBits = 0 → Below t top)
    (hfits : ∀ p ∈ positions, p + t.bias < 2 ^ (32 - t.tagBits) ∧ (t.tagBits = 0 → p ≤ top)) :
    Stored t (t.putEach put hash positions) (putOps t hash positions ++ log) top := by
  induction positions generalizing t log with
  | nil => exact ⟨hs, hh, hbelow, rfl, rfl, rfl⟩
  | cons p ps ih =>
    obtain ⟨hfit, htop⟩ := hfits p List.mem_cons_self
    have hlt : p < 2 ^ 32 := by
      have : 2 ^ (32 - t.tagBits) ≤ 2 ^ 32 := Nat.pow_le_pow_right (by decide) (Nat.sub_le _ _)
      omega
    have hhash := reduceHash_lt t (hash p)
    rw [putEach, Nat.mod_eq_of_lt hlt, hput.eq]
    have hnext := ih (t := t.put (t.reduceHash (hash p)) p) (hput.imp id fun h => ⟨h.1, h.2⟩)
      (hs.put _ _) (hh.put hs hhash hfit)
      (fun hu => (hbelow hu).put hs hu hhash hfit (htop hu))
      (fun q hq => hfits q (List.mem_cons_of_mem p hq))
    refine ⟨hnext.shaped, ?_, hnext.below, hnext.bias, hnext.tagBits, hnext.hashLog⟩
    simpa [putOps, reduceHash] using hnext.holds

end Store

section Steps

variable {x : FastFrame}

theorem taggedPositionLimit_eq : taggedPositionLimit = 2 ^ 24 := rfl

theorem TagLimits.narrow {x y : FastFrame} (h : TagLimits x) (hplain : y.attachFrame = x.attachFrame)
    (hmax : y.window.maxWindowSize ≤ x.window.maxWindowSize)
    (hlen : y.window.committedLen ≤ max x.window.committedLen (x.window.maxWindowSize * 2))
    (hin : ∀ len, y.matcher.borrowed = some len → len ≤ taggedPositionLimit)
    (hempty : y.log.head? = some .clear → Below y.table 0) : TagLimits y := by
  have hfit := of_decide_eq_true h.window
  have hsize := h.size
  refine ⟨hplain.trans h.plain, decide_eq_true ?_, ?_, hin, hempty⟩
  · omega
  · omega

/-- A matcher over the same table, its window no larger and its high-water mark no lower. -/
theorem Inv.withMatcher (h : Inv x) {m : FastKernelMatcher} (ht : m.hashTable = x.table)
    (hhw : x.matcher.tablePosHighWater ≤ m.tablePosHighWater)
    (hhw' : m.tablePosHighWater ≤ u32Max)
    (hmax : m.window.maxWindowSize ≤ x.window.maxWindowSize)
    (hlen : m.window.committedLen ≤ x.window.committedLen)
    (hdict : x.table.bias ≠ 0 → m.window.dict.attached = true)
    (hprimed : m.window.dict.primed = true → m.window.dict.attached = true)
    (hin : m.borrowed = none ∨ m.borrowed = x.matcher.borrowed ∧
      m.window.dict.attached = x.window.dict.attached ∧
      m.window.dict.regionLen = x.window.dict.regionLen) :
    Inv { x with matcher := m } := by
  have hplace : ∀ len, m.borrowed = some len → x.matcher.borrowed = some len := by
    intro len hlen
    rcases hin with hnone | ⟨hsame, -⟩
    · rw [hnone] at hlen
      cases hlen
    · rwa [← hsame]
  refine ⟨?_, ?_, ?_, ?_, hhw', hmax.trans h.maxWindow, hlen.trans h.size, hprimed, ?_, ?_⟩
  · rw [table, ht]
    exact h.shaped
  · rw [table, ht]
    exact h.holds
  · rw [table, ht]
    exact fun hbias => ⟨hdict hbias, (h.unbiased hbias).2⟩
  · rw [table, ht]
    exact fun hu => (h.below hu).mono (max_le_max hhw (Nat.le_refl _))
  · intro len hlen
    rcases hin with hnone | ⟨-, hattached, hregion⟩
    · rw [hnone] at hlen
      cases hlen
    · have hx := h.inPlace len (hplace len hlen)
      simpa only [FastKernelMatcher.virtualEnd, FastKernelMatcher.inputBase, window, hattached,
        hregion] using hx
  · intro htag
    rw [table, ht] at htag
    have hx := h.tagged htag
    refine hx.narrow rfl hmax (hlen.trans (Nat.le_max_left _ _))
      (fun len hlen => hx.inPlace len (hplace len hlen)) ?_
    rw [table, ht]
    exact hx.empty

theorem takeStagedBlock_eq {m m' : FastKernelMatcher} {start : Nat}
    (h : m.takeStagedBlock = some (m', start)) :
    m' = { m with
      window := { m.window with stagedBlock := none }
      tablePosHighWater := max m.tablePosHighWater m.window.committedLen } := by
  rw [FastKernelMatcher.takeStagedBlock, FastWindow.takeStagedBlock] at h
  cases hs : m.window.stagedBlock with
  | none => simp [hs] at h
  | some len =>
    simp only [hs, Option.map_some, Option.some.injEq, Prod.mk.injEq] at h
    exact h.1.symm

theorem Inv.takeStaged (h : Inv x) : Inv { x with matcher := { x.matcher with
    window := { x.window with stagedBlock := none }
    tablePosHighWater := max x.matcher.tablePosHighWater x.window.committedLen } } := by
  refine h.withMatcher rfl (Nat.le_max_left _ _) (max_le h.highWater ?_) (Nat.le_refl _)
    (Nat.le_refl _) (fun hbias => (h.unbiased hbias).1) h.primed (.inr ⟨rfl, rfl, rfl⟩)
  exact h.size.trans (by decide)

/-- A position whose eight bytes end inside the owned window fits its slot. -/
theorem Inv.fits_window (h : Inv x) {p : Nat} (hp : p + hashReadSize ≤ x.window.committedLen)
    (hroom : x.table.bias + (x.window.committedLen - hashReadSize) < 2 ^ 32) :
    p + x.table.bias < 2 ^ (32 - x.table.tagBits) := by
  rcases h.shaped.format with hu | ⟨htag, hbias⟩
  · rw [hu]
    omega
  · have hsize := (h.tagged (by rw [htag]; decide)).size
    rw [taggedPositionLimit_eq] at hsize
    rw [htag, hbias, slotTagBits]
    simp only [hashReadSize] at hp
    omega

/-- The same of the input scanned in place. -/
theorem Inv.fits_inPlace (h : Inv x) {len stop p : Nat} (hlen : x.matcher.borrowed = some len)
    (hstop : stop ≤ len) (hp : p + hashReadSize ≤ x.matcher.virtualEnd stop ∨
      ∃ q, q + hashReadSize ≤ stop ∧ p = x.matcher.inputBase + q)
    (hroom : x.table.bias + (x.matcher.virtualEnd stop - hashReadSize) < 2 ^ 32) :
    p + x.table.bias < 2 ^ (32 - x.table.tagBits) := by
  obtain ⟨hframe, hend, hshort⟩ := h.inPlace len hlen
  rw [FastKernelMatcher.virtualEnd] at hp hroom hend
  rw [FastKernelMatcher.inputBase] at hp hroom hend
  rcases h.shaped.format with hu | ⟨htag, hbias⟩
  · rw [hu]
    by_cases hattached : x.window.dict.attached = true
    · rw [if_pos hattached] at hp hroom hend
      rcases hp with hp | ⟨q, hq, rfl⟩
      · omega
      · omega
    · have hbias : x.table.bias = 0 := by
        by_contra hne
        exact hattached (h.unbiased hne).1
      have hregion : x.matcher.window.dict.regionLen < hashReadSize :=
        hshort (by simpa using hattached)
      rw [if_neg hattached] at hp hend
      simp only [u32Max, hashReadSize] at hend hregion hp
      rcases hp with hp | ⟨q, hq, rfl⟩
      · omega
      · omega
  · have hx := h.tagged (by rw [htag]; decide)
    have hattached : x.window.dict.attached = false := hframe.trans hx.plain
    have hregion : x.matcher.window.dict.regionLen < hashReadSize := hshort hattached
    have hinput := hx.inPlace len hlen
    rw [if_neg (by rw [hattached]; decide)] at hp
    rw [taggedPositionLimit_eq] at hinput
    rw [htag, hbias, slotTagBits]
    simp only [hashReadSize] at hregion hp
    rcases hp with hp | ⟨q, hq, rfl⟩
    · omega
    · omega

theorem putOps_head {t : FastHashTable} {hash : Nat → Nat} {positions : List Nat}
    {log : List SlotOp} (h : (putOps t hash positions ++ log).head? = some .clear) :
    positions = [] := by
  rw [putOps, ← List.map_reverse] at h
  cases hr : positions.reverse with
  | nil => exact List.reverse_eq_nil_iff.mp hr
  | cons p ps => simp [hr] at h

/-- Positions that fit and lie below the marks are stored. -/
theorem Inv.store (h : Inv x) {put : FastHashTable → Nat → Nat → FastHashTable}
    {hash : Nat → Nat} {positions : List Nat} (hput : Plain put x.table)
    (hfits : ∀ p ∈ positions, p + x.table.bias < 2 ^ (32 - x.table.tagBits) ∧
      p ≤ max x.matcher.tablePosHighWater x.skippedTo) :
    Inv (x.store put hash positions) := by
  have hst := @stored_putEach hash put _ positions _ _ hput h.shaped h.holds h.below
    (fun p hp => ⟨(hfits p hp).1, fun _ => (hfits p hp).2⟩)
  have hbias : (x.store put hash positions).table.bias = x.table.bias := hst.bias
  have htag : (x.store put hash positions).table.tagBits = x.table.tagBits := hst.tagBits
  refine ⟨hst.shaped, hst.holds, ?_, ?_, h.highWater, h.maxWindow, h.size, h.primed, h.inPlace,
    ?_⟩
  · rw [hbias]
    exact h.unbiased
  · rw [htag]
    exact hst.below
  · rw [htag]
    intro hne
    have hx := h.tagged hne
    refine hx.narrow rfl (Nat.le_refl _) (Nat.le_max_left _ _) hx.inPlace ?_
    intro hhead
    have hnil := putOps_head hhead
    subst hnil
    exact hx.empty hhead

end Steps

section Positions

theorem mem_steppedPositions {a b step p : Nat} (hab : a ≤ b)
    (hp : p ∈ steppedPositions a b step) : p ≤ b := by
  have hupTo : ∀ {l : Nat}, p ∈ List.range' l (b + 1 - l) → p ≤ b := by
    intro l hl
    rw [List.mem_range'_1] at hl
    omega
  simp only [steppedPositions] at hp
  split at hp
  · exact hupTo hp
  · simp only [List.mem_append] at hp
    rcases hp with (hhead | htail) | hgrid
    · rw [List.mem_range'_1] at hhead
      omega
    · exact hupTo htail
    · rw [List.mem_range'] at hgrid
      obtain ⟨i, hi, rfl⟩ := hgrid
      have hle : i ≤ (b - a) / step := by omega
      have := (Nat.mul_le_mul_left step hle).trans (Nat.mul_div_le (b - a) step)
      omega

theorem mem_rangePositions {start stop step p : Nat} (hp : p ∈ rangePositions start stop step) :
    p + hashReadSize ≤ stop := by
  simp only [rangePositions] at hp
  split at hp
  · cases hp
  · rename_i hin
    have := mem_steppedPositions (by omega) hp
    omega

theorem mem_skipPositions {hint : Option Bool} {start stop p : Nat}
    (hp : p ∈ skipPositions hint start stop) : hint ≠ none ∧ p + hashReadSize ≤ stop := by
  cases hint with
  | none => cases hp
  | some sure =>
    refine ⟨by simp, ?_⟩
    cases sure with
    | false => exact mem_rangePositions hp
    | true => exact mem_rangePositions hp

theorem mem_fillGroup {hash : Nat → Nat} {s p : Nat} {t : FastHashTable}
    (hp : p ∈ t.fillGroup hash s) : p ≤ s + 2 := by
  simp only [fillGroup] at hp
  split at hp
  · split at hp <;> simp at hp <;> omega
  · split at hp <;> simp at hp <;> omega

theorem mem_dictCopyFill {hash : Nat → Nat} {s last p : Nat} {t : FastHashTable}
    (hp : p ∈ (t.dictCopyFill hash s last).1) : p ≤ last := by
  fun_induction dictCopyFill hash s last t with
  | case1 s t hlt group rest next hrest ih =>
    simp only [List.mem_append] at hp
    rcases hp with hgroup | hp
    · have := mem_fillGroup hgroup
      omega
    · rw [hrest] at ih
      exact ih hp
  | case2 s t hlt => cases hp

end Positions

section Steps

variable {x y : FastFrame}

/-- The window dropped `evicted` bytes off its front, and the table slid with it. -/
theorem Inv.slid (h : Inv x) {m : FastKernelMatcher} {evicted : Nat}
    (ht : m.hashTable = x.matcher.slideTable evicted) (howned : m.borrowed = none)
    (hhw : m.tablePosHighWater = x.matcher.tablePosHighWater)
    (hroom : x.table.bias + evicted < 2 ^ 32) (hevicted : evicted ≤ x.window.committedLen)
    (hmax : m.window.maxWindowSize = x.window.maxWindowSize)
    (hlen : m.window.committedLen ≤ max x.window.committedLen (x.window.maxWindowSize * 2))
    (hdict : m.window.dict = if 0 < evicted then DictAttach.new else x.window.dict) :
    Inv (x.slid evicted m) := by
  have hsize : m.window.committedLen ≤ maxPrimedWindowSize * 2 :=
    hlen.trans (max_le h.size (Nat.mul_le_mul_right 2 h.maxWindow))
  have hmax' : m.window.maxWindowSize ≤ maxPrimedWindowSize := hmax ▸ h.maxWindow
  have hin : ∀ {P : Nat → Prop} len, m.borrowed = some len → P len := by
    intro P len hsome
    rw [howned] at hsome
    cases hsome
  rw [FastKernelMatcher.slideTable] at ht
  by_cases hpos : 0 < evicted
  · rw [if_pos hpos, Nat.mod_eq_of_lt (by omega)] at ht
    rw [if_pos hpos] at hdict
    have hfit : x.table.bias + evicted < 2 ^ (32 - x.table.tagBits) := by
      rcases h.shaped.format with hu | ⟨htag, hbias⟩
      · rw [hu]
        exact hroom
      · have hx := (h.tagged (by rw [htag]; decide)).size
        rw [taggedPositionLimit_eq, maxBlockSize] at hx
        rw [htag, hbias, slotTagBits]
        omega
    have htable : (x.slid evicted m).table = x.table.reduceIndices evicted := ht
    have hlog : (x.slid evicted m).log = .slide evicted :: x.log := if_pos hpos
    refine ⟨?_, ?_, ?_, ?_, hhw ▸ h.highWater, hmax', hsize, ?_, hin, ?_⟩
    · rw [htable]
      exact h.shaped.reduceIndices evicted
    · rw [htable, hlog]
      exact h.holds.reduceIndices h.shaped hfit
    · rw [htable]
      exact fun hne => absurd rfl hne
    · rw [htable]
      intro hu
      change Below _ (max m.tablePosHighWater x.skippedTo)
      rw [hhw]
      exact (h.below hu).reduceIndices h.shaped hu hfit
    · intro hprimed
      rw [window, FastFrame.slid, hdict] at hprimed
      cases hprimed
    · rw [htable]
      intro hne
      refine (h.tagged hne).narrow rfl (Nat.le_of_eq hmax) hlen hin ?_
      rw [hlog]
      intro hhead
      cases hhead
  · rw [if_neg hpos] at ht
    rw [if_neg hpos] at hdict
    have hsame : x.slid evicted m = { x with matcher := m } := by
      rw [FastFrame.slid, if_neg hpos]
    rw [hsame]
    refine ⟨?_, ?_, ?_, ?_, hhw ▸ h.highWater, hmax', hsize, ?_, hin, ?_⟩
    · rw [table, ht]
      exact h.shaped
    · rw [table, ht]
      exact h.holds
    · rw [table, ht, window, hdict]
      exact h.unbiased
    · rw [table, ht]
      change _ → Below _ (max m.tablePosHighWater x.skippedTo)
      rw [hhw]
      exact h.below
    · rw [window, hdict]
      exact h.primed
    · rw [table, ht]
      intro hne
      have hx := h.tagged hne
      refine hx.narrow rfl (Nat.le_of_eq hmax) hlen hin ?_
      rw [table, ht]
      exact hx.empty

theorem Inv.commitBlock (h : Inv x) {len : Nat} (hroom : Admitted x (.commitBlock len))
    (hstep : step (.commitBlock len) x = some y) : Inv y := by
  rw [step] at hstep
  split at hstep
  · rename_i howned
    rw [FastKernelMatcher.commitBlock, Option.map_map, Option.map_eq_some_iff] at hstep
    obtain ⟨⟨w, evicted⟩, hw, rfl⟩ := hstep
    obtain ⟨rfl, hfits, hcap, hkeep | ⟨hle, hne, hdrain⟩⟩ := x.window.commitBlock_eq hw
    · obtain ⟨hzero, rfl⟩ := hkeep
      have hnone : ¬x.window.realLen > x.window.maxWindowSize * 2 - len := by
        intro hgt
        rw [FastWindow.evictedBy, if_pos hgt] at hzero
        rw [FastWindow.realLen, historyDrainBase] at hgt hzero
        omega
      refine h.slid rfl (Option.isNone_iff_eq_none.mp howned) rfl hroom
        (x.window.evictedBy_le len) rfl ?_ ?_
      · simp only [x.window.stage_committedLen hfits]
        rw [FastWindow.realLen, historyDrainBase] at hnone
        omega
      · rw [hzero]
        rfl
    · subst hdrain
      have hevict : x.window.realLen > x.window.maxWindowSize * 2 - len := by
        by_contra hno
        rw [FastWindow.evictedBy, if_neg hno] at hne
        exact hne rfl
      refine h.slid rfl (Option.isNone_iff_eq_none.mp howned) rfl hroom
        (x.window.evictedBy_le len) rfl ?_ ?_
      · have hlen := FastWindow.stage_committedLen
          (x.window.drainRealPrefix _ (x.window.evictedBy_le len)) hfits
        rw [FastWindow.drain_committedLen] at hlen
        refine (Nat.le_of_eq hlen).trans ?_
        have heq : x.window.evictedBy len =
            x.window.realLen - min (x.window.maxWindowSize * 2 - len) x.window.maxWindowSize :=
          if_pos hevict
        rw [FastWindow.realLen, historyDrainBase] at heq
        omega
      · rw [if_pos (Nat.pos_of_ne_zero hne)]
        rfl
  · cases hstep

theorem Inv.trimToWindow (h : Inv x) (hroom : Admitted x .trimToWindow)
    (hstep : step .trimToWindow x = some y) : Inv y := by
  rw [step] at hstep
  split at hstep
  · rename_i howned
    obtain rfl := Option.some.inj hstep
    rw [Admitted] at hroom
    by_cases hle : x.window.realLen ≤ x.window.maxWindowSize
    · have htrim : x.window.trimToWindow = (x.window, 0) := by
        rw [FastWindow.trimToWindow, if_pos hle]
      refine h.slid rfl (Option.isNone_iff_eq_none.mp howned) rfl hroom ?_ ?_ ?_ ?_
      all_goals simp [FastKernelMatcher.trimToWindow, htrim]
    · have htrim := FastWindow.trimToWindow.eq_1 x.window
      rw [if_neg hle] at htrim
      have hevicted : x.window.trimToWindow.2 = x.window.committedLen - x.window.maxWindowSize := by
        rw [htrim]
        rfl
      rw [FastWindow.realLen, historyDrainBase] at hle
      refine h.slid rfl (Option.isNone_iff_eq_none.mp howned) rfl hroom ?_ ?_ ?_ ?_
      · rw [hevicted]
        exact Nat.sub_le _ _
      · simp [FastKernelMatcher.trimToWindow, htrim, FastWindow.drainRealPrefix]
      · simp only [FastKernelMatcher.trimToWindow, htrim, FastWindow.drain_committedLen]
        omega
      · rw [hevicted, if_pos (by omega)]
        simp [FastKernelMatcher.trimToWindow, htrim, FastWindow.drainRealPrefix,
          DictAttach.invalidate]
  · cases hstep

end Steps

section Steps

variable {x y : FastFrame}

theorem Inv.bias_of_plain (h : Inv x) (hplain : x.attachFrame = false) : x.table.bias = 0 := by
  by_contra hne
  have := (h.unbiased hne).2
  rw [hplain] at this
  cases this

theorem Inv.plain_put (h : Inv x) : Plain x.matcher.kernelPut x.table := by
  rw [FastKernelMatcher.kernelPut]
  by_cases hattached : x.matcher.window.dict.attached = true
  · rw [if_pos hattached]
    exact .inl rfl
  · rw [if_neg hattached]
    refine .inr ⟨rfl, ?_⟩
    by_contra hne
    exact hattached (h.unbiased hne).1

theorem blockInBounds_iff {m : FastKernelMatcher} {start stop : Nat}
    (h : m.blockInBounds start stop = true) :
    ∃ total, m.borrowed = some total ∧ start ≤ stop ∧ stop ≤ total := by
  rw [FastKernelMatcher.blockInBounds] at h
  split at h
  · rename_i total htotal
    exact ⟨total, htotal, of_decide_eq_true h⟩
  · cases h

theorem virtualEnd_le {m : FastKernelMatcher} {stop total : Nat} (h : stop ≤ total) :
    m.virtualEnd stop ≤ m.virtualEnd total := by
  rw [FastKernelMatcher.virtualEnd, FastKernelMatcher.virtualEnd]
  split
  · exact Nat.add_le_add_left h _
  · exact h

/-- Positions stored from the owned window end inside it with the bytes hashed. -/
theorem mem_stores_owned {hash : Nat → Nat} {p : Nat}
    (hp : p ∈ x.stores (.dictCopy hash) ∨ p ∈ x.stores (.skipLongMatch hash) ∨
      ∃ hint, p ∈ x.stores (.skipMatching hash hint)) :
    p + hashReadSize ≤ x.window.committedLen := by
  rcases hp with hp | hp | ⟨hint, hp⟩
  · simp only [stores] at hp
    split at hp
    · cases hp
    · have := mem_dictCopyFill hp
      omega
  · exact mem_rangePositions hp
  · exact (mem_skipPositions hp).2

/-- No step stores a position that wraps past the bias or the tag. -/
theorem Inv.stores_fit (h : Inv x) {s : FastStep} (hadm : Admitted x s)
    (hstep : step s x = some y) :
    ∀ p ∈ x.stores s, p + x.table.bias < 2 ^ (32 - x.table.tagBits) := by
  intro p hp
  cases s with
  | dictCopy hash =>
    have hsize := h.size
    simp only [maxPrimedWindowSize, u32Max] at hsize
    rw [step] at hstep
    split at hstep
    · rename_i hin
      refine h.fits_window (mem_stores_owned (.inl hp)) ?_
      rw [h.bias_of_plain hin.2]
      omega
    · cases hstep
  | startMatching hash positions =>
    rw [step] at hstep
    split at hstep
    · rename_i hin
      exact h.fits_window (hin.2 p hp) hadm
    · cases hstep
  | skipMatching hash hint =>
    exact h.fits_window (mem_stores_owned (.inr (.inr ⟨hint, hp⟩)))
      (hadm (mem_skipPositions hp).1)
  | skipLongMatch hash => exact h.fits_window (mem_stores_owned (.inr (.inl hp))) hadm
  | startMatchingBorrowed hash start stop positions =>
    rw [step] at hstep
    split at hstep
    · rename_i hin
      obtain ⟨total, htotal, -, hstop⟩ := blockInBounds_iff hin.1
      exact h.fits_inPlace htotal hstop (.inl (hin.2 p hp)) hadm
    · cases hstep
  | skipMatchingBorrowed hash start stop hint =>
    rw [step] at hstep
    split at hstep
    · rename_i hin
      obtain ⟨total, htotal, -, hstop⟩ := blockInBounds_iff hin
      obtain ⟨q, hq, rfl⟩ := List.mem_map.mp hp
      obtain ⟨hhint, hq⟩ := mem_skipPositions hq
      exact h.fits_inPlace htotal hstop (.inr ⟨q, hq, rfl⟩) (hadm hhint)
    · cases hstep
  | skipLongMatchBorrowed hash start stop =>
    rw [step] at hstep
    split at hstep
    · rename_i hin
      obtain ⟨total, htotal, -, hstop⟩ := blockInBounds_iff hin.1
      obtain ⟨-, hend, -⟩ := h.inPlace total htotal
      obtain ⟨q, hq, rfl⟩ := List.mem_map.mp hp
      refine h.fits_inPlace htotal hstop (.inr ⟨q, mem_rangePositions hq, rfl⟩) ?_
      have hbias : x.table.bias = 0 := by
        by_contra hne
        have := (h.unbiased hne).1
        rw [hin.2] at this
        cases this
      have hle := (virtualEnd_le hstop).trans hend
      simp only [u32Max] at hle
      rw [hbias]
      omega
    · cases hstep
  | _ => cases hp

/-- A scan or a skip of the staged block stores inside the window. -/
theorem Inv.process (h : Inv x) {put : FastHashTable → Nat → Nat → FastHashTable}
    {hash : Nat → Nat} {positions : List Nat} {m : FastKernelMatcher} {start : Nat}
    (htake : x.matcher.takeStagedBlock = some (m, start)) (hput : Plain put x.table)
    (hfit : ∀ p ∈ positions, p + x.table.bias < 2 ^ (32 - x.table.tagBits))
    (hin : ∀ p ∈ positions, p + hashReadSize ≤ x.window.committedLen) :
    Inv ({ x with matcher := m }.store put hash positions) := by
  obtain rfl := takeStagedBlock_eq htake
  refine h.takeStaged.store hput fun p hp => ⟨hfit p hp, ?_⟩
  have hle : p ≤ x.window.committedLen := Nat.le_trans (Nat.le_add_right p _) (hin p hp)
  exact hle.trans ((Nat.le_max_right _ _).trans (Nat.le_max_left _ _))

theorem Inv.startMatching (h : Inv x) {hash : Nat → Nat} {positions : List Nat}
    (hadm : Admitted x (.startMatching hash positions))
    (hstep : step (.startMatching hash positions) x = some y) : Inv y := by
  have hfit := h.stores_fit hadm hstep
  rw [step] at hstep
  split at hstep
  · rename_i hin
    obtain ⟨⟨m, start⟩, htake, rfl⟩ := Option.map_eq_some_iff.mp hstep
    refine h.process htake ?_ hfit hin.2
    obtain rfl := takeStagedBlock_eq htake
    exact h.plain_put
  · cases hstep

theorem Inv.skipMatching (h : Inv x) {hash : Nat → Nat} {hint : Option Bool}
    (hadm : Admitted x (.skipMatching hash hint))
    (hstep : step (.skipMatching hash hint) x = some y) : Inv y := by
  have hfit := h.stores_fit hadm hstep
  rw [step] at hstep
  split at hstep
  · obtain ⟨⟨m, start⟩, htake, rfl⟩ := Option.map_eq_some_iff.mp hstep
    exact h.process htake (.inl rfl) hfit fun p hp => mem_stores_owned (.inr (.inr ⟨hint, hp⟩))
  · cases hstep

theorem Inv.skipLongMatch (h : Inv x) {hash : Nat → Nat}
    (hadm : Admitted x (.skipLongMatch hash))
    (hstep : step (.skipLongMatch hash) x = some y) : Inv y := by
  have hfit := h.stores_fit hadm hstep
  rw [step] at hstep
  split at hstep
  · obtain ⟨⟨m, start⟩, htake, rfl⟩ := Option.map_eq_some_iff.mp hstep
    exact h.process htake (.inl rfl) hfit fun p hp => mem_stores_owned (.inr (.inl hp))
  · cases hstep

theorem Inv.dictCopy (h : Inv x) {hash : Nat → Nat}
    (hstep : step (.dictCopy hash) x = some y) : Inv y := by
  have hfit := h.stores_fit (s := .dictCopy hash) trivial hstep
  rw [step] at hstep
  split at hstep
  · rename_i hin
    obtain ⟨⟨m, start⟩, htake, rfl⟩ := Option.map_eq_some_iff.mp hstep
    obtain rfl := takeStagedBlock_eq htake
    have hbias := h.bias_of_plain hin.2
    have hcopied : Inv { x with matcher := { x.matcher with
        window := { x.window with
          stagedBlock := none
          dict := x.window.dict.invalidate
          loadedDictEnd := x.window.committedLen }
        tablePosHighWater := max x.matcher.tablePosHighWater x.window.committedLen
        dictCopyFillNext := if x.window.committedLen < hashReadSize ∨
            x.window.committedLen - hashReadSize <
              max x.matcher.dictCopyFillNext x.window.dictIndexFloor
          then x.matcher.dictCopyFillNext
          else (x.table.dictCopyFill hash (max x.matcher.dictCopyFillNext x.window.dictIndexFloor)
            (x.window.committedLen - hashReadSize)).2 } } := by
      refine h.takeStaged.withMatcher rfl (Nat.le_refl _) h.takeStaged.highWater (Nat.le_refl _)
        (Nat.le_refl _) (fun hne => absurd hbias hne) (fun hp => ?_)
        (.inl (Option.isNone_iff_eq_none.mp hin.1))
      cases hp
    refine hcopied.store (.inl rfl) fun p hp => ⟨hfit p hp, ?_⟩
    have hle : p ≤ x.window.committedLen :=
      Nat.le_trans (Nat.le_add_right p _) (mem_stores_owned (.inl hp))
    exact hle.trans ((Nat.le_max_right _ _).trans (Nat.le_max_left _ _))
  · cases hstep

theorem prime_attached {w w' : FastWindow} (h : w.primeDictTableForRange = some w') :
    w'.committedLen = w.committedLen ∧ w'.maxWindowSize = w.maxWindowSize ∧
      (w.dict.attached = true → w'.dict.attached = true) ∧
      (w'.dict.primed = true → w.dict.primed = true) := by
  simp only [FastWindow.primeDictTableForRange] at h
  split at h
  · obtain rfl := Option.some.inj h
    exact ⟨rfl, rfl, id, id⟩
  · split at h
    · cases h
    · obtain rfl := Option.some.inj h
      exact ⟨rfl, rfl, fun _ => rfl, id⟩

theorem Inv.dictPrime (h : Inv x) (hstep : step .dictPrime x = some y) : Inv y := by
  rw [step] at hstep
  split at hstep
  · rename_i hin
    obtain ⟨⟨m, start⟩, htake, hprime⟩ := Option.bind_eq_some_iff.mp hstep
    obtain rfl := takeStagedBlock_eq htake
    obtain ⟨w, hw, rfl⟩ := Option.map_eq_some_iff.mp hprime
    obtain ⟨hlen, hmax, hattached, hprimed⟩ := prime_attached hw
    exact h.takeStaged.withMatcher rfl (Nat.le_refl _) h.takeStaged.highWater
      (Nat.le_of_eq hmax) (Nat.le_of_eq hlen) (fun hne => hattached (h.unbiased hne).1)
      (fun hp => hattached (h.primed (hprimed hp))) (.inl (Option.isNone_iff_eq_none.mp hin.1))
  · cases hstep

/-- The steps that touch the window only. -/
theorem Inv.windowStep (h : Inv x) {s : FastStep}
    (hs : (∃ n, s = .settleWindow n) ∨ (∃ b, s = .fillUncommitted b) ∨
      (∃ n, s = .uncommitBlock n) ∨ (∃ n, s = .indexFloor n) ∨ s = .markDictPrimed ∨
      s = .clearBorrowedWindow)
    (hstep : step s x = some y) : Inv y := by
  have hsame : x.window.maxWindowSize ≤ x.window.maxWindowSize := Nat.le_refl _
  have hdict := fun hne => (h.unbiased hne).1
  rcases hs with ⟨n, rfl⟩ | ⟨b, rfl⟩ | ⟨n, rfl⟩ | ⟨n, rfl⟩ | rfl | rfl
  · rw [step] at hstep
    split at hstep
    · rename_i hle
      obtain rfl := Option.some.inj hstep
      exact h.withMatcher rfl (Nat.le_refl _) h.highWater hle (Nat.le_refl _) hdict h.primed
        (.inr ⟨rfl, rfl, rfl⟩)
    · cases hstep
  · rw [step] at hstep
    split at hstep
    · obtain rfl := Option.some.inj hstep
      refine h.withMatcher rfl (Nat.le_refl _) h.highWater hsame ?_ hdict h.primed
        (.inr ⟨rfl, rfl, rfl⟩)
      have := x.window.uncommittedLen_le
      simp only [FastWindow.fillUncommitted, FastWindow.committedLen, List.length_append]
      omega
    · cases hstep
  · rw [step] at hstep
    split at hstep
    · obtain ⟨w, hw, rfl⟩ := Option.map_eq_some_iff.mp hstep
      rw [FastWindow.uncommitBlock] at hw
      split at hw
      · obtain rfl := Option.some.inj hw
        refine h.withMatcher rfl (Nat.le_refl _) h.highWater hsame ?_ hdict h.primed
          (.inr ⟨rfl, rfl, rfl⟩)
        simp only [FastWindow.committedLen]
        omega
      · cases hw
    · cases hstep
  · obtain rfl := Option.some.inj hstep
    exact h.withMatcher rfl (Nat.le_refl _) h.highWater hsame (Nat.le_refl _) hdict h.primed
      (.inr ⟨rfl, rfl, rfl⟩)
  · obtain rfl := Option.some.inj hstep
    have hattached : x.window.dict.markPrimed.attached = x.window.dict.attached := by
      rw [DictAttach.markPrimed]
      split <;> rfl
    have hregion : x.window.dict.markPrimed.regionLen = x.window.dict.regionLen := by
      rw [DictAttach.markPrimed]
      split <;> rfl
    refine h.withMatcher rfl (Nat.le_refl _) h.highWater hsame (Nat.le_refl _)
      (fun hne => hattached.trans (hdict hne)) (fun hp => hattached.trans ?_)
      (.inr ⟨rfl, hattached, hregion⟩)
    rw [DictAttach.markPrimed] at hp
    split at hp
    · assumption
    · exact h.primed hp
  · obtain rfl := Option.some.inj hstep
    exact h.withMatcher rfl (Nat.le_refl _) h.highWater hsame (Nat.le_refl _) hdict h.primed
      (.inl rfl)

end Steps

section Steps

variable {x y : FastFrame}

/-- A tagged table that holds nothing may go on untagged. -/
theorem untag_holds {t : FastHashTable} (log : List SlotOp) (hs : Shaped t) (htag : t.tagBits ≠ 0)
    (hempty : Below t 0) :
    Shaped t.untagEmpty ∧ Holds t.untagEmpty (.clear :: log) ∧ ∀ top, Below t.untagEmpty top := by
  have hbias : t.bias = 0 := (hs.format.resolve_left htag).2
  have hzero : ∀ i < 1 <<< t.hashLog, t.table.getD i 0 = 0 := by
    intro i hi
    have := hempty i hi
    omega
  refine ⟨⟨hs.size, .inl rfl, (Nat.le_add_right _ _).trans hs.width⟩, ⟨fun i hi => ?_, fun i hi => ?_⟩,
    fun top i hi => ?_⟩
  · change t.table.getD i 0 / 2 ^ 0 ≤ t.bias
    rw [hzero i hi]
    exact Nat.zero_le _
  · change t.table.getD i 0 < 2 ^ 32
    rw [hzero i hi]
    decide
  · change t.table.getD i 0 ≤ _
    rw [hzero i hi]
    exact Nat.zero_le _

/-- Untagging right after a reset, for a window or an input past what a tagged slot holds. -/
theorem Inv.untag (h : Inv x) (hhead : x.log.head? = some .clear) (htag : x.table.tagBits ≠ 0) :
    Inv { x with matcher := { x.matcher with hashTable := x.table.untagEmpty } } := by
  obtain ⟨log, hlog⟩ : ∃ log, x.log = .clear :: log := by
    cases hx : x.log with
    | nil => simp [hx] at hhead
    | cons op log =>
      rw [hx, List.head?_cons] at hhead
      exact ⟨log, by rw [Option.some.inj hhead]⟩
  have hx := h.tagged htag
  obtain ⟨hshaped, hholds, hbelow⟩ := untag_holds log h.shaped htag (hx.empty hhead)
  refine ⟨hshaped, ?_, h.unbiased, fun _ => hbelow _, h.highWater, h.maxWindow, h.size, h.primed,
    h.inPlace, fun hne => absurd rfl hne⟩
  change Holds _ x.log
  rw [hlog]
  exact hholds

theorem Inv.widen (h : Inv x) {len : Nat}
    (hstep : step (.widenForDictionary len) x = some y) : Inv y := by
  rw [step] at hstep
  split at hstep
  · rename_i hin
    obtain rfl := Option.some.inj hstep
    have howned : x.matcher.borrowed = none := Option.isNone_iff_eq_none.mp hin.1
    -- the window may only outgrow a tagged slot where the table goes on untagged
    have hwiden : ∀ z : FastFrame, Inv z → z.matcher.borrowed = none → ∀ size,
        size ≤ maxPrimedWindowSize →
        (z.table.tagBits ≠ 0 → taggedPositionsFit size = true) →
        Inv { z with matcher := { z.matcher with window := z.window.setMaxWindowSize size } } := by
      intro z hz hnone size hsize hfit
      refine ⟨hz.shaped, hz.holds, hz.unbiased, hz.below, hz.highWater, hsize, hz.size, hz.primed,
        hz.inPlace, fun hne => ?_⟩
      have ht := hz.tagged hne
      exact ⟨ht.plain, hfit hne, ht.size, ht.inPlace, ht.empty⟩
    rw [FastKernelMatcher.widenForDictionary]
    by_cases hout : x.table.isTagged = true ∧
        ¬taggedPositionsFit (min (x.window.maxWindowSize + len) maxPrimedWindowSize) = true
    · simp only [if_pos hout]
      have htag : x.table.tagBits ≠ 0 := by simpa [isTagged] using hout.1
      exact hwiden _ (h.untag hin.2 htag) howned _ (Nat.min_le_right _ _) fun hne => absurd rfl hne
    · simp only [if_neg hout]
      refine hwiden x h howned _ (Nat.min_le_right _ _) fun hne => ?_
      by_contra hfit
      exact hout ⟨by simpa [isTagged] using hne, hfit⟩
  · cases hstep

theorem Inv.setBorrowed (h : Inv x) {len : Nat}
    (hstep : step (.setBorrowedWindow len) x = some y) : Inv y := by
  rw [step] at hstep
  split at hstep
  · rename_i hin
    obtain ⟨m, hm, rfl⟩ := Option.map_eq_some_iff.mp hstep
    rw [FastKernelMatcher.setBorrowedWindow] at hm
    split at hm
    · obtain rfl := Option.some.inj hm
      simp only [scansInPlace, Bool.and_eq_true, beq_iff_eq] at hin
      obtain ⟨⟨hhead, hframe⟩, hend⟩ := hin
      have hplace : x.matcher.virtualEnd len ≤ u32Max ∧
          (x.window.dict.attached = false → x.window.dict.regionLen < hashReadSize) := by
        rw [FastKernelMatcher.virtualEnd, FastKernelMatcher.inputBase]
        split at hend
        · rename_i hattached
          rw [if_pos hattached]
          exact ⟨of_decide_eq_true hend, fun hno => by simp [hno] at hattached⟩
        · rename_i hattached
          have hends := of_decide_eq_true hend
          rw [if_neg hattached]
          exact ⟨hends.2, fun _ => hends.1⟩
      -- in place, whatever the table's format
      have hborrow : ∀ z : FastFrame, Inv z → z.window = x.window → z.attachFrame = x.attachFrame →
          (z.table.tagBits ≠ 0 → len ≤ taggedPositionLimit) →
          Inv { z with matcher := { z.matcher with borrowed := some len } } := by
        intro z hz hwindow hattach hfit
        refine ⟨hz.shaped, hz.holds, hz.unbiased, hz.below, hz.highWater, hz.maxWindow, hz.size,
          hz.primed, ?_, fun hne => ?_⟩
        · intro n hn
          obtain rfl := Option.some.inj hn
          change z.window.dict.attached = z.attachFrame ∧ _
          rw [hwindow, hattach]
          refine ⟨hframe, ?_, ?_⟩
          · have := hplace.1
            simpa only [FastKernelMatcher.virtualEnd, FastKernelMatcher.inputBase, window,
              ← hwindow] using this
          · simpa only [window, ← hwindow] using hplace.2
        · have ht := hz.tagged hne
          refine ⟨ht.plain, ht.window, ht.size, ?_, ht.empty⟩
          intro n hn
          obtain rfl := Option.some.inj hn
          exact hfit hne
      by_cases hout : x.table.isTagged = true ∧ taggedPositionLimit < len
      · simp only [if_pos hout]
        have htag : x.table.tagBits ≠ 0 := by simpa [isTagged] using hout.1
        exact hborrow _ (h.untag hhead htag) rfl rfl fun hne => absurd rfl hne
      · simp only [if_neg hout]
        refine hborrow x h rfl rfl fun hne => Nat.le_of_not_lt fun hlt => ?_
        exact hout ⟨by simpa [isTagged] using hne, hlt⟩
    · cases hm
  · cases hstep

/-- An in-place scan raises the high-water mark to the window's end first. -/
theorem Inv.raise (h : Inv x) {top : Nat} (htop : top ≤ u32Max) :
    Inv { x with matcher := { x.matcher with
      tablePosHighWater := max x.matcher.tablePosHighWater top } } :=
  h.withMatcher rfl (Nat.le_max_left _ _) (max_le h.highWater htop) (Nat.le_refl _) (Nat.le_refl _)
    (fun hne => (h.unbiased hne).1) h.primed (.inr ⟨rfl, rfl, rfl⟩)

theorem Inv.startMatchingBorrowed (h : Inv x) {hash : Nat → Nat} {start stop : Nat}
    {positions : List Nat} (hadm : Admitted x (.startMatchingBorrowed hash start stop positions))
    (hstep : step (.startMatchingBorrowed hash start stop positions) x = some y) : Inv y := by
  have hfit := h.stores_fit hadm hstep
  rw [step] at hstep
  split at hstep
  · rename_i hin
    obtain rfl := Option.some.inj hstep
    obtain ⟨total, htotal, -, hstop⟩ := blockInBounds_iff hin.1
    have hend := (virtualEnd_le hstop).trans (h.inPlace total htotal).2.1
    refine (h.raise hend).store h.plain_put fun p hp => ⟨hfit p hp, ?_⟩
    have hle := Nat.le_trans (Nat.le_add_right p _) (hin.2 p hp)
    exact hle.trans ((Nat.le_max_right _ _).trans (Nat.le_max_left _ _))
  · cases hstep

theorem le_foldl_max (positions : List Nat) (n : Nat) :
    n ≤ positions.foldl max n ∧ ∀ p ∈ positions, p ≤ positions.foldl max n := by
  induction positions generalizing n with
  | nil => simp
  | cons q qs ih =>
    obtain ⟨hn, hqs⟩ := ih (max n q)
    refine ⟨(Nat.le_max_left n q).trans hn, fun p hp => ?_⟩
    rcases List.mem_cons.mp hp with rfl | hp
    · exact (Nat.le_max_right n p).trans hn
    · exact hqs p hp

theorem Inv.skipMatchingBorrowed (h : Inv x) {hash : Nat → Nat} {start stop : Nat}
    {hint : Option Bool} (hadm : Admitted x (.skipMatchingBorrowed hash start stop hint))
    (hstep : step (.skipMatchingBorrowed hash start stop hint) x = some y) : Inv y := by
  have hfit := h.stores_fit hadm hstep
  rw [step] at hstep
  split at hstep
  · obtain rfl := Option.some.inj hstep
    obtain ⟨hkeeps, hreach⟩ := le_foldl_max
      (x.stores (.skipMatchingBorrowed hash start stop hint)) x.skippedTo
    have hskipped : Inv { x with skippedTo :=
        (x.stores (.skipMatchingBorrowed hash start stop hint)).foldl max x.skippedTo } :=
      ⟨h.shaped, h.holds, h.unbiased, fun hu => (h.below hu).mono (max_le_max_left _ hkeeps),
        h.highWater, h.maxWindow, h.size, h.primed, h.inPlace, fun hne =>
        (h.tagged hne).narrow rfl (Nat.le_refl _) (Nat.le_max_left _ _) (h.tagged hne).inPlace
          (h.tagged hne).empty⟩
    exact hskipped.store (.inl rfl) fun p hp =>
      ⟨hfit p hp, (hreach p hp).trans (Nat.le_max_right _ _)⟩
  · cases hstep

theorem Inv.skipLongMatchBorrowed (h : Inv x) {hash : Nat → Nat} {start stop : Nat}
    (hstep : step (.skipLongMatchBorrowed hash start stop) x = some y) : Inv y := by
  have hfit := h.stores_fit (s := .skipLongMatchBorrowed hash start stop) trivial hstep
  rw [step] at hstep
  split at hstep
  · rename_i hin
    obtain rfl := Option.some.inj hstep
    obtain ⟨total, htotal, -, hstop⟩ := blockInBounds_iff hin.1
    obtain ⟨-, hend, hshort⟩ := h.inPlace total htotal
    have hregion : x.matcher.inputBase < hashReadSize := hshort hin.2
    have hplain : x.matcher.virtualEnd total = total := by
      rw [FastKernelMatcher.virtualEnd, if_neg]
      have := hin.2
      simpa using this
    rw [hplain] at hend
    refine (h.raise (hstop.trans hend)).store (.inl rfl) fun p hp => ⟨hfit p hp, ?_⟩
    obtain ⟨q, hq, rfl⟩ := List.mem_map.mp hp
    have hq := mem_rangePositions hq
    change x.matcher.inputBase + q ≤ max (max x.matcher.tablePosHighWater stop) x.skippedTo
    omega
  · cases hstep

end Steps

section Steps

variable {x y : FastFrame}

/-- A table laid out anew holds nothing. -/
theorem bind_fresh {t t' : FastHashTable} {kept : Bool} {hashLog mls : Nat} {tagged : Bool}
    (log : List SlotOp) (h : t.bind kept hashLog mls tagged = some (t', false)) :
    Shaped t' ∧ Holds t' (.clear :: log) ∧ (∀ top, Below t' top) ∧ t'.bias = 0 ∧
      t'.tagBits = if tagged then slotTagBits else 0 := by
  rw [FastHashTable.bind] at h
  by_cases hparams : validParams hashLog mls = true ∧
      hashLog + (if tagged = true then slotTagBits else 0) ≤ 32
  · simp only [if_pos hparams] at h
    by_cases hsame : (kept && (t.hashLog == hashLog && t.mls == mls &&
        t.tagBits == if tagged = true then slotTagBits else 0)) = true
    · rw [if_pos hsame] at h
      cases h
    · rw [if_neg hsame] at h
      obtain ⟨rfl, -⟩ := Prod.mk.inj (Option.some.inj h)
      have hzero : ∀ i, (List.replicate (1 <<< hashLog) 0).getD i 0 = 0 := by
        intro i
        simp only [List.getD_eq_getElem?_getD, List.getElem?_replicate]
        split <;> rfl
      refine ⟨⟨List.length_replicate, ?_, hparams.2⟩, ⟨fun i _ => ?_, fun i _ => ?_⟩,
        fun top i _ => ?_, rfl, rfl⟩
      · cases tagged
        · exact .inl rfl
        · exact .inr ⟨rfl, rfl⟩
      · rw [hzero]
        exact Nat.le_of_eq (Nat.zero_div _)
      · rw [hzero]
        decide
      · rw [hzero]
        exact Nat.zero_le _
  · simp only [if_neg hparams] at h
    cases h

/-- A table that goes on from the previous frame's keeps its shape. -/
theorem bind_kept {t t' : FastHashTable} {kept : Bool} {hashLog mls : Nat} {tagged : Bool}
    (h : t.bind kept hashLog mls tagged = some (t', true)) :
    t' = t ∧ kept = true ∧ t.tagBits = if tagged then slotTagBits else 0 := by
  rw [FastHashTable.bind] at h
  by_cases hparams : validParams hashLog mls = true ∧
      hashLog + (if tagged = true then slotTagBits else 0) ≤ 32
  · simp only [if_pos hparams] at h
    by_cases hsame : (kept && (t.hashLog == hashLog && t.mls == mls &&
        t.tagBits == if tagged = true then slotTagBits else 0)) = true
    · rw [if_pos hsame] at h
      obtain ⟨rfl, -⟩ := Prod.mk.inj (Option.some.inj h)
      simp only [Bool.and_eq_true, beq_iff_eq] at hsame
      obtain ⟨hkept, ⟨rfl, rfl⟩, htag⟩ := hsame
      rw [← htag]
      exact ⟨rfl, hkept, rfl⟩
    · rw [if_neg hsame] at h
      cases h
  · simp only [if_neg hparams] at h
    cases h

theorem maxWindow_le {windowLog : Nat} (h : windowLog ≤ 30) :
    1 <<< windowLog ≤ maxPrimedWindowSize := by
  rw [Nat.shiftLeft_eq, Nat.one_mul]
  exact (Nat.pow_le_pow_right (by decide) h).trans (by decide)

/-- The window of a frame that starts empty, within a tagged slot's reach if its slots carry
tags. -/
theorem tagLimits_fresh {shape : FastFrameShape} (hlog : shape.windowLog ≤ 30)
    (htag : shape.tagged = true) :
    taggedPositionsFit (1 <<< shape.windowLog) = true ∧ shape.carry ≠ .advanceEpoch := by
  simp only [FastFrameShape.tagged, Bool.and_eq_true, bne_iff_ne] at htag
  obtain ⟨⟨⟨-, hcarry⟩, -⟩, hfit⟩ := htag
  have hwindow : 1 <<< shape.windowLog ≤ shape.primedWindow :=
    le_min (Nat.le_add_right _ _) (maxWindow_le hlog)
  have := of_decide_eq_true hfit
  exact ⟨decide_eq_true (by omega), hcarry⟩

/-- A frame that starts over an emptied table and an empty window. -/
theorem inv_fresh {shape : FastFrameShape} {t : FastHashTable} {w : FastWindow} {dict : DictAttach}
    {log : List SlotOp} (hlog : shape.windowLog ≤ 30) (hs : Shaped t)
    (hh : Holds t (.clear :: log)) (hbelow : ∀ top, Below t top) (hbias : t.bias = 0)
    (htag : t.tagBits = if shape.tagged then slotTagBits else 0)
    (hprimed : dict.primed = true → dict.attached = true) (resident : Bool) :
    Inv { matcher :=
            { window := w.reset shape.windowLog dict none
              hashTable := t
              borrowed := none
              tablePosHighWater := 0
              dictResident := resident
              dictCopyFillNext := 0 }
          log := .clear :: log
          attachFrame := shape.carry == TableCarry.advanceEpoch
          skippedTo := 0 } := by
  refine ⟨hs, hh, fun hne => absurd hbias hne, fun _ => hbelow _, Nat.zero_le _,
    maxWindow_le hlog, Nat.zero_le _, hprimed, fun len hlen => (by cases hlen), fun hne => ?_⟩
  have htagged : shape.tagged = true := by
    by_contra hno
    rw [Bool.not_eq_true] at hno
    rw [hno] at htag
    exact hne htag
  obtain ⟨hfit, hcarry⟩ := tagLimits_fresh hlog htagged
  refine ⟨?_, hfit, ?_, fun len hlen => (by cases hlen), fun _ => hbelow 0⟩
  · simpa using hcarry
  · change 0 + maxBlockSize ≤ taggedPositionLimit
    decide

/-- What a reset leaves of the table: a new one, the next epoch, or an emptied one. -/
theorem resetTable_cases {m : FastKernelMatcher} {shape : FastFrameShape} {kept : Bool}
    {t : FastHashTable} {dict : DictAttach} {reborrow : Option Nat}
    (h : m.resetTable shape kept = some (t, dict, reborrow))
    (hcarry : shape.carry ≠ .overwrittenByRestore shape.tagged) :
    (m.hashTable.bind kept shape.hashLog shape.mls shape.tagged = some (t, false) ∧
        dict = .new ∧ reborrow = none) ∨
      kept = true ∧ m.hashTable.tagBits = (if shape.tagged then slotTagBits else 0) ∧
        dict = m.window.dict ∧
        (shape.carry = .advanceEpoch ∧ m.window.dict.primed = true ∧
            t = m.hashTable.advanceEpoch (min m.tablePosHighWater u32Max) ∧
            (∀ region, reborrow = some region → region ≤ m.window.committedLen) ∨
          t = m.hashTable.clear ∧ reborrow = none) := by
  rw [FastKernelMatcher.resetTable] at h
  cases hbind : m.hashTable.bind kept shape.hashLog shape.mls shape.tagged with
  | none => simp [hbind] at h
  | some r =>
    obtain ⟨t', goes⟩ := r
    cases goes with
    | false =>
      simp only [hbind, Option.some.injEq, Prod.mk.injEq] at h
      obtain ⟨rfl, rfl, rfl⟩ := h
      exact .inl ⟨rfl, rfl, rfl⟩
    | true =>
      obtain ⟨rfl, hkept, htag⟩ := bind_kept hbind
      simp only [hbind, if_neg hcarry] at h
      refine .inr ⟨hkept, htag, ?_⟩
      by_cases hadvance : shape.carry = .advanceEpoch ∧ m.window.dict.primed = true
      · rw [if_pos hadvance, Option.some.injEq, Prod.mk.injEq, Prod.mk.injEq] at h
        obtain ⟨rfl, rfl, rfl⟩ := h
        refine ⟨rfl, .inl ⟨hadvance.1, hadvance.2, rfl, fun region hregion => ?_⟩⟩
        split at hregion
        · rename_i hin
          rw [← Option.some.inj hregion]
          exact hin.2
        · cases hregion
      · rw [if_neg hadvance, Option.some.injEq, Prod.mk.injEq, Prod.mk.injEq] at h
        obtain ⟨rfl, rfl, rfl⟩ := h
        exact ⟨rfl, .inr ⟨rfl, rfl⟩⟩

/-- The window of the next frame is within the limits of the last. -/
theorem reset_window {w : FastWindow} {windowLog : Nat} {dict : DictAttach} {reborrow : Option Nat}
    (hlog : windowLog ≤ 30) (hregion : ∀ region, reborrow = some region → region ≤ w.committedLen) :
    (w.reset windowLog dict reborrow).maxWindowSize ≤ maxPrimedWindowSize ∧
      (w.reset windowLog dict reborrow).committedLen ≤ w.committedLen ∧
      (w.reset windowLog dict reborrow).dict = dict := by
  have hmax := maxWindow_le hlog
  cases reborrow with
  | none => exact ⟨hmax, Nat.zero_le _, rfl⟩
  | some region =>
    refine ⟨?_, ?_, rfl⟩
    · change 1 <<< windowLog + min region (maxPrimedWindowSize - 1 <<< windowLog) ≤ _
      omega
    · simp [FastWindow.reset, FastWindow.committedLen, FastWindow.empty, FastWindow.live]

/-- Past its marks, an advance of the epoch leaves the next frame nothing to read. -/
theorem Inv.reset (h : Inv x) {shape : FastFrameShape} {kept dictKept : Bool}
    (hadm : Admitted x (.reset shape kept dictKept))
    (hstep : step (.reset shape kept dictKept) x = some y) : Inv y := by
  rw [step] at hstep
  split at hstep
  · rename_i hguard
    obtain ⟨m, hm, rfl⟩ := Option.map_eq_some_iff.mp hstep
    rw [FastKernelMatcher.reset] at hm
    split at hm
    · rename_i hparams
      obtain ⟨⟨t, dict, reborrow⟩, ht, rfl⟩ := Option.map_eq_some_iff.mp hm
      generalize hd : (if dictKept = true then x.window.dict else x.window.dict.invalidate) = d
        at ht
      have hprimed : d.primed = true → d.attached = true ∧ dictKept = true ∧
          x.window.dict.primed = true := by
        subst hd
        cases dictKept with
        | true => exact fun hp => ⟨h.primed hp, rfl, hp⟩
        | false => exact fun hp => (by cases hp)
      rcases resetTable_cases ht hguard.2 with ⟨hbind, rfl, rfl⟩ |
        ⟨hkept, htag, rfl, ⟨hcarry, hp, rfl, hregion⟩ | ⟨rfl, rfl⟩⟩
      · obtain ⟨hs, hh, hbelow, hbias, htag⟩ := bind_fresh x.log hbind
        exact inv_fresh hparams.2 hs hh hbelow hbias htag (fun hp => (by cases hp)) _
      · -- the frame attaches again: whatever is stored lies below the old marks
        obtain ⟨hattached, hdictKept, hwas⟩ := hprimed hp
        have hu : x.table.tagBits = 0 :=
          htag.trans (if_neg fun htagged => (tagLimits_fresh hparams.2 htagged).2 hcarry)
        have hspan : min x.matcher.tablePosHighWater u32Max = x.matcher.tablePosHighWater :=
          Nat.min_eq_left h.highWater
        have hbelow : x.table.epochFits x.matcher.tablePosHighWater →
            Below x.table x.matcher.tablePosHighWater := by
          intro hfit
          have hskip := hadm ⟨hkept, hdictKept, hcarry, hwas, hfit⟩
          exact (h.below hu).mono (max_le (Nat.le_refl _) hskip)
        have htag' : (x.table.advanceEpoch x.matcher.tablePosHighWater).tagBits = 0 :=
          (advanceEpoch_tagBits _).trans hu
        obtain ⟨hmax, hlen, hdict⟩ := reset_window hparams.2 hregion
        simp only [hspan]
        refine ⟨h.shaped.advanceEpoch hu _, h.holds.advanceEpoch hu hbelow, fun _ => ?_,
          fun _ => Below.advanceEpoch hbelow _, Nat.zero_le _, hmax, hlen.trans h.size, ?_,
          fun len hlen => (by cases hlen), fun hne => absurd htag' hne⟩
        · rw [window, hdict, hcarry]
          exact ⟨hattached, rfl⟩
        · rw [window, hdict]
          exact fun hp => (hprimed hp).1
      · exact inv_fresh hparams.2 h.shaped.clear (Holds.clear _ _) (Below.clear _) rfl htag
          (fun hp => (hprimed hp).1) _
    · cases hm
  · cases hstep

end Steps

/-- Every admitted step keeps the invariant. -/
theorem Inv.step {x y : FastFrame} (h : Inv x) {s : FastStep} (hadm : Admitted x s)
    (hstep : FastFrame.step s x = some y) : Inv y := by
  cases s with
  | reset shape kept dictKept => exact h.reset hadm hstep
  | widenForDictionary len => exact h.widen hstep
  | settleWindow size => exact h.windowStep (.inl ⟨size, rfl⟩) hstep
  | trimToWindow => exact h.trimToWindow hadm hstep
  | fillUncommitted bytes => exact h.windowStep (.inr (.inl ⟨bytes, rfl⟩)) hstep
  | commitBlock len => exact h.commitBlock hadm hstep
  | uncommitBlock len => exact h.windowStep (.inr (.inr (.inl ⟨len, rfl⟩))) hstep
  | indexFloor floor => exact h.windowStep (.inr (.inr (.inr (.inl ⟨floor, rfl⟩)))) hstep
  | dictPrime => exact h.dictPrime hstep
  | markDictPrimed => exact h.windowStep (.inr (.inr (.inr (.inr (.inl rfl))))) hstep
  | dictCopy hash => exact h.dictCopy hstep
  | startMatching hash positions => exact h.startMatching hadm hstep
  | skipMatching hash hint => exact h.skipMatching hadm hstep
  | skipLongMatch hash => exact h.skipLongMatch hadm hstep
  | setBorrowedWindow len => exact h.setBorrowed hstep
  | clearBorrowedWindow => exact h.windowStep (.inr (.inr (.inr (.inr (.inr rfl))))) hstep
  | startMatchingBorrowed hash start stop positions => exact h.startMatchingBorrowed hadm hstep
  | skipMatchingBorrowed hash start stop hint => exact h.skipMatchingBorrowed hadm hstep
  | skipLongMatchBorrowed hash start stop => exact h.skipLongMatchBorrowed hstep

/-- A lookup names the last position stored in its slot under its tag since the table was last
cleared, less the slides since. -/
def NamesLastPut (x : FastFrame) : Prop :=
  ∀ hash < 2 ^ (x.table.hashLog + x.table.tagBits),
    x.table.get hash = named (held x.log (hash / 2 ^ x.table.tagBits)) (hash % 2 ^ x.table.tagBits)

/-- Every position the table holds stands in its slot unwrapped, above the bias and beside the
tag. -/
def Unwrapped (x : FastFrame) : Prop :=
  ∀ slot < 1 <<< x.table.hashLog, ∀ e, held x.log slot = some e →
    e.2 + x.table.bias < 2 ^ (32 - x.table.tagBits)

theorem Inv.unwrapped {x : FastFrame} (h : Inv x) : Unwrapped x := by
  intro slot hslot e he
  have hst := h.holds.stands slot hslot
  rw [he] at hst
  have hwidth := h.shaped.width
  rw [← hst.1]
  apply Nat.div_lt_of_lt_mul
  rw [← Nat.pow_add, show x.table.tagBits + (32 - x.table.tagBits) = 32 by omega]
  exact h.holds.fits slot hslot

end FastFrame

/-- A call of the driver: a step of the frame, the snapshot of a frame whose dictionary was copied,
or a reset with that snapshot restored over it. -/
inductive FastCall where
  | step (s : FastStep)
  | capture
  | restore (shape : FastFrameShape) (kept : Bool)

/-- The matcher of a context, with the snapshot of its primed dictionary. -/
structure FastContext where
  live : FastFrame
  snapshot : Option FastFrame

namespace FastContext

open FastFrame

/-- A restore lands where the reset chose the snapshot's slot format. -/
def call : FastCall → FastContext → Option FastContext
  | .step s, c => (FastFrame.step s c.live).map fun live => { c with live := live }
  | .capture, c =>
    if c.live.owned ∧ c.live.attachFrame = false then some { c with snapshot := some c.live }
    else none
  | .restore shape kept, c =>
    c.snapshot.bind fun frame =>
      if shape.carry = .overwrittenByRestore frame.table.isTagged ∧
          shape.tagged = frame.table.isTagged ∧ (c.live.matcher.reset shape kept).isSome then
        some { c with live := frame }
      else none

/-- A context ahead of its first frame. -/
def new (windowLog hashLog mls : Nat) : FastContext where
  live := ⟨.withParamsDeferred windowLog hashLog mls, [], false, 0⟩
  snapshot := none

/-- The contexts reached by calls that meet a condition, from the reset of the first frame on. -/
inductive Run (C : FastContext → FastCall → Prop) : FastContext → Prop where
  | start {windowLog hashLog mls : Nat} {shape : FastFrameShape} {c : FastContext}
      (h : call (.step (.reset shape false false)) (new windowLog hashLog mls) = some c) : Run C c
  | next {c c' : FastContext} {s : FastCall} (h : Run C c) (hC : C c s)
      (hs : call s c = some c') : Run C c'

/-- A call whose step of the frame is admitted. -/
def Admits (c : FastContext) : FastCall → Prop
  | .step s => Admitted c.live s
  | _ => True

/-- The first reset lays the table out. -/
theorem inv_start {windowLog hashLog mls : Nat} {shape : FastFrameShape} {y : FastFrame}
    (h : FastFrame.step (.reset shape false false) (new windowLog hashLog mls).live = some y) :
    Inv y := by
  rw [FastFrame.step] at h
  split at h
  · rename_i hguard
    obtain ⟨m, hm, rfl⟩ := Option.map_eq_some_iff.mp h
    rw [FastKernelMatcher.reset] at hm
    split at hm
    · rename_i hparams
      obtain ⟨⟨t, dict, reborrow⟩, ht, rfl⟩ := Option.map_eq_some_iff.mp hm
      rcases resetTable_cases ht hguard.2 with ⟨hbind, rfl, rfl⟩ | ⟨hkept, -⟩
      · obtain ⟨hs, hh, hbelow, hbias, htag⟩ := bind_fresh [] hbind
        exact inv_fresh hparams.2 hs hh hbelow hbias htag (fun hp => (by cases hp)) _
      · cases hkept
    · cases hm
  · cases h

/-- Every frame of an admitted run, and its snapshot, keeps the invariant. -/
theorem Run.inv {c : FastContext} (h : Run Admits c) :
    Inv c.live ∧ ∀ frame, c.snapshot = some frame → Inv frame := by
  induction h with
  | start h =>
    obtain ⟨live, hlive, rfl⟩ := Option.map_eq_some_iff.mp h
    exact ⟨inv_start hlive, fun frame hframe => (by cases hframe)⟩
  | @next c c' s hrun hC hs ih =>
    obtain ⟨hlive, hsnapshot⟩ := ih
    cases s with
    | step s =>
      obtain ⟨live, hstep, rfl⟩ := Option.map_eq_some_iff.mp hs
      exact ⟨hlive.step hC hstep, hsnapshot⟩
    | capture =>
      rw [call] at hs
      split at hs
      · obtain rfl := Option.some.inj hs
        refine ⟨hlive, fun frame hframe => ?_⟩
        obtain rfl := Option.some.inj hframe
        exact hlive
      · cases hs
    | restore shape kept =>
      obtain ⟨frame, hframe, hs⟩ := Option.bind_eq_some_iff.mp hs
      split at hs
      · obtain rfl := Option.some.inj hs
        exact ⟨hsnapshot frame hframe, hsnapshot⟩
      · cases hs

/-- In a run that never advances the epoch below a skipped block and whose windows leave the bias
room, the table is a map from each hash to the last position stored under it, and no stored
position wraps. -/
theorem fast_table_names_last_put {c : FastContext} (h : Run Admits c) :
    NamesLastPut c.live ∧ Unwrapped c.live ∧
      ∀ s y, Admitted c.live s → FastFrame.step s c.live = some y →
        ∀ p ∈ c.live.stores s, p + c.live.table.bias < 2 ^ (32 - c.live.table.tagBits) := by
  have hinv := h.inv.1
  refine ⟨fun hash hhash => hinv.holds.get_eq hinv.shaped hhash, hinv.unwrapped, ?_⟩
  intro s y hadm hstep
  exact hinv.stores_fit hadm hstep

/-- Calls one after another, while each meets a condition. -/
def callEach (C : FastContext → FastCall → Bool) : List FastCall → FastContext → Option FastContext
  | [], c => some c
  | s :: calls, c => if C c s then (call s c).bind (callEach C calls) else none

theorem Run.callEach {C : FastContext → FastCall → Prop} {check : FastContext → FastCall → Bool}
    {calls : List FastCall} {c c' : FastContext} (h : Run C c)
    (hC : ∀ c s, check c s = true → C c s)
    (hcalls : FastContext.callEach check calls c = some c') : Run C c' := by
  induction calls generalizing c with
  | nil =>
    obtain rfl := Option.some.inj hcalls
    exact h
  | cons s calls ih =>
    rw [FastContext.callEach] at hcalls
    split at hcalls
    · rename_i hcheck
      obtain ⟨d, hd, hrest⟩ := Option.bind_eq_some_iff.mp hcalls
      exact ih (.next h (hC c s hcheck) hd) hrest
    · cases hcalls

instance (c : FastContext) : (s : FastCall) → Decidable (Admits c s)
  | .step s => inferInstanceAs (Decidable (Admitted c.live s))
  | .capture | .restore .. => isTrue trivial

/-- A frame that attaches a sixteen-byte dictionary. -/
def smallAttachFrame : FastFrameShape where
  windowLog := 10
  hashLog := 6
  mls := 4
  stepSize := 2
  expectedInput := 16
  dictionaryLen := 16
  carry := .advanceEpoch

/-- Two such frames over one dictionary, the first over what a call does with its input in
place. -/
def twoAttachFrames (check : FastContext → FastCall → Bool) (inPlace : FastStep) :
    Option FastContext :=
  (call (.step (.reset smallAttachFrame false false)) (new 10 6 4)).bind
    (callEach check [.step (.widenForDictionary 16),
      .step (.fillUncommitted ((List.range 16).map UInt8.ofNat)), .step (.commitBlock 16),
      .step .dictPrime, .step .markDictPrimed, .step (.setBorrowedWindow 16), .step inPlace,
      .step .clearBorrowedWindow, .step (.reset smallAttachFrame true true)])

theorem fast_table_names_last_put_scanned : ∃ c, twoAttachFrames (fun c s => decide (Admits c s))
      (.startMatchingBorrowed (fun _ => 0) 0 16 [16, 18]) = some c ∧ NamesLastPut c.live := by
  have hsome : (twoAttachFrames (fun c s => decide (Admits c s))
      (.startMatchingBorrowed (fun _ => 0) 0 16 [16, 18])).isSome = true := by decide +kernel
  obtain ⟨c, hc⟩ := Option.isSome_iff_exists.mp hsome
  obtain ⟨c₀, hstart, hcalls⟩ := Option.bind_eq_some_iff.mp hc
  exact ⟨c, hc, (fast_table_names_last_put
    ((Run.start hstart).callEach (fun _ _ => of_decide_eq_true) hcalls)).1⟩

/-- A skip in place of sixteen zero bytes, each position under the hash of zero bytes, stores past
the high-water mark: the second frame reads a position of the first. -/
theorem skipped_position_survives :
    ∃ c, Run (fun _ _ => True) c ∧ c.live.log.head? = some .clear ∧ ¬NamesLastPut c.live := by
  have hsome : (twoAttachFrames (fun _ _ => true)
      (.skipMatchingBorrowed (fun _ => 0) 0 16 (some false))).isSome = true := by decide +kernel
  obtain ⟨c, hc⟩ := Option.isSome_iff_exists.mp hsome
  obtain ⟨c₀, hstart, hcalls⟩ := Option.bind_eq_some_iff.mp hc
  have hread : (twoAttachFrames (fun _ _ => true)
      (.skipMatchingBorrowed (fun _ => 0) 0 16 (some false))).map
        (fun c => (c.live.table.get 0, c.live.log.head?)) = some (8, some .clear) := by
    decide +kernel
  have hshape : (twoAttachFrames (fun _ _ => true)
      (.skipMatchingBorrowed (fun _ => 0) 0 16 (some false))).map
        (fun c => c.live.table.hashLog + c.live.table.tagBits) = some 6 := by decide +kernel
  rw [hc, Option.map_some, Option.some.injEq, Prod.mk.injEq] at hread
  rw [hc, Option.map_some, Option.some.injEq] at hshape
  refine ⟨c, (Run.start hstart).callEach (fun _ _ _ => trivial) hcalls, hread.2, fun hnames => ?_⟩
  have hget := hnames 0 (by rw [hshape]; decide)
  rw [hread.1] at hget
  cases hlog : c.live.log with
  | nil => simp [hlog] at hread
  | cons op log =>
    rw [hlog, List.head?_cons, Option.some.injEq] at hread
    rw [hlog, hread.2] at hget
    cases hget

end FastContext

end Encoding
