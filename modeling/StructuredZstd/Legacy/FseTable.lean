import StructuredZstd.Bits.Walk
import StructuredZstd.Legacy.Description

namespace Legacy

open Bits Runs Guarded
open Fse (weight weightSum lowFrom itemsFrom)
open Fse.Distribution (stride stride_coprime)

structure FseCell where
  newState : Nat
  symbol : Nat
  nbBits : Nat
deriving Repr, DecidableEq

def FseCell.default : FseCell := ⟨0, 0, 0⟩

structure FseTable where
  log : Nat
  cells : List FseCell
  fast : Bool
deriving Repr, DecidableEq

namespace FseTable

def empty : FseTable := ⟨0, [], false⟩

/-- A table's cells while a distribution is spread over them. -/
structure Spread where
  cells : List FseCell
  next : List Nat
  high : Nat
  position : Nat
  /-- The cells given a symbol, in order: the source keeps no such list. -/
  written : List Nat
deriving Repr, DecidableEq

def overfills : LegacyFrameError := corrupt "FSE distribution overfills its table"

/-- Symbols below one state take the top cells, one each. -/
def placeBelow : List Int → Nat → Spread → Guarded (LegacyFrameError × Spread) Spread
  | [], _, s => pure s
  | count :: counts, symbol, s =>
    if count = -1 then
      if s.high = 0 then throw (overfills, s)
      else do
        let cell ← index s.cells (s.high - 1)
        let cells ← setAt s.cells (s.high - 1) { cell with symbol := symbol % 2 ^ 8 }
        let next ← setAt s.next symbol 1
        placeBelow counts (symbol + 1) { s with
          cells := cells
          next := next
          high := s.high - 1
          written := s.written ++ [s.high - 1] }
    else do
      let next ← setAt s.next symbol (max count 0).toNat
      placeBelow counts (symbol + 1) { s with next := next }

/-- Walk on to a cell below the top ones. -/
def skipHigh (size high position : Nat) : Guarded (LegacyFrameError × Spread) Nat :=
  whileLoop (fun p => high ≤ p) (fun p => pure ((p + stride size) &&& (size - 1))) (size + 1)
    ((position + stride size) &&& (size - 1))

def placeOne (size symbol : Nat) (s : Spread) : Guarded (LegacyFrameError × Spread) Spread :=
  if s.high = 0 then throw (overfills, s)
  else do
    let cell ← index s.cells s.position
    let cells ← setAt s.cells s.position { cell with symbol := symbol % 2 ^ 8 }
    let position ← skipHigh size s.high s.position
    pure { s with
      cells := cells
      position := position
      written := s.written ++ [s.position] }

def placeRun (size symbol : Nat) : Nat → Spread → Guarded (LegacyFrameError × Spread) Spread
  | 0, s => pure s
  | n + 1, s => do
    let s ← placeOne size symbol s
    placeRun size symbol n s

def placeAbove (size : Nat) : List Int → Nat → Spread → Guarded (LegacyFrameError × Spread) Spread
  | [], _, s => pure s
  | count :: counts, symbol, s => do
    let s ← placeRun size symbol (max count 0).toNat s
    placeAbove size counts (symbol + 1) s

def spread (size : Nat) (counts : List Int) : Guarded (LegacyFrameError × Spread) Spread := do
  let s ← placeBelow counts 0
    { cells := List.replicate size .default
      next := List.replicate 256 0
      high := size
      position := 0
      written := [] }
  let s ← placeAbove size counts 0 s
  if s.position ≠ 0 then throw (corrupt "FSE distribution does not fill its table", s)
  else pure s

/-- The bits each state reads, and where they lead. -/
def fillStates {ε : Type} (log size : Nat) : List FseCell → List Nat → Guarded ε (List FseCell)
  | [], _ => pure []
  | cell :: cells, next => do
    let state ← index next cell.symbol
    let raised ← unsigned 16 (state + 1)
    let next ← setAt next cell.symbol raised
    -- A state of zero has no leading one to count from.
    if state = 0 then stop
    else
      let nbBits ← sub log (Nat.log2 state)
      let newState ← sub (state <<< nbBits) size
      let filled ← fillStates log size cells next
      pure ({ cell with newState := newState % 2 ^ 16, nbBits := nbBits % 2 ^ 8 } :: filled)

/-- Spread a distribution into the table. A refusal leaves the table behind as far as it was built. -/
def build (table : FseTable) (dist : Distribution) :
    Guarded (LegacyFrameError × FseTable) FseTable :=
  if fseMaxTableLog < dist.tableLog then throw (corrupt "FSE table log too large", table)
  else do
    let size := 1 <<< dist.tableLog
    let counts ← slice dist.counts 0 (dist.maxSymbol + 1)
    let s ← mapError (fun (e, s) => (e, { table with cells := s.cells })) (spread size counts)
    let cells ← fillStates dist.tableLog size s.cells s.next
    let half ← sub dist.tableLog 1
    pure ⟨dist.tableLog, cells, counts.all (· < 1 <<< half)⟩

/-- Read every symbol as raw bits. -/
def setRaw (_table : FseTable) (nbBits : Nat) : FseTable :=
  ⟨nbBits, (List.range (1 <<< nbBits)).map fun symbol => ⟨0, symbol % 2 ^ 8, nbBits % 2 ^ 8⟩, true⟩

/-- Produce one symbol without reading. -/
def setRle (_table : FseTable) (symbol : Nat) : FseTable := ⟨0, [⟨0, symbol, 0⟩], false⟩

section Walk

/-- The walk over the cells below the top ones. -/
def walk (log limit : Nat) (hlog : 4 ≤ log) (hlimit : limit ≤ 2 ^ log) : Walk where
  size := 2 ^ log
  step := stride (2 ^ log)
  limit := limit
  coprime := stride_coprime hlog
  limit_le := hlimit
  size_pos := by positivity

variable (w : Walk)

theorem skip_lt (h0 : 0 < w.limit) {p : Nat} (hp : p < w.size) : w.skip w.size p < w.limit := by
  have hmem := w.places_perm.mem_iff.mpr (List.mem_range.mpr hp)
  obtain ⟨k, hk, rfl⟩ := List.mem_map.mp hmem
  rw [List.mem_range'_1] at hk
  obtain ⟨fuel, hfuel⟩ : ∃ fuel, w.size = fuel + 1 := ⟨w.size - 1, by omega⟩
  cases k with
  | zero =>
    rw [w.place_zero, hfuel]
    simp [Walk.skip, h0]
  | succ k =>
    rw [hfuel, w.skip_eq (n := fuel - k) (by omega) (by omega) h0]
    cases hs : w.stops (k + 1) (fuel - k) with
    | nil => exact h0
    | cons q rest =>
      have hq : q ∈ w.stops (k + 1) (fuel - k) := by simp [hs]
      simpa using (List.mem_filter.mp hq).2

theorem stops_tail {k n p : Nat} {rest : List Nat} (hk : k + n = w.size) (h0 : 0 < w.limit)
    (h : w.stops k n = p :: rest) :
    p < w.limit ∧ w.skip w.size ((p + w.step) % w.size) = rest.headD 0 ∧
      ∃ k' n', k' + n' = w.size ∧ rest = w.stops k' n' := by
  induction n generalizing k with
  | zero => cases h
  | succ n ih =>
    rw [w.stops_succ] at h
    split at h
    · rename_i hp
      cases h
      obtain ⟨fuel, hfuel⟩ : ∃ fuel, w.size = fuel + 1 := ⟨w.size - 1, by omega⟩
      refine ⟨hp, ?_, k + 1, n, by omega, rfl⟩
      rw [w.place_succ, hfuel]
      exact w.skip_eq (by omega) (by omega) h0
    · exact ih (by omega) h

end Walk

section Place

variable {log limit : Nat} (hlog : 4 ≤ log) (hlimit : limit ≤ 2 ^ log)

theorem whileLoop_skip (w : Walk) {body : Nat → Guarded (LegacyFrameError × Spread) Nat}
    (hbody : ∀ p, body p = pure ((p + w.step) % w.size)) {fuel p : Nat}
    (h : w.skip fuel p < w.limit) :
    whileLoop (fun p => w.limit ≤ p) body (fuel + 1) p = pure (w.skip fuel p) := by
  induction fuel generalizing p with
  | zero =>
    have hp : p < w.limit := h
    simp [whileLoop, Walk.skip, hp]
  | succ fuel ih =>
    rw [Walk.skip] at h ⊢
    rw [whileLoop]
    split at h
    · rename_i hp
      simp [hp]
    · rename_i hp
      simp only [hp, not_false_eq_true, Nat.le_of_not_lt, decide_true, if_true, if_false, hbody,
        pure_bind]
      exact ih h

theorem skipHigh_eq (h0 : 0 < limit) (p : Nat) :
    skipHigh (2 ^ log) limit p =
      pure ((walk log limit hlog hlimit).skip (2 ^ log) ((p + stride (2 ^ log)) % 2 ^ log)) := by
  unfold skipHigh
  rw [Nat.and_two_pow_sub_one_eq_mod]
  refine whileLoop_skip (walk log limit hlog hlimit) ?_ ?_
  · intro p
    rw [Nat.and_two_pow_sub_one_eq_mod]
    rfl
  · exact skip_lt (walk log limit hlog hlimit) h0 (Nat.mod_lt _ (by positivity))

/-- A cell that only has its symbol yet. -/
def blank (symbol : Nat) : FseCell := ⟨0, symbol, 0⟩

theorem map_blank_set (column : List Nat) (p symbol : Nat) :
    (column.map blank).set p (blank symbol) = (column.set p symbol).map blank :=
  List.map_set.symm

theorem place_cell {column : List Nat} {p symbol : Nat} (hp : p < column.length)
    (hsymbol : symbol < 256) {β : Type} {f : List FseCell → Guarded (LegacyFrameError × Spread) β} :
    (do
      let cell ← index (column.map blank) p
      let cells ← setAt (column.map blank) p { cell with symbol := symbol % 2 ^ 8 }
      f cells) = f ((column.set p symbol).map blank) := by
  have hcell : (column.map blank)[p]? = some (blank (column.get ⟨p, hp⟩)) := by
    simp [hp]
  rw [index_eq hcell, pure_bind, setAt_eq (by simpa using hp), pure_bind,
    Nat.mod_eq_of_lt (by simpa using hsymbol)]
  exact congrArg f (map_blank_set column p symbol)

/-- The symbols one after another, each at the next cell of the walk. -/
def placeEach (size : Nat) : List Nat → Spread → Guarded (LegacyFrameError × Spread) Spread
  | [], s => pure s
  | symbol :: symbols, s => do
    let s ← placeOne size symbol s
    placeEach size symbols s

theorem placeEach_append (size : Nat) (as bs : List Nat) (s : Spread) :
    placeEach size (as ++ bs) s = placeEach size as s >>= placeEach size bs := by
  induction as generalizing s with
  | nil => exact (pure_bind _ _).symm
  | cons a as ih =>
    rw [List.cons_append, placeEach, placeEach, bind_assoc]
    exact congrArg _ (funext fun s => ih s)

theorem placeRun_eq (size symbol n : Nat) (s : Spread) :
    placeRun size symbol n s = placeEach size (List.replicate n symbol) s := by
  induction n generalizing s with
  | zero => rfl
  | succ n ih =>
    rw [placeRun, List.replicate_succ, placeEach]
    exact congrArg _ (funext fun s => ih s)

theorem placeAbove_eq (size : Nat) (counts : List Int) (symbol : Nat) (s : Spread) :
    placeAbove size counts symbol s = placeEach size (itemsFrom counts symbol) s := by
  induction counts generalizing symbol s with
  | nil => rfl
  | cons count counts ih =>
    have hrest : placeAbove size counts (symbol + 1) = placeEach size (itemsFrom counts (symbol + 1)) :=
      funext fun s => ih (symbol + 1) s
    rw [placeAbove, itemsFrom, placeRun_eq, hrest]
    split
    · rename_i hle
      rw [max_eq_right hle]
      exact pure_bind _ _
    · rename_i hle
      rw [max_eq_left (by omega), placeEach_append]

theorem placeOne_eq (h0 : 0 < limit) {column next : List Nat} (hcolumn : column.length = 2 ^ log)
    {symbol p : Nat} (hsymbol : symbol < 256) (hp : p < 2 ^ log) (written : List Nat) :
    placeOne (2 ^ log) symbol ⟨column.map blank, next, limit, p, written⟩ =
      pure ⟨(column.set p symbol).map blank, next, limit,
        (walk log limit hlog hlimit).skip (2 ^ log) ((p + stride (2 ^ log)) % 2 ^ log),
        written ++ [p]⟩ := by
  unfold placeOne
  rw [if_neg (Nat.ne_of_gt h0)]
  dsimp only
  rw [place_cell (by omega) hsymbol, skipHigh_eq hlog hlimit h0, pure_bind]

/-- The symbols land on the stops of the walk, in order. -/
theorem placeEach_eq (h0 : 0 < limit) (next : List Nat) {symbols : List Nat}
    (hsymbols : ∀ a ∈ symbols, a < 256) {k n : Nat} (hk : k + n = 2 ^ log) {column : List Nat}
    (hcolumn : column.length = 2 ^ log) (written : List Nat)
    (hroom : symbols.length ≤ ((walk log limit hlog hlimit).stops k n).length) :
    placeEach (2 ^ log) symbols ⟨column.map blank, next, limit,
        ((walk log limit hlog hlimit).stops k n).headD 0, written⟩ =
      pure ⟨(Walk.setAll column
          (((walk log limit hlog hlimit).stops k n).zip symbols)).map blank, next, limit,
        (((walk log limit hlog hlimit).stops k n).drop symbols.length).headD 0,
        written ++ ((walk log limit hlog hlimit).stops k n).take symbols.length⟩ := by
  induction symbols generalizing k n column written with
  | nil => simp [placeEach, Walk.setAll]
  | cons a symbols ih =>
    cases hstops : (walk log limit hlog hlimit).stops k n with
    | nil =>
      rw [hstops] at hroom
      cases hroom
    | cons p rest =>
      obtain ⟨hp, hskip, k', n', hk', rfl⟩ :=
        stops_tail (walk log limit hlog hlimit) hk h0 hstops
      rw [hstops] at hroom
      have hp' : p < 2 ^ log := hp.trans_le hlimit
      rw [placeEach, List.headD_cons,
        placeOne_eq hlog hlimit h0 hcolumn
          (hsymbols a (List.mem_cons_self ..)) hp', pure_bind]
      have hskip' : (walk log limit hlog hlimit).skip (2 ^ log) ((p + stride (2 ^ log)) % 2 ^ log) =
          ((walk log limit hlog hlimit).stops k' n').headD 0 := hskip
      rw [hskip', ih (fun b hb => hsymbols b (List.mem_cons_of_mem _ hb)) hk' (by simpa using hcolumn)
        _ (by simpa using hroom)]
      simp [Walk.setAll]

/-- The top cells, from the one below `high` down. -/
def tops : Nat → Nat → List Nat
  | _, 0 => []
  | high, n + 1 => (high - 1) :: tops (high - 1) n

theorem tops_perm {high n : Nat} (h : n ≤ high) :
    (List.range (high - n) ++ tops high n).Perm (List.range high) := by
  induction n generalizing high with
  | zero => simp [tops]
  | succ n ih =>
    obtain ⟨high, rfl⟩ : ∃ k, high = k + 1 := ⟨high - 1, by omega⟩
    have hperm := ih (show n ≤ high by omega)
    rw [tops, Nat.add_sub_cancel, List.range_succ]
    have hsub : high + 1 - (n + 1) = high - n := by omega
    rw [hsub]
    exact List.perm_middle.trans ((hperm.cons high).trans (List.perm_append_singleton _ _).symm)

@[simp] theorem tops_length (high n : Nat) : (tops high n).length = n := by
  induction n generalizing high with
  | zero => rfl
  | succ n ih => simp [tops, ih]

/-- What the symbols below one state leave behind. -/
theorem placeBelow_eq {counts : List Int} (symbol : Nat) (hsymbol : symbol + counts.length ≤ 256)
    (hrange : ∀ c ∈ counts, -1 ≤ c) (column next : List Nat) (hnext : next.length = 256) (high : Nat)
    (hhigh : high ≤ column.length) (hroom : (lowFrom counts symbol).length ≤ high) (position : Nat)
    (written : List Nat) :
    ∃ next', placeBelow counts symbol ⟨column.map blank, next, high, position, written⟩ =
        pure ⟨(Walk.setAll column
            ((tops high (lowFrom counts symbol).length).zip (lowFrom counts symbol))).map blank,
          next', high - (lowFrom counts symbol).length, position,
          written ++ tops high (lowFrom counts symbol).length⟩ ∧
      next'.length = 256 ∧ (∀ i < counts.length, next'[symbol + i]? = some (weight (counts.getD i 0))) ∧
      ∀ j < symbol, next'[j]? = next[j]? := by
  induction counts generalizing symbol column next high written with
  | nil =>
    refine ⟨next, ?_, hnext, ?_, fun _ _ => rfl⟩
    · simp [placeBelow, lowFrom, tops, Walk.setAll]
    · rintro i hi
      cases hi
  | cons count counts ih =>
    have hrange' : ∀ c ∈ counts, -1 ≤ c := fun c hc => hrange c (List.mem_cons_of_mem _ hc)
    have hlo : -1 ≤ count := hrange count (List.mem_cons_self ..)
    rw [List.length_cons] at hsymbol
    have hweight : ∀ {next' : List Nat}, next'[symbol]? = some (weight count) →
        (∀ i < counts.length, next'[symbol + 1 + i]? = some (weight (counts.getD i 0))) →
        ∀ i < (count :: counts).length,
          next'[symbol + i]? = some (weight ((count :: counts).getD i 0)) := by
      intro next' hfirst hrest i hi
      cases i with
      | zero => exact hfirst
      | succ i =>
        rw [List.length_cons] at hi
        have := hrest i (by omega)
        rwa [Nat.add_assoc, Nat.add_comm 1 i] at this
    by_cases hlow : count = -1
    · subst hlow
      rw [lowFrom, if_pos rfl, List.length_cons] at hroom ⊢
      obtain ⟨high, rfl⟩ : ∃ k, high = k + 1 := ⟨high - 1, by omega⟩
      obtain ⟨next', heq, hlen, hset, hkeep⟩ := ih (symbol + 1) (by omega) hrange'
        (column.set high symbol) (next.set symbol 1) (by simpa using hnext) high
        (by rw [List.length_set]; omega) (by omega) (written ++ [high])
      refine ⟨next', ?_, hlen, hweight ?_ hset, ?_⟩
      · rw [placeBelow, if_pos rfl]
        dsimp only
        rw [if_neg (by omega), Nat.add_sub_cancel, place_cell (by omega) (by omega),
          setAt_eq (by omega), pure_bind, heq]
        simp [tops, Walk.setAll]
      · rw [hkeep symbol (by omega), List.getElem?_set_self (by omega)]
        rfl
      · intro j hj
        rw [hkeep j (by omega), List.getElem?_set_ne (by omega)]
    · rw [lowFrom, if_neg hlow] at hroom ⊢
      have hw : (max count 0).toNat = weight count := by
        rw [weight, if_neg hlow]
        omega
      obtain ⟨next', heq, hlen, hset, hkeep⟩ := ih (symbol + 1) (by omega) hrange' column
        (next.set symbol (weight count)) (by simpa using hnext) high hhigh hroom written
      refine ⟨next', ?_, hlen, hweight ?_ hset, ?_⟩
      · rw [placeBelow, if_neg hlow]
        dsimp only
        rw [setAt_eq (by omega), pure_bind, hw]
        exact heq
      · rw [hkeep symbol (by omega), List.getElem?_set_self (by omega)]
      · intro j hj
        rw [hkeep j (by omega), List.getElem?_set_ne (by omega)]

end Place

section Spread

theorem setAll_append (table : List Nat) (ps qs : List (Nat × Nat)) :
    Walk.setAll table (ps ++ qs) = Walk.setAll (Walk.setAll table ps) qs := by
  induction ps generalizing table with
  | nil => rfl
  | cons p ps ih => exact ih _

/-- A table written at every place once holds the items written. -/
theorem setAll_perm {table items places : List Nat} (hplaces : places.Perm (List.range table.length))
    (hitems : items.length = table.length) :
    (Walk.setAll table (places.zip items)).Perm items := by
  have hlen : places.length = items.length := by
    rw [hplaces.length_eq, List.length_range, hitems]
  have hnodup : ((places.zip items).map Prod.fst).Nodup := by
    rw [List.map_fst_zip (by omega)]
    exact hplaces.nodup_iff.mpr List.nodup_range
  have hread : places.map (fun p => (Walk.setAll table (places.zip items))[p]?) = items.map some := by
    apply List.ext_getElem
    · simpa using hlen
    · intro i hi hi'
      rw [List.length_map] at hi hi'
      rw [List.getElem_map, List.getElem_map]
      apply setAll_getElem?_of_mem _ _ hnodup
      · exact List.mem_iff_getElem.mpr ⟨i, by simp; omega, by simp⟩
      · exact List.mem_range.mp (hplaces.mem_iff.mp (List.getElem_mem hi))
  have hrange : (List.range table.length).map
      (fun p => (Walk.setAll table (places.zip items))[p]?) =
      (Walk.setAll table (places.zip items)).map some := by
    apply List.ext_getElem
    · simp
    · intro i hi hi'
      simp at hi hi'
      simp [hi]
  refine (List.map_perm_map_iff (Option.some_injective _)).mp ?_
  rw [← hread, ← hrange]
  exact (hplaces.map _).symm

/-- The cells of a table after the spread: each is written once, and each symbol is in as many cells
as it has states. -/
structure Spread.Full (counts : List Int) (size : Nat) (s : Spread) : Prop where
  written_perm : s.written.Perm (List.range size)
  cells_eq : s.cells = (Walk.setAll (List.replicate size 0)
    (s.written.zip (lowFrom counts 0 ++ itemsFrom counts 0))).map blank
  next_length : s.next.length = 256
  next_eq : ∀ i < counts.length, s.next[i]? = some (weight (counts.getD i 0))

theorem spread_full {counts : List Int} {log : Nat} (hlog : 4 ≤ log) (hlen : counts.length ≤ 256)
    (hrange : ∀ c ∈ counts, -1 ≤ c) (hsum : weightSum counts = 2 ^ log) :
    ∃ s, spread (2 ^ log) counts = pure s ∧ s.Full counts (2 ^ log) := by
  have hadd := Fse.lowFrom_length_add counts 0
  rw [hsum] at hadd
  have hblank : List.replicate (2 ^ log) FseCell.default = (List.replicate (2 ^ log) 0).map blank := by
    rw [List.map_replicate]
    rfl
  obtain ⟨next, hbelow, hnext, hset, -⟩ := placeBelow_eq 0 (by omega) hrange
    (List.replicate (2 ^ log) 0) (List.replicate 256 0) List.length_replicate (2 ^ log) (by simp)
    (by omega) 0 []
  have hsymbols : ∀ a ∈ itemsFrom counts 0, a < 256 := by
    intro a ha
    have := (Fse.itemsFrom_bounds ha).2
    omega
  generalize hlow : (lowFrom counts 0).length = low at hbelow hadd
  have hlimit : 2 ^ log - low ≤ 2 ^ log := Nat.sub_le _ _
  let w := walk log (2 ^ log - low) hlog hlimit
  have hperm : (tops (2 ^ log) low ++ w.stops 0 (2 ^ log)).Perm (List.range (2 ^ log)) := by
    refine List.perm_append_comm.trans ?_
    refine (List.Perm.append_right _ ?_).trans (tops_perm (by omega))
    exact w.stops_perm
  have hstops : (w.stops 0 (2 ^ log)).length = (itemsFrom counts 0).length := by
    have : (w.stops 0 (2 ^ log)).length = 2 ^ log - low := w.stops_length
    omega
  set column := Walk.setAll (List.replicate (2 ^ log) 0) ((tops (2 ^ log) low).zip (lowFrom counts 0))
    with hcolumn
  have habove : placeAbove (2 ^ log) counts 0
      ⟨column.map blank, next, 2 ^ log - low, 0, [] ++ tops (2 ^ log) low⟩ =
      pure ⟨(Walk.setAll column ((w.stops 0 (2 ^ log)).zip (itemsFrom counts 0))).map blank, next,
        2 ^ log - low, 0, tops (2 ^ log) low ++ w.stops 0 (2 ^ log)⟩ := by
    rw [placeAbove_eq]
    rcases Nat.eq_zero_or_pos (2 ^ log - low) with h0 | h0
    · -- Every symbol is below one state.
      have hitems : itemsFrom counts 0 = [] := List.eq_nil_of_length_eq_zero (by omega)
      have hnone : w.stops 0 (2 ^ log) = [] := by
        apply List.eq_nil_of_length_eq_zero
        rw [hstops, hitems]
        rfl
      rw [hitems, hnone]
      simp [placeEach, Walk.setAll]
    · have hhead : (w.stops 0 (2 ^ log)).headD 0 = 0 := by
        have hone : 2 ^ log = (2 ^ log - 1) + 1 := by omega
        have hfirst : 0 < w.limit := h0
        rw [hone, w.stops_succ, w.place_zero, if_pos hfirst]
        rfl
      have heach := placeEach_eq hlog hlimit h0 next hsymbols (Nat.zero_add (2 ^ log))
        (show column.length = 2 ^ log by simp [hcolumn]) ([] ++ tops (2 ^ log) low) (Nat.le_of_eq hstops.symm)
      change placeEach (2 ^ log) (itemsFrom counts 0) ⟨column.map blank, next, 2 ^ log - low,
        (w.stops 0 (2 ^ log)).headD 0, [] ++ tops (2 ^ log) low⟩ =
        pure ⟨_, next, 2 ^ log - low,
          ((w.stops 0 (2 ^ log)).drop (itemsFrom counts 0).length).headD 0,
          [] ++ tops (2 ^ log) low ++
            (w.stops 0 (2 ^ log)).take (itemsFrom counts 0).length⟩ at heach
      rw [hhead, ← hstops, List.drop_length, List.take_length] at heach
      exact heach
  have hspread : spread (2 ^ log) counts =
      pure ⟨(Walk.setAll column ((w.stops 0 (2 ^ log)).zip (itemsFrom counts 0))).map blank, next,
        2 ^ log - low, 0, tops (2 ^ log) low ++ w.stops 0 (2 ^ log)⟩ := by
    unfold spread
    rw [hblank, hbelow, pure_bind, habove, pure_bind]
    exact if_neg (by simp)
  refine ⟨_, hspread, hperm, ?_, hnext, ?_⟩
  · dsimp only
    rw [hcolumn, ← setAll_append, ← List.zip_append (by simp [hlow])]
  · intro i hi
    have := hset i hi
    rwa [Nat.zero_add] at this

end Spread

section Fill

theorem state_range (log state : Nat) (hpos : state ≠ 0) (hstate : state < 2 * 2 ^ log) :
    Nat.log2 state ≤ log ∧ 2 ^ log ≤ state <<< (log - Nat.log2 state) ∧
      state <<< (log - Nat.log2 state) - 2 ^ log + 2 ^ (log - Nat.log2 state) ≤ 2 ^ log := by
  have hlog : Nat.log2 state < log + 1 := (Nat.log2_lt hpos).mpr (by rw [Nat.pow_succ]; omega)
  have hle := Nat.log2_self_le hpos
  have hlt : state + 1 ≤ 2 ^ (Nat.log2 state + 1) := Nat.lt_log2_self
  obtain ⟨nb, hnb⟩ : ∃ nb, log = Nat.log2 state + nb := ⟨log - Nat.log2 state, by omega⟩
  have hsub : log - Nat.log2 state = nb := by omega
  have hlow : 2 ^ log ≤ state * 2 ^ nb := by
    calc 2 ^ log = 2 ^ Nat.log2 state * 2 ^ nb := by rw [← Nat.pow_add, ← hnb]
      _ ≤ state * 2 ^ nb := Nat.mul_le_mul_right _ hle
  have hhigh : state * 2 ^ nb + 2 ^ nb ≤ 2 * 2 ^ log := by
    calc state * 2 ^ nb + 2 ^ nb = (state + 1) * 2 ^ nb := by ring
      _ ≤ 2 ^ (Nat.log2 state + 1) * 2 ^ nb := Nat.mul_le_mul_right _ hlt
      _ = 2 * 2 ^ log := by
        conv_rhs => rw [hnb]
        ring
  rw [hsub, Nat.shiftLeft_eq]
  exact ⟨by omega, hlow, by omega⟩

theorem fillStates_eq {ε : Type} {log : Nat} (hlog : log ≤ 12) (column next : List Nat)
    (hcolumn : ∀ a ∈ column, ∃ n, next[a]? = some n ∧ 1 ≤ n ∧
      n + column.count a ≤ 2 * 2 ^ log) :
    ∃ filled, fillStates (ε := ε) log (2 ^ log) (column.map blank) next = pure filled ∧
      filled.map FseCell.symbol = column ∧
      ∀ c ∈ filled, c.newState + 2 ^ c.nbBits ≤ 2 ^ log ∧ c.nbBits ≤ log := by
  have hpow : 2 ^ log ≤ 2 ^ 12 := Nat.pow_le_pow_right (by decide) hlog
  induction column generalizing next with
  | nil => exact ⟨[], rfl, rfl, by simp⟩
  | cons a column ih =>
    obtain ⟨n, hn, hpos, hcount⟩ := hcolumn a (List.mem_cons_self ..)
    rw [List.count_cons_self] at hcount
    obtain ⟨hlt, -⟩ := List.getElem?_eq_some_iff.mp hn
    obtain ⟨hlog2, hlow, hinside⟩ := state_range log n (by omega) (by omega)
    obtain ⟨filled, heq, hsymbols, hcells⟩ := ih (next.set a (n + 1)) (by
      intro b hb
      obtain ⟨m, hm, hm1, hmcount⟩ := hcolumn b (List.mem_cons_of_mem _ hb)
      by_cases hab : b = a
      · subst hab
        exact ⟨n + 1, by rw [List.getElem?_set_self hlt], by omega, by omega⟩
      · rw [List.count_cons_of_ne (Ne.symm hab)] at hmcount
        exact ⟨m, by rw [List.getElem?_set_ne (Ne.symm hab)]; exact hm, hm1, hmcount⟩)
    have hnb : (log - Nat.log2 n) % 2 ^ 8 = log - Nat.log2 n := Nat.mod_eq_of_lt (by omega)
    have hone : 0 < 2 ^ (log - Nat.log2 n) := by positivity
    have hns : (n <<< (log - Nat.log2 n) - 2 ^ log) % 2 ^ 16 = n <<< (log - Nat.log2 n) - 2 ^ log :=
      Nat.mod_eq_of_lt (by omega)
    refine ⟨⟨n <<< (log - Nat.log2 n) - 2 ^ log, a, log - Nat.log2 n⟩ :: filled, ?_, ?_, ?_⟩
    · rw [List.map_cons, fillStates]
      dsimp only [blank]
      rw [index_eq hn, pure_bind, unsigned_eq (by omega), pure_bind, setAt_eq hlt, pure_bind,
        if_neg (by omega), sub_eq hlog2, pure_bind, sub_eq hlow, pure_bind]
      rw [heq, pure_bind, hnb, hns]
    · rw [List.map_cons, hsymbols]
    · intro c hc
      rcases List.mem_cons.mp hc with rfl | hc
      · exact ⟨hinside, Nat.sub_le _ _⟩
      · exact hcells c hc

/-- A table whose states lead to states of it. -/
structure Sound (t : FseTable) : Prop where
  log_le : t.log ≤ 12
  length : t.cells.length = 2 ^ t.log
  inside : ∀ c ∈ t.cells, c.newState + 2 ^ c.nbBits ≤ 2 ^ t.log
  nbBits_le : ∀ c ∈ t.cells, c.nbBits ≤ 12

/-- The table of a distribution. -/
structure Built (dist : Distribution) (t : FseTable) : Prop where
  log_eq : t.log = dist.tableLog
  sound : t.Sound
  spread_eq : ∃ s, spread (2 ^ t.log) (dist.counts.take (dist.maxSymbol + 1)) = pure s ∧
    s.written.Perm (List.range (2 ^ t.log)) ∧
    t.cells.map FseCell.symbol = s.cells.map FseCell.symbol
  symbol_le : ∀ c ∈ t.cells, c.symbol ≤ dist.maxSymbol
  count_eq : ∀ s ≤ dist.maxSymbol,
    (t.cells.map FseCell.symbol).count s = weight (dist.counts.getD s 0)

theorem weightSum_take {counts : List Int} {n : Nat} (h : ∀ s, n ≤ s → s < counts.length →
    counts[s]? = some 0) : weightSum (counts.take n) = weightSum counts := by
  have hdrop : counts.drop n = List.replicate (counts.length - n) 0 := by
    rw [List.eq_replicate_iff]
    refine ⟨List.length_drop, ?_⟩
    intro c hc
    obtain ⟨i, hi, rfl⟩ := List.mem_iff_getElem.mp hc
    rw [List.length_drop] at hi
    have := h (n + i) (by omega) (by omega)
    rw [List.getElem?_eq_getElem (by omega)] at this
    rw [List.getElem_drop]
    exact Option.some.inj this
  have hzero := weightSum_zeros (counts.length - n)
  conv_rhs => rw [← List.take_append_drop n counts, hdrop]
  unfold weightSum at hzero ⊢
  rw [List.map_append, List.sum_append, hzero]
  rfl

/-- A full distribution of at most `2 ^ 12` states always gives its table. -/
theorem build_full {dist : Distribution} (h : dist.Full) (hlo : 4 ≤ dist.tableLog)
    (hhi : dist.tableLog ≤ 12) (table : FseTable) :
    ∃ t, build table dist = pure t ∧ Built dist t := by
  have hmax := h.maxSymbol_le
  have hlen := h.length
  set counts := dist.counts.take (dist.maxSymbol + 1) with hcounts
  have hclen : counts.length = dist.maxSymbol + 1 := by
    rw [hcounts, List.length_take]
    omega
  have hrange : ∀ c ∈ counts, -1 ≤ c := fun c hc => h.range c (List.mem_of_mem_take hc)
  have hsum : weightSum counts = 2 ^ dist.tableLog := by
    rw [hcounts, weightSum_take, h.sum_eq]
    intro s hs hs'
    exact h.absent s (by omega) (by omega)
  obtain ⟨s, hspread, hfull⟩ := spread_full hlo (by omega) hrange hsum
  have hitems : (lowFrom counts 0 ++ itemsFrom counts 0).length = 2 ^ dist.tableLog := by
    rw [List.length_append, Fse.lowFrom_length_add, hsum]
  set column := Walk.setAll (List.replicate (2 ^ dist.tableLog) 0)
    (s.written.zip (lowFrom counts 0 ++ itemsFrom counts 0)) with hcolumn
  have hperm : column.Perm (lowFrom counts 0 ++ itemsFrom counts 0) := by
    refine setAll_perm ?_ ?_
    · rw [List.length_replicate]
      exact hfull.written_perm
    · rw [List.length_replicate, hitems]
  have hmem : ∀ a ∈ column, a < counts.length := by
    intro a ha
    rcases List.mem_append.mp (hperm.mem_iff.mp ha) with hlow | hitem
    · have := (Fse.lowFrom_bounds hlow).2
      omega
    · have := (Fse.itemsFrom_bounds hitem).2
      omega
  have hcount : ∀ a, column.count a = weight (counts.getD a 0) := by
    intro a
    have := Fse.count_symbols counts 0 a
    rw [hperm.count_eq, List.count_append]
    rwa [Nat.zero_add] at this
  have hcolumnlen : column.length = 2 ^ dist.tableLog := by
    rw [hperm.length_eq, hitems]
  obtain ⟨filled, hfill, hsymbols, hcells⟩ := fillStates_eq (ε := LegacyFrameError × FseTable) hhi
    column s.next (by
      intro a ha
      have hpos : 0 < column.count a := List.count_pos_iff.mpr ha
      have hle : column.count a ≤ column.length := List.count_le_length
      refine ⟨weight (counts.getD a 0), hfull.next_eq a (hmem a ha), ?_, ?_⟩
      · rw [← hcount a]
        exact hpos
      · rw [← hcount a]
        omega)
  refine ⟨⟨dist.tableLog, filled, counts.all (· < 1 <<< (dist.tableLog - 1))⟩, ?_, rfl,
    ⟨hhi, ?_, ?_, ?_⟩, ⟨s, hspread, hfull.written_perm, ?_⟩, ?_, ?_⟩
  · have hone : 1 <<< dist.tableLog = 2 ^ dist.tableLog := Nat.one_shiftLeft _
    have hcells : s.cells = column.map blank := hfull.cells_eq
    unfold build
    rw [if_neg (show ¬fseMaxTableLog < dist.tableLog from Nat.not_lt.mpr hhi)]
    dsimp only
    rw [slice_eq (Nat.zero_le _) (by omega), pure_bind, hone, List.drop_zero, ← hcounts, hspread]
    change (pure s : Guarded (LegacyFrameError × FseTable) Spread) >>= _ = _
    rw [pure_bind, hcells, hfill, pure_bind, sub_eq (by omega), pure_bind]
  · show filled.length = _
    rw [← hcolumnlen, ← hsymbols, List.length_map]
  · exact fun c hc => (hcells c hc).1
  · exact fun c hc => (hcells c hc).2.trans hhi
  · rw [hfull.cells_eq, hsymbols, ← hcolumn, List.map_map]
    exact (List.map_id _).symm
  · intro c hc
    have := hmem c.symbol (hsymbols ▸ List.mem_map_of_mem hc)
    omega
  · intro a ha
    have hget : counts.getD a 0 = dist.counts.getD a 0 := by
      rw [List.getD_eq_getElem?_getD, List.getD_eq_getElem?_getD, hcounts,
        List.getElem?_take_of_lt (by omega)]
    show (filled.map FseCell.symbol).count a = _
    rw [hsymbols, hcount, hget]

/-- Building ends, whatever the table was, and gives a table whose states stay inside it. -/
theorem build_meets {dist : Distribution} (h : dist.Full ∨ dist.Overlarge)
    (hlo : 4 ≤ dist.tableLog) (table : FseTable) : Meets (build table dist) (Built dist) := by
  by_cases hhi : dist.tableLog ≤ 12
  · rcases h with h | h
    · obtain ⟨t, heq, hbuilt⟩ := build_full h hlo hhi table
      rw [heq]
      exact meets_pure hbuilt
    · have := h.1
      omega
  · unfold build
    rw [if_pos (show fseMaxTableLog < dist.tableLog from Nat.lt_of_not_le hhi)]
    exact meets_throw _

theorem setRaw_sound (table : FseTable) {nbBits : Nat} (h : nbBits ≤ 12) :
    (setRaw table nbBits).Sound := by
  refine ⟨h, ?_, ?_, ?_⟩
  · simp [setRaw, Nat.shiftLeft_eq]
  all_goals
    intro c hc
    obtain ⟨symbol, -, rfl⟩ := List.mem_map.mp hc
    have hmod : nbBits % 256 = nbBits := Nat.mod_eq_of_lt (by omega)
    simp [setRaw, hmod, h]

theorem setRle_sound (table : FseTable) (symbol : Nat) : (setRle table symbol).Sound := by
  refine ⟨Nat.zero_le _, rfl, ?_, ?_⟩ <;> simp [setRle]

end Fill

end FseTable

end Legacy
