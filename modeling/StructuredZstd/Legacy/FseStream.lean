import StructuredZstd.BitIo.GuardedReads
import StructuredZstd.Legacy.FseTable

namespace Legacy

open BitIo Runs Guarded

/-- How an FSE-coded byte string marks its end. -/
inductive StreamEnd where
  | pastStart
  | exact
deriving Repr, DecidableEq

section Bits

variable {ε : Type}

/-- A backward bitstream, past the padding and the end mark in its last byte. -/
def openBits (src : List UInt8) : Guarded LegacyFrameError BitReaderReversed :=
  match src.getLast? with
  | none => throw (corrupt "empty bitstream")
  | some last =>
    if last = 0 then throw (corrupt "bitstream without an end mark")
    else do
      let leadingZeros := 7 - Nat.log2 last.toNat
      let (_, bits) ← (BitReaderReversed.new src).getBitsGuarded (leadingZeros + 1)
      pure bits

/-- Whether a stream has been read past its first byte. -/
def overflowed (bits : BitReaderReversed) : Guarded ε Bool := do
  let left ← bits.bitsRemainingGuarded
  pure (left < 0)

namespace FseState

/-- The state a stream starts in. -/
def new (table : FseTable) (bits : BitReaderReversed) : Guarded ε (Nat × BitReaderReversed) :=
  bits.getBitsGuarded (table.log % 2 ^ 8)

def symbol (table : FseTable) (state : Nat) : Guarded ε Nat := do
  let cell ← index table.cells state
  pure cell.symbol

def update (table : FseTable) (state : Nat) (bits : BitReaderReversed) :
    Guarded ε (Nat × BitReaderReversed) := do
  let cell ← index table.cells state
  let (low, bits) ← bits.getBitsGuarded cell.nbBits
  let state ← unsigned 64 (cell.newState + low)
  pure (state, bits)

end FseState

end Bits

/-- Two states that take turns over one stream. -/
structure TwoStates where
  bits : BitReaderReversed
  states : List Nat
  out : List Nat
  n : Nat
  turn : Nat
deriving Repr, DecidableEq

section Decode

variable (table : FseTable)

/-- One symbol of the state whose turn it is. -/
def takeTurn (s : TwoStates) : Guarded LegacyFrameError TwoStates := do
  let state ← index s.states s.turn
  let symbol ← FseState.symbol table state
  let out ← setAt s.out s.n symbol
  let (state, bits) ← FseState.update table state s.bits
  let states ← setAt s.states s.turn state
  pure { bits := bits, states := states, out := out, n := s.n + 1, turn := s.turn ^^^ 1 }

/-- The ending of v0.6 and v0.7: the read that passes the start, then one more symbol. -/
def decodePastStart (limit : Nat) (s : TwoStates) : Guarded LegacyFrameError (Nat × List Nat) :=
  loop (fun s =>
    if limit < s.n + 2 then throw (corrupt "FSE stream decodes past its output")
    else do
      let s ← takeTurn table s
      if ← overflowed s.bits then
        let state ← index s.states s.turn
        let symbol ← FseState.symbol table state
        let out ← setAt s.out s.n symbol
        pure (.done (s.n + 1, out))
      else pure (.again s)) (limit + 1) s

/-- The ending of v0.5: both states at zero when the stream is read to its first bit. -/
def decodeToExactEnd (limit : Nat) (s : TwoStates) : Guarded LegacyFrameError (Nat × List Nat) := do
  let s ← loop (fun s => do
    let state ← index s.states s.turn
    let left ← s.bits.bitsRemainingGuarded
    let past ← overflowed s.bits
    if past ∨ s.n = limit ∨ (left = 0 ∧ (table.fast ∨ state = 0)) then pure (.done s)
    else do
      let s ← takeTurn table s
      pure (.again s)) (limit + 1) s
  let left ← s.bits.bitsRemainingGuarded
  let first ← index s.states 0
  let second ← index s.states 1
  if left = 0 ∧ first = 0 ∧ second = 0 then pure (s.n, s.out)
  else throw (corrupt "FSE stream does not end with its symbols")

/-- The two states over a stream, to its end. -/
def decodeStates (src : List UInt8) (out : List Nat) (limit : Nat) (streamEnd : StreamEnd) :
    Guarded LegacyFrameError (Nat × List Nat) := do
  let bits ← openBits src
  let (first, bits) ← FseState.new table bits
  let (second, bits) ← FseState.new table bits
  let s : TwoStates := { bits := bits, states := [first, second], out := out, n := 0, turn := 0 }
  match streamEnd with
  | .exact => decodeToExactEnd table limit s
  | .pastStart => decodePastStart table limit s

end Decode

/-- At most `limit` symbols of a string that starts with its description: how many, the output they
are written to, and the table they were read with. -/
def fseDecompress (src : List UInt8) (out : List Nat) (limit : Nat) (streamEnd : StreamEnd)
    (table : FseTable) : Guarded (LegacyFrameError × FseTable) (Nat × List Nat × FseTable) :=
  if src.length < 2 then throw (.truncated, table)
  else do
    let (dist, descriptionLen) ← mapError (fun e => (e, table)) (readDistribution src 255)
    if src.length ≤ descriptionLen then throw (.truncated, table)
    else
      let table ← table.build dist
      let stream ← slice src descriptionLen src.length
      let (n, out) ← mapError (fun e => (e, table)) (decodeStates table stream out limit streamEnd)
      pure (n, out, table)

section Spec

variable {ε : Type} {src : List UInt8} {bits : BitReaderReversed} {pos : Nat} {table : FseTable}

theorem openBits_meets (src : List UInt8) :
    Meets (openBits src) fun bits => ∃ pos ≤ 8, bits.Faces src pos := by
  unfold openBits
  cases src.getLast? with
  | none => exact meets_throw _
  | some last =>
    refine meets_ite (fun _ => meets_throw _) (fun _ => ?_)
    refine ((BitReaderReversed.Faces.new_faces src).meets_getBits (by omega) (by omega)).bind ?_
    rintro ⟨v, bits⟩ ⟨-, hbits⟩
    exact meets_pure ⟨_, by omega, hbits⟩

theorem overflowed_meets (h : bits.Faces src pos) (hpos : pos < 2 ^ 62)
    (hlen : src.length < 2 ^ 58) : Meets (overflowed (ε := ε) bits) fun _ => True := by
  refine (h.meets_bitsRemaining hpos hlen).bind ?_
  intro m _
  exact meets_pure trivial

theorem FseTable.Sound.new_meets (ht : table.Sound) (h : bits.Faces src pos) (hpos : pos < 2 ^ 62) :
    Meets (FseState.new (ε := ε) table bits) fun x =>
      x.1 < 2 ^ table.log ∧ x.2.Faces src (pos + table.log) := by
  have hlog := ht.log_le
  unfold FseState.new
  rw [Nat.mod_eq_of_lt (show table.log < 2 ^ 8 by omega)]
  exact h.meets_getBits hpos (by omega)

theorem FseTable.Sound.symbol_meets (ht : table.Sound) {state : Nat} (hs : state < 2 ^ table.log) :
    Meets (FseState.symbol (ε := ε) table state) fun _ => True := by
  refine (meets_index (Q := fun _ => True) (ht.length ▸ hs) fun _ _ => trivial).bind ?_
  intro cell _
  exact meets_pure trivial

/-- A state leads to a state of the table. -/
theorem FseTable.Sound.update_meets (ht : table.Sound) {state : Nat} (hs : state < 2 ^ table.log)
    (h : bits.Faces src pos) (hpos : pos < 2 ^ 62) :
    Meets (FseState.update (ε := ε) table state bits) fun x =>
      x.1 < 2 ^ table.log ∧ ∃ n ≤ 12, x.2.Faces src (pos + n) := by
  have hlog := ht.log_le
  have hpow : 2 ^ table.log ≤ 2 ^ 12 := Nat.pow_le_pow_right (by decide) hlog
  refine (meets_index (Q := fun cell => cell ∈ table.cells) (ht.length ▸ hs)
    fun cell hcell => List.mem_of_getElem? hcell).bind ?_
  intro cell hcell
  have hinside := ht.inside cell hcell
  have hnb := ht.nbBits_le cell hcell
  refine (h.meets_getBits hpos (by omega)).bind ?_
  rintro ⟨low, bits⟩ ⟨hlow, hbits⟩
  dsimp only at hlow
  refine (meets_unsigned (R := fun s => s = cell.newState + low) (by omega) rfl).bind ?_
  rintro _ rfl
  exact meets_pure ⟨by dsimp only; omega, cell.nbBits, hnb, hbits⟩

/-- The two states, and how far the stream has been read. -/
structure TwoStates.Inside (table : FseTable) (src : List UInt8) (limit : Nat) (s : TwoStates) :
    Prop where
  faces : ∃ pos ≤ 64 + 12 * s.n, s.bits.Faces src pos
  length : s.states.length = 2
  states_lt : ∀ state ∈ s.states, state < 2 ^ table.log
  turn_lt : s.turn < 2
  out_length : s.out.length = 256
  n_le : s.n ≤ limit

theorem takeTurn_meets (ht : table.Sound) {limit : Nat} {s : TwoStates}
    (h : s.Inside table src limit) (hn : s.n < limit) (hlimit : limit ≤ 255) :
    Meets (takeTurn table s) fun s' => s'.Inside table src limit ∧ s'.n = s.n + 1 := by
  obtain ⟨pos, hpos, hfaces⟩ := h.faces
  have hturn := h.turn_lt
  have hlen := h.length
  refine (meets_index (Q := fun state => state < 2 ^ table.log) (by omega)
    fun state hs => h.states_lt state (List.mem_of_getElem? hs)).bind ?_
  intro state hstate
  refine (ht.symbol_meets hstate).bind ?_
  intro symbol _
  have hout := h.out_length
  refine (meets_setAt (R := fun out => out.length = 256) (by omega) (by simpa using hout)).bind ?_
  intro out hout'
  refine (ht.update_meets hstate hfaces (by omega)).bind ?_
  rintro ⟨state', bits⟩ ⟨hstate', k, hk, hbits⟩
  refine (meets_setAt (R := fun l => l = s.states.set s.turn state') (by omega) rfl).bind ?_
  rintro _ rfl
  apply meets_pure
  refine ⟨⟨⟨pos + k, by dsimp only; omega, hbits⟩, by simpa using hlen, ?_, ?_, hout',
    hn⟩, rfl⟩
  · intro a ha
    rcases List.mem_or_eq_of_mem_set ha with ha | rfl
    · exact h.states_lt a ha
    · exact hstate'
  · have : s.turn = 0 ∨ s.turn = 1 := by omega
    rcases this with h0 | h1
    · simp [h0]
    · simp [h1]

theorem decodePastStart_meets (ht : table.Sound) {limit : Nat} (hlimit : limit ≤ 255)
    (hlen : src.length < 2 ^ 56) {s : TwoStates} (h : s.Inside table src limit) :
    Meets (decodePastStart table limit s) fun r => r.1 ≤ limit ∧ r.2.length = 256 := by
  refine meets_loop (I := TwoStates.Inside table src limit) (fun s => limit - s.n) ?_ h (by omega)
  intro s hs
  refine meets_ite (fun _ => meets_throw _) ?_
  intro hroom
  refine (takeTurn_meets ht hs (by omega) hlimit).bind ?_
  rintro s' ⟨hs', hn⟩
  obtain ⟨pos, hpos, hfaces⟩ := hs'.faces
  have hle := hs'.n_le
  refine (overflowed_meets hfaces (by omega) (by omega)).bind ?_
  rintro past -
  cases past with
  | false => exact meets_pure ⟨hs', by omega⟩
  | true =>
    have hturn := hs'.turn_lt
    have hlength := hs'.length
    refine (meets_index (Q := fun state => state < 2 ^ table.log) (by omega)
      fun state hs => hs'.states_lt state (List.mem_of_getElem? hs)).bind ?_
    intro state hstate
    refine (ht.symbol_meets hstate).bind ?_
    intro symbol _
    have hout := hs'.out_length
    refine (meets_setAt (R := fun out => out.length = 256) (by omega)
      (by simpa using hout)).bind ?_
    intro out hout'
    exact meets_pure ⟨by dsimp only; omega, hout'⟩

theorem decodeToExactEnd_meets (ht : table.Sound) {limit : Nat} (hlimit : limit ≤ 255)
    (hlen : src.length < 2 ^ 56) {s : TwoStates} (h : s.Inside table src limit) :
    Meets (decodeToExactEnd table limit s) fun r => r.1 ≤ limit ∧ r.2.length = 256 := by
  refine (meets_loop (I := TwoStates.Inside table src limit)
    (R := TwoStates.Inside table src limit) (fun s => limit - s.n) ?_ h (by omega)).bind ?_
  · intro s hs
    obtain ⟨pos, hpos, hfaces⟩ := hs.faces
    have hturn := hs.turn_lt
    have hlength := hs.length
    have hle := hs.n_le
    refine (meets_index (Q := fun _ => True) (by omega) fun _ _ => trivial).bind ?_
    intro state _
    refine (hfaces.meets_bitsRemaining (by omega) (by omega)).bind ?_
    intro left _
    refine (overflowed_meets hfaces (by omega) (by omega)).bind ?_
    intro past _
    refine meets_ite (fun _ => meets_pure hs) ?_
    intro hmore
    have hn : s.n ≠ limit := fun heq => hmore (.inr (.inl heq))
    refine (takeTurn_meets ht hs (by omega) hlimit).bind ?_
    rintro s' ⟨hs', hn'⟩
    exact meets_pure ⟨hs', by omega⟩
  · intro s hs
    obtain ⟨pos, hpos, hfaces⟩ := hs.faces
    have hlength := hs.length
    have hle := hs.n_le
    refine (hfaces.meets_bitsRemaining (by omega) (by omega)).bind ?_
    intro left _
    refine (meets_index (Q := fun _ => True) (by omega) fun _ _ => trivial).bind ?_
    intro first _
    refine (meets_index (Q := fun _ => True) (by omega) fun _ _ => trivial).bind ?_
    intro second _
    exact meets_ite (fun _ => meets_pure ⟨hle, hs.out_length⟩) (fun _ => meets_throw _)

/-- Decoding ends, whatever the bytes, and gives no more than it may. -/
theorem decodeStates_meets (ht : table.Sound) {limit : Nat} (hlimit : limit ≤ 255)
    (hlen : src.length < 2 ^ 56) {out : List Nat} (hout : out.length = 256)
    (streamEnd : StreamEnd) : Meets (decodeStates table src out limit streamEnd) fun r =>
      r.1 ≤ limit ∧ r.2.length = 256 := by
  have hlog := ht.log_le
  refine (openBits_meets _).bind ?_
  rintro bits ⟨pos, hpos, hfaces⟩
  refine (ht.new_meets hfaces (by omega)).bind ?_
  rintro ⟨first, bits⟩ ⟨hfirst, hfaces⟩
  refine (ht.new_meets hfaces (by omega)).bind ?_
  rintro ⟨second, bits⟩ ⟨hsecond, hfaces⟩
  have hstart : TwoStates.Inside table src limit ⟨bits, [first, second], out, 0, 0⟩ := by
    refine ⟨⟨_, by dsimp only; omega, hfaces⟩, rfl, ?_, by simp, hout, Nat.zero_le _⟩
    intro state hs
    rcases List.mem_cons.mp hs with rfl | hs
    · exact hfirst
    · rw [List.mem_singleton.mp hs]
      exact hsecond
  cases streamEnd with
  | exact => exact decodeToExactEnd_meets ht hlimit hlen hstart
  | pastStart => exact decodePastStart_meets ht hlimit hlen hstart

theorem fseDecompress_meets {limit : Nat} (hlimit : limit ≤ 255) (hlen : src.length < 2 ^ 56)
    {out : List Nat} (hout : out.length = 256) (streamEnd : StreamEnd) (table : FseTable) :
    Meets (fseDecompress src out limit streamEnd table) fun r =>
      r.1 ≤ limit ∧ r.2.1.length = 256 ∧ r.2.2.Sound := by
  unfold fseDecompress
  refine meets_ite (fun _ => meets_throw _) (fun _ => ?_)
  refine ((readDistribution_meets (by omega) hlen).mapError _).bind ?_
  rintro ⟨dist, descriptionLen⟩ ⟨hconsumed, -, hlo, -, hdist⟩
  refine meets_ite (fun _ => meets_throw _) ?_
  intro hmore
  refine (FseTable.build_meets hdist (by omega) table).bind ?_
  intro built hbuilt
  refine (meets_slice (R := fun l => l.length ≤ src.length) hconsumed le_rfl (by simp)).bind ?_
  intro stream hstream
  refine ((decodeStates_meets hbuilt.sound hlimit (by omega) hout streamEnd).mapError _).bind ?_
  rintro ⟨n, out'⟩ ⟨hn, hout'⟩
  exact meets_pure ⟨hn, hout', hbuilt.sound⟩

end Spec

end Legacy
