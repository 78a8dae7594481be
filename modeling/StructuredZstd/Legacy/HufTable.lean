import StructuredZstd.Legacy.FseStream

namespace Legacy

open BitIo Runs Guarded

def hufMaxTableLog : Nat := 12
def hufWeightLimit : Nat := 16

/-- The run lengths a description starting with byte `242 + i` stands for. -/
def weightRuns : List Nat := [1, 2, 3, 4, 7, 8, 15, 16, 31, 32, 63, 64, 127, 128]

/-- A Huffman table: a symbol and its code length for every value of its leading bits. -/
structure HufTable where
  log : Nat
  cells : List (Nat × Nat)
  weightTable : FseTable
deriving Repr, DecidableEq

namespace HufTable

def empty : HufTable := ⟨0, [], .empty⟩

/-- The cells a symbol of a weight takes. -/
def cellsOf (weight : Nat) : Nat := (1 <<< weight) >>> 1

def countWeights : List Nat → List Nat → Nat → Guarded LegacyFrameError (List Nat × Nat)
  | [], ranks, total => pure (ranks, total)
  | weight :: weights, ranks, total =>
    if hufWeightLimit ≤ weight then throw (corrupt "Huffman weight too large")
    else do
      let rank ← index ranks weight
      let rank ← unsigned 32 (rank + 1)
      let ranks ← setAt ranks weight rank
      let total ← unsigned 32 (total + cellsOf weight)
      countWeights weights ranks total

/-- The weights with the last one, how many symbols have each, and the table's log. -/
def inferLast (weights : List Nat) (explicit : Nat) :
    Guarded LegacyFrameError (List Nat × List Nat × Nat) := do
  let described ← slice weights 0 explicit
  let (ranks, total) ← countWeights described (List.replicate (hufWeightLimit + 1) 0) 0
  if total = 0 then throw (corrupt "Huffman description without symbols")
  else
    -- The total fits 32 bits, so its length is the count of bits without leading zeros.
    let log := Nat.log2 total + 1
    if hufWeightLimit < log then throw (corrupt "Huffman table too large")
    else
      let rest ← sub (1 <<< log) total
      if 2 ^ Nat.log2 rest ≠ rest then
        throw (corrupt "Huffman weights do not sum to a power of two")
      else
        let last := Nat.log2 rest + 1
        let weights ← setAt weights explicit last
        let rank ← index ranks last
        let rank ← unsigned 32 (rank + 1)
        let ranks ← setAt ranks last rank
        let longest ← index ranks 1
        if longest < 2 ∨ longest % 2 ≠ 0 then
          throw (corrupt "Huffman weights do not form a prefix code")
        else if hufMaxTableLog < log then throw (corrupt "Huffman table too large")
        else pure (weights, ranks, log)

/-- Where the cells of each weight start, from `weight` on. -/
def startsFrom (ranks : List Nat) : Nat → Nat → List Nat → Nat →
    Guarded (LegacyFrameError × HufTable) (List Nat)
  | 0, _, start, _ => pure start
  | n + 1, weight, start, next => do
    let start ← setAt start weight next
    let rank ← index ranks weight
    let down ← sub weight 1
    let next ← unsigned 32 (next + rank <<< down)
    startsFrom ranks n (weight + 1) start next

def fillCells (log : Nat) : List Nat → Nat → List Nat → List (Nat × Nat) →
    Guarded (LegacyFrameError × HufTable) (List (Nat × Nat))
  | [], _, _, cells => pure cells
  | weight :: weights, symbol, start, cells =>
    if weight = 0 then fillCells log weights (symbol + 1) start cells
    else do
      let down ← sub weight 1
      let first ← index start weight
      let codeLen ← sub (log + 1) weight
      let cells ← fillRange cells first (first + 1 <<< down) (symbol % 2 ^ 8, codeLen % 2 ^ 8)
      let raised ← unsigned 32 (first + 1 <<< down)
      let start ← setAt start weight raised
      fillCells log weights (symbol + 1) start cells

/-- Build the table from the first `explicit` weights, the symbol after them having the weight left
over. -/
def fill (table : HufTable) (weights : List Nat) (explicit : Nat) :
    Guarded (LegacyFrameError × HufTable) HufTable := do
  let (weights, ranks, log) ← mapError (fun e => (e, table)) (inferLast weights explicit)
  let start ← startsFrom ranks log 1 (List.replicate (hufWeightLimit + 1) 0) 0
  let described ← slice weights 0 (explicit + 1)
  let cells ← fillCells log described 0 start (List.replicate (1 <<< log) (0, 0))
  pure { table with log := log, cells := cells }

/-- Two weights to a byte, the high half first. -/
def unpack : List UInt8 → Nat → List Nat → Guarded (LegacyFrameError × HufTable) (List Nat)
  | [], _, weights => pure weights
  | byte :: bytes, n, weights => do
    let weights ← setAt weights (2 * n) (byte.toNat >>> 4)
    let weights ← setAt weights (2 * n + 1) (byte.toNat &&& 0xF)
    unpack bytes (n + 1) weights

/-- Read a description into the table: the table, and the bytes read. -/
def readInto (table : HufTable) (src : List UInt8) (streamEnd : StreamEnd) :
    Guarded (LegacyFrameError × HufTable) (HufTable × Nat) :=
  match src with
  | [] => throw (.truncated, table)
  | first :: body =>
    let header := first.toNat
    let weights := List.replicate 256 0
    if 242 ≤ header then do
      let explicit ← index weightRuns (header - 242)
      let table ← table.fill (List.replicate 256 1) explicit
      pure (table, 1)
    else if 128 ≤ header then
      let explicit := header - 127
      let packed := (explicit + 1) / 2
      if body.length < packed then throw (.truncated, table)
      else do
        let weights ← unpack (body.take packed) 0 weights
        let table ← table.fill weights explicit
        pure (table, packed + 1)
    else
      if body.length < header then throw (.truncated, table)
      else do
        let (explicit, weights, weightTable) ←
          mapError (fun (e, weightTable) => (e, { table with weightTable := weightTable }))
            (fseDecompress (body.take header) weights 255 streamEnd table.weightTable)
        let table ← { table with weightTable := weightTable }.fill weights explicit
        pure (table, header + 1)

/-- The weights of a description given as code lengths. -/
def weightsOf (maxBits : Nat) : List Nat → Nat → List Nat → Guarded LegacyFrameError (List Nat)
  | [], _, weights => pure weights
  | len :: lengths, n, weights =>
    if maxBits < len then throw (corrupt "Huffman code longer than its table")
    else if len = 0 then do
      let weights ← setAt weights n 0
      weightsOf maxBits lengths (n + 1) weights
    else do
      let past ← unsigned 8 (maxBits + 1)
      let weight ← sub past len
      let weights ← setAt weights n weight
      weightsOf maxBits lengths (n + 1) weights

/-- Build the table of a dictionary's code lengths, the last one inferred again. -/
def fillFromCodeLengths (table : HufTable) (lengths : List Nat) (maxBits : Nat) :
    Guarded (LegacyFrameError × HufTable) HufTable :=
  if lengths.length = 0 ∨ 256 ≤ lengths.length - 1 then
    throw (corrupt "Huffman description without symbols", table)
  else do
    let explicit := lengths.length - 1
    let weights ← mapError (fun e => (e, table))
      (weightsOf maxBits (lengths.take explicit) 0 (List.replicate 256 0))
    table.fill weights explicit

section Streams

variable (table : HufTable)

def decode {ε : Type} (bits : BitReaderReversed) : Guarded ε (Nat × BitReaderReversed) := do
  let log := table.log % 2 ^ 8
  let bits ← bits.ensureBitsGuarded log
  let top ← bits.peekBitsGuarded log
  let cell ← index table.cells top
  let bits ← bits.consumeGuarded cell.2
  pure (cell.1, bits)

def decodeAll {ε : Type} : Nat → BitReaderReversed → Guarded ε (List Nat × BitReaderReversed)
  | 0, bits => pure ([], bits)
  | n + 1, bits => do
    let (symbol, bits) ← table.decode bits
    let (symbols, bits) ← decodeAll n bits
    pure (symbol :: symbols, bits)

/-- `n` literals from one stream, which must end with them. -/
def decodeOneStream (src : List UInt8) (n : Nat) : Guarded LegacyFrameError (List Nat) := do
  let bits ← openBits src
  let (out, bits) ← table.decodeAll n bits
  let left ← bits.bitsRemainingGuarded
  if left ≠ 0 then throw (corrupt "Huffman stream does not end with its literals")
  else pure out

/-- The literals of the streams from `stream` on, each a quarter of the output. -/
def decodeSegments (segment total : Nat) : List (List UInt8) → Nat →
    Guarded LegacyFrameError (List Nat)
  | [], _ => pure []
  | src :: streams, stream => do
    let start := min (stream * segment) total
    let stop := if stream = 3 then total else min ((stream + 1) * segment) total
    let n ← sub stop start
    let out ← table.decodeOneStream src n
    let rest ← decodeSegments segment total streams (stream + 1)
    pure (out ++ rest)

/-- `n` literals from four streams behind a six-byte jump table. -/
def decodeFourStreams (src : List UInt8) (n : Nat) : Guarded LegacyFrameError (List Nat) :=
  if src.length < 10 then throw (corrupt "four-stream Huffman literals too short")
  else do
    let jump ← slice src 0 6
    let len1 := Bits.le (jump.take 2)
    let len2 := Bits.le ((jump.drop 2).take 2)
    let len3 := Bits.le (jump.drop 4)
    let streamsEnd := 6 + len1 + len2 + len3
    if src.length < streamsEnd then throw (corrupt "Huffman jump table points past its streams")
    else
      let stream1 ← slice src 6 (6 + len1)
      let stream2 ← slice src (6 + len1) (6 + len1 + len2)
      let stream3 ← slice src (6 + len1 + len2) streamsEnd
      let stream4 ← slice src streamsEnd src.length
      let segment := (n + 3) / 4
      let total := if n < 3 * segment then 3 * segment else n
      -- A scratch of eight bytes takes what reaches past the output.
      if n < 3 * segment ∧ 8 < 3 * segment then stop
      else
        let out ← table.decodeSegments segment total [stream1, stream2, stream3, stream4] 0
        slice out 0 n

end Streams

section Spec

theorem cellsOf_eq {weight : Nat} (h : weight ≠ 0) : cellsOf weight = 2 ^ (weight - 1) := by
  obtain ⟨k, rfl⟩ : ∃ k, weight = k + 1 := ⟨weight - 1, by omega⟩
  rw [cellsOf, Nat.one_shiftLeft, Nat.shiftRight_eq_div_pow, Nat.pow_succ]
  simp

theorem cellsOf_zero : cellsOf 0 = 0 := rfl

theorem cellsOf_le {weight : Nat} (h : weight < 16) : cellsOf weight ≤ 2 ^ 15 := by
  rw [cellsOf, Nat.one_shiftLeft]
  exact (Nat.shiftRight_le _ _).trans (Nat.pow_le_pow_right (by decide) (by omega))

/-- The cells of the weights below one. -/
def base (weights : List Nat) (w : Nat) : Nat := ((weights.filter (· < w)).map cellsOf).sum

theorem base_succ (weights : List Nat) (w : Nat) :
    base weights (w + 1) = base weights w + weights.count w * cellsOf w := by
  induction weights with
  | nil => simp [base]
  | cons a weights ih =>
    unfold base at ih ⊢
    simp only [List.filter_cons, List.count_cons, decide_eq_true_eq, beq_iff_eq]
    rcases Nat.lt_trichotomy a w with h | h | h
    · rw [if_pos (Nat.lt_succ_of_lt h), if_pos h, if_neg (Nat.ne_of_lt h), List.map_cons,
        List.map_cons, List.sum_cons, List.sum_cons, ih, Nat.add_zero, Nat.add_assoc]
    · subst h
      rw [if_pos (Nat.lt_succ_self a), if_neg (Nat.lt_irrefl a), if_pos rfl, List.map_cons,
        List.sum_cons, ih, Nat.add_mul, Nat.one_mul]
      omega
    · rw [if_neg (Nat.not_lt.mpr (Nat.succ_le_of_lt h)), if_neg (Nat.not_lt_of_lt h),
        if_neg (Nat.ne_of_gt h), ih, Nat.add_zero]

theorem base_mono (weights : List Nat) {v w : Nat} (h : v ≤ w) : base weights v ≤ base weights w := by
  induction h with
  | refl => exact le_rfl
  | step _ ih =>
    rw [base_succ]
    omega

theorem base_one (weights : List Nat) : base weights 1 = 0 := by
  rw [base_succ, cellsOf_zero]
  have hnone : weights.filter (· < 0) = [] := by simp
  rw [base, hnone]
  rfl

theorem base_all {weights : List Nat} {w : Nat} (h : ∀ a ∈ weights, a < w) :
    base weights w = (weights.map cellsOf).sum := by
  rw [base, List.filter_eq_self.mpr fun a ha => by simpa using h a ha]

/-- Weights that fill a table between them. -/
structure Complete (weights : List Nat) (log : Nat) : Prop where
  log_pos : 1 ≤ log
  log_le : log ≤ 12
  sum_eq : (weights.map cellsOf).sum = 2 ^ log
  weight_le : ∀ a ∈ weights, a ≤ log

theorem Complete.base_top {weights : List Nat} {log : Nat} (h : Complete weights log) :
    base weights (log + 1) = 2 ^ log := by
  rw [base_all fun a ha => Nat.lt_succ_of_le (h.weight_le a ha), h.sum_eq]

theorem Complete.base_le {weights : List Nat} {log : Nat} (h : Complete weights log) {w : Nat}
    (hw : w ≤ log + 1) : base weights w ≤ 2 ^ log := by
  rw [← h.base_top]
  exact base_mono weights hw

theorem countWeights_meets {weights ranks : List Nat} {total : Nat} (hranks : ranks.length = 17)
    (hroom : ∀ w, ranks.getD w 0 + weights.length < 2 ^ 32)
    (htotal : total + weights.length * 2 ^ 15 < 2 ^ 32) :
    Meets (countWeights weights ranks total) fun r =>
      r.1.length = 17 ∧ (∀ w, r.1.getD w 0 = ranks.getD w 0 + weights.count w) ∧
      r.2 = total + (weights.map cellsOf).sum ∧ ∀ a ∈ weights, a < 16 := by
  induction weights generalizing ranks total with
  | nil => exact meets_pure ⟨hranks, fun w => rfl, rfl, by simp⟩
  | cons a weights ih =>
    simp only [List.length_cons] at hroom htotal
    refine meets_ite (fun _ => meets_throw _) ?_
    intro hlimit
    have ha : a < 16 := Nat.lt_of_not_le hlimit
    have hcells := cellsOf_le ha
    have hget : ranks[a]? = some (ranks.getD a 0) := by
      rw [List.getD_eq_getElem?_getD, List.getElem?_eq_getElem (by omega)]
      rfl
    have hraise : ∀ w, (ranks.set a (ranks.getD a 0 + 1)).getD w 0 =
        ranks.getD w 0 + if w = a then 1 else 0 := by
      intro w
      by_cases hw : w = a
      · subst hw
        rw [List.getD_eq_getElem?_getD, List.getElem?_set_self (by omega), if_pos rfl]
        rfl
      · rw [List.getD_eq_getElem?_getD, List.getElem?_set_ne (Ne.symm hw), if_neg hw,
          ← List.getD_eq_getElem?_getD]
        rfl
    have hra := hroom a
    refine (meets_index (Q := fun r => r = ranks.getD a 0) (by omega) ?_).bind ?_
    · intro r hr
      exact Option.some.inj (hr.symm.trans hget)
    rintro _ rfl
    refine (meets_unsigned (R := fun r => r = ranks.getD a 0 + 1) (by omega) rfl).bind ?_
    rintro _ rfl
    refine (meets_setAt (R := fun l => l = ranks.set a (ranks.getD a 0 + 1)) (by omega) rfl).bind ?_
    rintro _ rfl
    refine (meets_unsigned (R := fun t => t = total + cellsOf a) (by omega) rfl).bind ?_
    rintro _ rfl
    refine (ih (by simpa using hranks) ?_ (by omega)).mono ?_
    · intro w
      have := hroom w
      rw [hraise]
      split <;> omega
    · rintro ⟨ranks', total'⟩ ⟨hlen, hcount, hsum, hall⟩
      refine ⟨hlen, ?_, ?_, ?_⟩
      · intro w
        dsimp only
        rw [hcount w, hraise, List.count_cons]
        simp only [beq_iff_eq, eq_comm (a := a)]
        omega
      · dsimp only at hsum ⊢
        rw [hsum, List.map_cons, List.sum_cons, Nat.add_assoc]
      · intro b hb
        rcases List.mem_cons.mp hb with rfl | hb
        · exact ha
        · exact hall b hb

/-- What the weights of an accepted description come to. -/
theorem inferLast_meets {weights : List Nat} (hlen : weights.length = 256) {explicit : Nat}
    (hexplicit : explicit ≤ 255) : Meets (inferLast weights explicit) fun r =>
      r.1.length = 256 ∧ r.2.1.length = 17 ∧ Complete (r.1.take (explicit + 1)) r.2.2 ∧
      ∀ w, 1 ≤ w → r.2.1.getD w 0 = (r.1.take (explicit + 1)).count w := by
  have hdescribed : (weights.take explicit).length = explicit := by
    rw [List.length_take]
    omega
  refine (meets_slice (R := fun l => l = weights.take explicit) (Nat.zero_le _) (by omega)
    rfl).bind ?_
  rintro _ rfl
  have hzero : ∀ w, (List.replicate (hufWeightLimit + 1) 0).getD w 0 = 0 := by
    intro w
    rw [List.getD_eq_getElem?_getD, List.getElem?_replicate]
    split <;> rfl
  refine (@countWeights_meets _ (List.replicate (hufWeightLimit + 1) 0) 0 rfl ?_ ?_).bind ?_
  · intro w
    rw [hzero, hdescribed]
    omega
  · omega
  rintro ⟨ranks, total⟩ ⟨hranks, hcount, hsum, hall⟩
  dsimp only at hranks hcount hsum ⊢
  refine meets_ite (fun _ => meets_throw _) ?_
  intro htotal
  refine meets_ite (fun _ => meets_throw _) ?_
  intro hlimit
  have hlog : Nat.log2 total + 1 ≤ 16 := Nat.le_of_not_lt hlimit
  have hhigh : total < 2 ^ (Nat.log2 total + 1) := Nat.lt_log2_self
  have hlow : 2 ^ Nat.log2 total ≤ total := Nat.log2_self_le htotal
  refine (meets_sub (R := fun n => n = 2 ^ (Nat.log2 total + 1) - total) ?_ ?_).bind ?_
  · rw [Nat.one_shiftLeft]
    omega
  · rw [Nat.one_shiftLeft]
  rintro _ rfl
  refine meets_ite (fun _ => meets_throw _) ?_
  intro hpower
  have hpower := not_not.mp hpower
  generalize hrest : 2 ^ (Nat.log2 total + 1) - total = rest at hpower ⊢
  have hrestpos : rest ≠ 0 := by omega
  have hlast : Nat.log2 rest ≤ Nat.log2 total := by
    have : Nat.log2 rest < Nat.log2 total + 1 := by
      rw [Nat.log2_lt hrestpos]
      omega
    omega
  refine (meets_setAt (R := fun l => l = weights.set explicit (Nat.log2 rest + 1)) (by omega)
    rfl).bind ?_
  rintro _ rfl
  have htake : (weights.set explicit (Nat.log2 rest + 1)).take (explicit + 1) =
      weights.take explicit ++ [Nat.log2 rest + 1] := by
    rw [List.take_add_one, List.take_set_of_le le_rfl, List.getElem?_set_self (by omega)]
    rfl
  refine (meets_index (Q := fun r => r = ranks.getD (Nat.log2 rest + 1) 0) (by omega) ?_).bind ?_
  · intro r hr
    rw [List.getD_eq_getElem?_getD, hr]
    rfl
  rintro _ rfl
  have hle : (weights.take explicit).count (Nat.log2 rest + 1) ≤ (weights.take explicit).length :=
    List.count_le_length
  have hlastcount := hcount (Nat.log2 rest + 1)
  rw [hzero] at hlastcount
  refine (meets_unsigned (R := fun r => r = ranks.getD (Nat.log2 rest + 1) 0 + 1) (by omega)
    rfl).bind ?_
  rintro _ rfl
  refine (meets_setAt (R := fun l => l = ranks.set (Nat.log2 rest + 1)
    (ranks.getD (Nat.log2 rest + 1) 0 + 1)) (by omega) rfl).bind ?_
  rintro _ rfl
  refine (meets_index (Q := fun _ => True) (by simp; omega) fun _ _ => trivial).bind ?_
  rintro longest -
  refine meets_ite (fun _ => meets_throw _) (fun _ => ?_)
  refine meets_ite (fun _ => meets_throw _) ?_
  intro hmax
  have hmax : Nat.log2 total + 1 ≤ 12 := Nat.le_of_not_lt hmax
  apply meets_pure
  refine ⟨by simpa using hlen, by simpa using hranks, ⟨by dsimp only; omega, hmax, ?_, ?_⟩, ?_⟩
  · dsimp only
    rw [htake, List.map_append, List.sum_append, List.map_singleton, List.sum_singleton,
      cellsOf_eq (by omega), Nat.add_sub_cancel, hpower]
    omega
  · intro a ha
    dsimp only at ha ⊢
    rw [htake] at ha
    rcases List.mem_append.mp ha with ha | ha
    · by_contra hlt
      have hpow : 2 ^ (Nat.log2 total + 1) ≤ cellsOf a := by
        rw [cellsOf_eq (by omega)]
        exact Nat.pow_le_pow_right (by decide) (by omega)
      have hsingle : cellsOf a ≤ ((weights.take explicit).map cellsOf).sum :=
        List.single_le_sum (by simp) _ (List.mem_map_of_mem ha)
      omega
    · rw [List.mem_singleton.mp ha]
      omega
  · intro w hw
    dsimp only
    rw [htake, List.count_append, List.count_singleton]
    by_cases hsame : w = Nat.log2 rest + 1
    · subst hsame
      rw [List.getD_eq_getElem?_getD, List.getElem?_set_self (by omega), hlastcount]
      simp
    · rw [List.getD_eq_getElem?_getD, List.getElem?_set_ne (Ne.symm hsame),
        ← List.getD_eq_getElem?_getD, hcount, hzero]
      simp [Ne.symm hsame]

theorem startsFrom_meets {weights ranks : List Nat} {log : Nat} (h : Complete weights log)
    (hranks : ranks.length = 17) (hcount : ∀ w, 1 ≤ w → ranks.getD w 0 = weights.count w) {n w : Nat}
    (hw : 1 ≤ w) (hn : w + n = log + 1) {start : List Nat} (hstart : start.length = 17) :
    Meets (startsFrom ranks n w start (base weights w)) fun start' =>
      start'.length = 17 ∧ (∀ v, w ≤ v → v ≤ log → start'.getD v 0 = base weights v) ∧
      ∀ v < w, start'.getD v 0 = start.getD v 0 := by
  have hlog := h.log_le
  induction n generalizing w start with
  | zero => exact meets_pure ⟨hstart, fun v hv hv' => by omega, fun _ _ => rfl⟩
  | succ n ih =>
    refine (meets_setAt (R := fun l => l = start.set w (base weights w)) (by omega) rfl).bind ?_
    rintro _ rfl
    refine (meets_index (Q := fun r => r = weights.count w) (by omega) ?_).bind ?_
    · intro r hr
      rw [← hcount w hw, List.getD_eq_getElem?_getD, hr]
      rfl
    rintro _ rfl
    refine (meets_sub (R := fun d => d = w - 1) hw rfl).bind ?_
    rintro _ rfl
    have hnext : base weights w + weights.count w <<< (w - 1) = base weights (w + 1) := by
      rw [base_succ, Nat.shiftLeft_eq, cellsOf_eq (by omega)]
    have hle := h.base_le (w := w + 1) (by omega)
    have hpow : 2 ^ log ≤ 2 ^ 12 := Nat.pow_le_pow_right (by decide) hlog
    refine (meets_unsigned (R := fun b => b = base weights (w + 1)) (by omega) hnext).bind ?_
    rintro _ rfl
    refine (ih (by omega) (by omega) (by simpa using hstart)).mono ?_
    rintro start' ⟨hlen, hset, hkeep⟩
    have hat : start'.getD w 0 = base weights w := by
      rw [hkeep w (by omega), List.getD_eq_getElem?_getD, List.getElem?_set_self (by omega)]
      rfl
    refine ⟨hlen, ?_, ?_⟩
    · intro v hv hv'
      rcases Nat.eq_or_lt_of_le hv with rfl | hlt
      · exact hat
      · exact hset v hlt hv'
    · intro v hv
      rw [hkeep v (by omega), List.getD_eq_getElem?_getD, List.getElem?_set_ne (by omega),
        ← List.getD_eq_getElem?_getD]

/-- The cells filled once the symbols of `done` have theirs. -/
structure Filled (weights : List Nat) (log : Nat) (done start : List Nat)
    (cells : List (Nat × Nat)) : Prop where
  start_length : start.length = 17
  start_eq : ∀ w, 1 ≤ w → w ≤ log →
    start.getD w 0 = base weights w + done.count w * cellsOf w
  length : cells.length = 2 ^ log
  filled : ∀ w p, 1 ≤ w → w ≤ log → base weights w ≤ p →
    p < base weights w + done.count w * cellsOf w → ∃ s, cells[p]? = some (s, log + 1 - w)

theorem Filled.skip {weights done start : List Nat} {log : Nat} {cells : List (Nat × Nat)}
    (h : Filled weights log done start cells) : Filled weights log (done ++ [0]) start cells := by
  have hcount : ∀ w, 1 ≤ w → (done ++ [0]).count w = done.count w := by
    intro w hw
    rw [List.count_append, List.count_singleton]
    simp
    omega
  refine ⟨h.start_length, ?_, h.length, ?_⟩
  · intro w hw hw'
    rw [hcount w hw]
    exact h.start_eq w hw hw'
  · intro w p hw hw' hp hp'
    rw [hcount w hw] at hp'
    exact h.filled w p hw hw' hp hp'

theorem fillCells_meets {weights : List Nat} {log : Nat} (hc : Complete weights log)
    {rest done start : List Nat} {cells : List (Nat × Nat)} (hsplit : weights = done ++ rest)
    (h : Filled weights log done start cells) (symbol : Nat) :
    Meets (fillCells log rest symbol start cells) fun cells' =>
      ∃ start', Filled weights log weights start' cells' := by
  have hlog := hc.log_le
  have hpow : 2 ^ log ≤ 2 ^ 12 := Nat.pow_le_pow_right (by decide) hlog
  induction rest generalizing done start cells symbol with
  | nil =>
    rw [List.append_nil] at hsplit
    rw [hsplit] at h ⊢
    exact meets_pure ⟨start, h⟩
  | cons a rest ih =>
    have hsplit' : weights = (done ++ [a]) ++ rest := by
      rw [hsplit, List.append_assoc]
      rfl
    refine meets_ite ?_ ?_
    · rintro rfl
      exact ih hsplit' h.skip _
    · intro ha
      have hmem : a ∈ weights := by
        rw [hsplit]
        exact List.mem_append_right _ (List.mem_cons_self ..)
      have hale := hc.weight_le a hmem
      have hlen := h.start_length
      have hfirst := h.start_eq a (by omega) hale
      have hcells := cellsOf_eq ha
      -- The symbol's cells are still inside those of its weight.
      have hcount : done.count a + 1 ≤ weights.count a := by
        rw [hsplit, List.count_append, List.count_cons_self]
        omega
      have hbase := base_succ weights a
      have htop := hc.base_le (w := a + 1) (by omega)
      have hinside : base weights a + (done.count a + 1) * cellsOf a ≤ base weights (a + 1) := by
        rw [hbase]
        exact Nat.add_le_add_left (Nat.mul_le_mul_right _ hcount) _
      rw [Nat.add_mul, Nat.one_mul, ← Nat.add_assoc, ← hfirst] at hinside
      refine (meets_sub (R := fun d => d = a - 1) (by omega) rfl).bind ?_
      rintro _ rfl
      refine (meets_index (Q := fun r => r = start.getD a 0) (by omega) ?_).bind ?_
      · intro r hr
        rw [List.getD_eq_getElem?_getD, hr]
        rfl
      rintro _ rfl
      refine (meets_sub (R := fun d => d = log + 1 - a) (by omega) rfl).bind ?_
      rintro _ rfl
      rw [Nat.one_shiftLeft, ← hcells, Nat.mod_eq_of_lt (show log + 1 - a < 2 ^ 8 by omega)]
      have hfits : start.getD a 0 + cellsOf a ≤ cells.length := by
        rw [h.length]
        omega
      rw [fillRange_eq (Nat.le_add_right _ _) hfits, pure_bind,
        unsigned_eq (by omega), pure_bind, setAt_eq (by omega), pure_bind]
      refine ih hsplit' ⟨by simpa using hlen, ?_, ?_, ?_⟩ _
      · intro w hw hw'
        rw [List.count_append, List.count_singleton, List.getD_eq_getElem?_getD]
        by_cases hwa : w = a
        · subst hwa
          rw [List.getElem?_set_self (by omega), beq_self_eq_true, if_pos rfl, Nat.add_mul, Nat.one_mul,
            ← Nat.add_assoc, ← hfirst]
          rfl
        · rw [List.getElem?_set_ne (Ne.symm hwa), ← List.getD_eq_getElem?_getD, h.start_eq w hw hw']
          simp [Ne.symm hwa]
      · have := h.length
        rw [List.length_append, List.length_append, List.length_take, List.length_replicate,
          List.length_drop]
        omega
      · intro w p hw hw' hp hp'
        rw [fillRange_getElem? (Nat.le_add_right _ _) hfits]
        rw [List.count_append, List.count_singleton] at hp'
        by_cases hwa : w = a
        · subst hwa
          simp only [beq_self_eq_true, if_true, Nat.add_mul, Nat.one_mul] at hp'
          split
          · exact ⟨_, rfl⟩
          · exact h.filled w p hw hw' hp (by omega)
        · -- Another weight's cells lie elsewhere.
          have hzero : (if (a == w) = true then 1 else 0) = 0 := by simp [Ne.symm hwa]
          rw [hzero, Nat.add_zero] at hp'
          have hother := base_succ weights w
          have hwcount : done.count w * cellsOf w ≤ weights.count w * cellsOf w := by
            apply Nat.mul_le_mul_right
            rw [hsplit, List.count_append]
            exact Nat.le_add_right _ _
          have houtside : ¬(start.getD a 0 ≤ p ∧ p < start.getD a 0 + cellsOf a) := by
            rcases Nat.lt_or_gt_of_ne hwa with hlt | hgt
            · have := base_mono weights (show w + 1 ≤ a by omega)
              omega
            · have := base_mono weights (show a + 1 ≤ w by omega)
              omega
          rw [if_neg houtside]
          exact h.filled w p hw hw' hp hp'

/-- Every place under the last start is under the start after some weight's own. -/
theorem exists_weight (weights : List Nat) {p n : Nat} (h : p < base weights (n + 1)) :
    ∃ w, 1 ≤ w ∧ w ≤ n ∧ base weights w ≤ p ∧ p < base weights (w + 1) := by
  induction n with
  | zero =>
    rw [base_one] at h
    cases h
  | succ n ih =>
    rcases Nat.lt_or_ge p (base weights (n + 1)) with hlt | hge
    · obtain ⟨w, hw, hn, hlow, hhigh⟩ := ih hlt
      exact ⟨w, hw, by omega, hlow, hhigh⟩
    · exact ⟨n + 1, by omega, le_rfl, hge, h⟩

/-- A table with a symbol and a code in every cell: a cell without one has the length `0`. -/
structure Sound (t : HufTable) : Prop where
  log_pos : 1 ≤ t.log
  log_le : t.log ≤ 12
  length : t.cells.length = 2 ^ t.log
  codes : ∀ c ∈ t.cells, 1 ≤ c.2 ∧ c.2 ≤ t.log

theorem Filled.sound {weights start : List Nat} {log : Nat} {cells : List (Nat × Nat)}
    (hc : Complete weights log) (h : Filled weights log weights start cells)
    (weightTable : FseTable) : Sound ⟨log, cells, weightTable⟩ := by
  refine ⟨hc.log_pos, hc.log_le, h.length, ?_⟩
  intro c hmem
  obtain ⟨p, hp, rfl⟩ := List.mem_iff_getElem.mp hmem
  have hbound : p < base weights (log + 1) := by
    rw [hc.base_top]
    exact h.length ▸ hp
  obtain ⟨w, hw, hwlog, hlow, hhigh⟩ := exists_weight weights hbound
  rw [base_succ] at hhigh
  obtain ⟨s, hs⟩ := h.filled w p hw hwlog hlow hhigh
  have hcell : cells[p] = (s, log + 1 - w) := Option.some.inj ((List.getElem?_eq_getElem hp).symm.trans hs)
  rw [show (HufTable.mk log cells weightTable).cells[p] = (s, log + 1 - w) from hcell]
  dsimp only
  omega

theorem fill_meets {weights : List Nat} (hlen : weights.length = 256) {explicit : Nat}
    (hexplicit : explicit ≤ 255) (table : HufTable) : Meets (table.fill weights explicit) Sound := by
  refine ((inferLast_meets hlen hexplicit).mapError _).bind ?_
  rintro ⟨weights', ranks, log⟩ ⟨hlen', hranks, hcomplete, hcount⟩
  dsimp only at hlen' hranks hcomplete hcount ⊢
  have hstarts := startsFrom_meets hcomplete hranks hcount le_rfl (Nat.add_comm 1 log)
    (show (List.replicate (hufWeightLimit + 1) 0).length = 17 from rfl)
  rw [base_one] at hstarts
  refine hstarts.bind ?_
  rintro start ⟨hstart, hset, -⟩
  refine (meets_slice (R := fun l => l = weights'.take (explicit + 1)) (Nat.zero_le _) (by omega)
    rfl).bind ?_
  rintro _ rfl
  have hempty : Filled (weights'.take (explicit + 1)) log [] start
      (List.replicate (1 <<< log) (0, 0)) := by
    refine ⟨hstart, ?_, ?_, ?_⟩
    · intro w hw hw'
      rw [hset w hw hw', List.count_nil, Nat.zero_mul]
      rfl
    · rw [List.length_replicate, Nat.one_shiftLeft]
    · intro w p _ _ hp hp'
      rw [List.count_nil, Nat.zero_mul, Nat.add_zero] at hp'
      omega
  refine (fillCells_meets hcomplete rfl hempty 0).bind ?_
  rintro cells ⟨start', hfilled⟩
  exact meets_pure (hfilled.sound hcomplete _)

theorem unpack_meets {bytes : List UInt8} {n : Nat} {weights : List Nat} (hlen : weights.length = 256)
    (hroom : 2 * (n + bytes.length) ≤ 256) :
    Meets (unpack bytes n weights) fun weights' => weights'.length = 256 := by
  induction bytes generalizing n weights with
  | nil => exact meets_pure hlen
  | cons byte bytes ih =>
    rw [List.length_cons] at hroom
    refine (meets_setAt (R := fun l => l.length = 256) (by omega) (by simpa using hlen)).bind ?_
    intro first hfirst
    refine (meets_setAt (R := fun l => l.length = 256) (by omega) (by simpa using hfirst)).bind ?_
    intro second hsecond
    exact ih hsecond (by omega)

theorem weightRuns_le {i : Nat} (h : i < 14) :
    Meets (index (ε := LegacyFrameError × HufTable) weightRuns i) fun n => n ≤ 128 := by
  refine meets_index h ?_
  intro n hn
  have hall : ∀ m ∈ weightRuns, m ≤ 128 := by decide
  exact hall n (List.mem_of_getElem? hn)

/-- A description read leaves a table with every cell filled, and no more bytes read than given. -/
theorem readInto_meets {src : List UInt8} (hlen : src.length < 2 ^ 56) (streamEnd : StreamEnd)
    (table : HufTable) : Meets (table.readInto src streamEnd) fun r =>
      r.1.Sound ∧ r.2 ≤ src.length := by
  cases src with
  | nil => exact meets_throw _
  | cons first body =>
    have hbyte : first.toNat < 256 := first.toNat_lt
    rw [List.length_cons] at hlen ⊢
    refine meets_ite ?_ (fun _ => meets_ite ?_ ?_)
    · intro hheader
      refine (weightRuns_le (by omega)).bind ?_
      intro explicit hexplicit
      refine (fill_meets List.length_replicate (by omega) table).bind ?_
      intro table' hsound
      exact meets_pure ⟨hsound, by dsimp only; omega⟩
    · intro hheader
      refine meets_ite (fun _ => meets_throw _) ?_
      intro hroom
      refine (unpack_meets List.length_replicate ?_).bind ?_
      · rw [List.length_take]
        omega
      intro weights hweights
      refine (fill_meets hweights (by omega) table).bind ?_
      intro table' hsound
      exact meets_pure ⟨hsound, by dsimp only; omega⟩
    · intro hheader
      refine meets_ite (fun _ => meets_throw _) ?_
      intro hroom
      have htake : (body.take first.toNat).length < 2 ^ 56 := by
        rw [List.length_take]
        omega
      refine ((fseDecompress_meets (by omega) htake List.length_replicate streamEnd
        table.weightTable).mapError _).bind ?_
      rintro ⟨explicit, weights, weightTable⟩ ⟨hexplicit, hweights, -⟩
      refine (fill_meets hweights hexplicit _).bind ?_
      intro table' hsound
      exact meets_pure ⟨hsound, by dsimp only; omega⟩

theorem weightsOf_meets {maxBits : Nat} (hbits : maxBits < 255) {lengths : List Nat} {n : Nat}
    {weights : List Nat} (hlen : weights.length = 256) (hroom : n + lengths.length ≤ 256) :
    Meets (weightsOf maxBits lengths n weights) fun weights' => weights'.length = 256 := by
  induction lengths generalizing n weights with
  | nil => exact meets_pure hlen
  | cons len lengths ih =>
    rw [List.length_cons] at hroom
    refine meets_ite (fun _ => meets_throw _) (fun hle => meets_ite ?_ ?_)
    · intro _
      refine (meets_setAt (R := fun l => l.length = 256) (by omega) (by simpa using hlen)).bind ?_
      intro weights' hweights'
      exact ih hweights' (by omega)
    · intro _
      refine (meets_unsigned (R := fun past => past = maxBits + 1) (by omega) rfl).bind ?_
      rintro _ rfl
      refine (meets_sub (R := fun _ => True) (by omega) trivial).bind ?_
      intro weight _
      refine (meets_setAt (R := fun l => l.length = 256) (by omega) (by simpa using hlen)).bind ?_
      intro weights' hweights'
      exact ih hweights' (by omega)

theorem fillFromCodeLengths_meets (table : HufTable) (lengths : List Nat) {maxBits : Nat}
    (hbits : maxBits < 255) : Meets (table.fillFromCodeLengths lengths maxBits) Sound := by
  refine meets_ite (fun _ => meets_throw _) ?_
  intro hsome
  refine ((weightsOf_meets hbits List.length_replicate ?_).mapError _).bind ?_
  · rw [List.length_take]
    omega
  intro weights hweights
  exact fill_meets hweights (by omega) table

section Streams

variable {table : HufTable} {src : List UInt8} {bits : BitReaderReversed} {pos : Nat} {ε : Type}

theorem Sound.decode_meets (ht : table.Sound) (h : bits.Faces src pos) (hpos : pos < 2 ^ 62) :
    Meets (table.decode (ε := ε) bits) fun r => ∃ n ≤ 12, r.2.Faces src (pos + n) := by
  have hlog := ht.log_le
  have hroom := (h.tracks.ensureBits (n := table.log) (by omega)).2
  have hfaces := h.ensureBits table.log
  unfold decode
  rw [Nat.mod_eq_of_lt (show table.log < 2 ^ 8 by omega)]
  dsimp only
  rw [BitReaderReversed.ensureBitsGuarded_eq h hpos (by omega), pure_bind,
    BitReaderReversed.peekBitsGuarded_eq hroom, pure_bind, hfaces.peekBits hroom]
  have htop := BitReaderReversed.bitsFrom_lt src pos table.log
  refine (meets_index (Q := fun cell => cell ∈ table.cells) (ht.length ▸ htop)
    fun cell hcell => List.mem_of_getElem? hcell).bind ?_
  intro cell hcell
  have hcode := ht.codes cell hcell
  rw [BitReaderReversed.consumeGuarded_eq (by omega), pure_bind]
  exact meets_pure ⟨cell.2, by omega, hfaces.consume (by omega)⟩

theorem Sound.decodeAll_meets (ht : table.Sound) {n : Nat} (h : bits.Faces src pos)
    (hpos : pos + 12 * n < 2 ^ 62) : Meets (table.decodeAll (ε := ε) n bits) fun r =>
      r.1.length = n ∧ ∃ k ≤ 12 * n, r.2.Faces src (pos + k) := by
  induction n generalizing bits pos with
  | zero => exact meets_pure ⟨rfl, 0, by omega, h⟩
  | succ n ih =>
    refine (ht.decode_meets h (by omega)).bind ?_
    rintro ⟨symbol, bits⟩ ⟨k, hk, hbits⟩
    refine (ih hbits (by omega)).bind ?_
    rintro ⟨symbols, bits⟩ ⟨hlen, j, hj, hbits⟩
    dsimp only at hlen
    refine meets_pure ⟨by simp [hlen], k + j, by omega, ?_⟩
    rw [← Nat.add_assoc]
    exact hbits

theorem Sound.decodeOneStream_meets (ht : table.Sound) (hlen : src.length < 2 ^ 56) {n : Nat}
    (hn : n < 2 ^ 56) : Meets (table.decodeOneStream src n) fun out => out.length = n := by
  refine (openBits_meets _).bind ?_
  rintro bits ⟨pos, hpos, hfaces⟩
  refine (ht.decodeAll_meets hfaces (by omega)).bind ?_
  rintro ⟨out, bits⟩ ⟨hout, k, hk, hfaces⟩
  refine (hfaces.meets_bitsRemaining (by omega) (by omega)).bind ?_
  intro left _
  exact meets_ite (fun _ => meets_throw _) (fun _ => meets_pure hout)

/-- Where the output of a stream starts; the last one ends with all of it. -/
def segmentStart (segment total stream : Nat) : Nat :=
  if 4 ≤ stream then total else min (stream * segment) total

theorem Sound.decodeSegments_meets (ht : table.Sound) {segment total : Nat} (htotal : total < 2 ^ 56)
    {streams : List (List UInt8)} (hstreams : ∀ s ∈ streams, s.length < 2 ^ 56) {stream : Nat}
    (hcount : stream + streams.length = 4) :
    Meets (table.decodeSegments segment total streams stream) fun out =>
      out.length = total - segmentStart segment total stream := by
  induction streams generalizing stream with
  | nil =>
    obtain rfl : stream = 4 := hcount
    exact meets_pure (Nat.sub_self _).symm
  | cons s streams ih =>
    rw [List.length_cons] at hcount
    have hmul : (stream + 1) * segment = stream * segment + segment := by ring
    have hstart : min (stream * segment) total = segmentStart segment total stream := by
      rw [segmentStart, if_neg (by omega)]
    have hstop : (if stream = 3 then total else min ((stream + 1) * segment) total) =
        segmentStart segment total (stream + 1) := by
      unfold segmentStart
      split_ifs <;> first | rfl | omega
    have hle : segmentStart segment total stream ≤ segmentStart segment total (stream + 1) ∧
        segmentStart segment total (stream + 1) ≤ total := by
      rw [← hstart, ← hstop]
      split_ifs <;> omega
    rw [decodeSegments, hstart, hstop, sub_eq hle.1, pure_bind]
    refine (ht.decodeOneStream_meets (hstreams s (List.mem_cons_self ..)) (by omega)).bind ?_
    intro out hout
    refine (ih (fun s hs => hstreams s (List.mem_cons_of_mem _ hs)) (by omega)).bind ?_
    intro rest hrest
    apply meets_pure
    rw [List.length_append, hout, hrest]
    omega

theorem Sound.decodeFourStreams_meets (ht : table.Sound) (hlen : src.length < 2 ^ 56) {n : Nat}
    (hn : n < 2 ^ 55) : Meets (table.decodeFourStreams src n) fun out => out.length = n := by
  refine meets_ite (fun _ => meets_throw _) ?_
  intro hten
  refine (meets_slice (R := fun _ => True) (Nat.zero_le _) (by omega) trivial).bind ?_
  intro jump _
  refine meets_ite (fun _ => meets_throw _) ?_
  intro hends
  have hwithin : ∀ {i j : Nat} {l : List UInt8}, l = (src.take j).drop i → l.length < 2 ^ 56 := by
    rintro i j _ rfl
    simp
    omega
  refine (meets_slice (R := fun l => l.length < 2 ^ 56) (by omega) (by omega) (hwithin rfl)).bind ?_
  intro stream1 h1
  refine (meets_slice (R := fun l => l.length < 2 ^ 56) (by omega) (by omega) (hwithin rfl)).bind ?_
  intro stream2 h2
  refine (meets_slice (R := fun l => l.length < 2 ^ 56) (by omega) (by omega) (hwithin rfl)).bind ?_
  intro stream3 h3
  refine (meets_slice (R := fun l => l.length < 2 ^ 56) (by omega) (by omega) (hwithin rfl)).bind ?_
  intro stream4 h4
  refine meets_ite (fun hsmall => absurd hsmall (by omega)) (fun _ => ?_)
  have hall : ∀ s ∈ [stream1, stream2, stream3, stream4], s.length < 2 ^ 56 := by
    simp only [List.mem_cons, List.not_mem_nil, or_false]
    rintro s (rfl | rfl | rfl | rfl)
    · exact h1
    · exact h2
    · exact h3
    · exact h4
  generalize htotal : (if n < 3 * ((n + 3) / 4) then 3 * ((n + 3) / 4) else n) = total
  have hle : n ≤ total ∧ total < 2 ^ 56 := by
    rw [← htotal]
    split <;> omega
  refine (ht.decodeSegments_meets hle.2 hall (Nat.zero_add 4)).bind ?_
  intro out hout
  have hzero : segmentStart ((n + 3) / 4) total 0 = 0 := by simp [segmentStart]
  rw [hzero, Nat.sub_zero] at hout
  refine meets_slice (Nat.zero_le _) (by omega) ?_
  simp
  omega

end Streams

end Spec

end HufTable

end Legacy
