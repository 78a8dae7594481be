import StructuredZstd.Bits.Bytes
import StructuredZstd.Fse.Distribution
import StructuredZstd.Runs.Guarded

namespace Legacy

open Runs Guarded
open Fse (weight weightSum)

/-- The errors a frame of an earlier format is refused with. -/
inductive LegacyFrameError where
  | truncated
  | corrupted (reason : String)
  | dictionaryCorrupted
deriving Repr, DecidableEq

def corrupt (reason : String) : LegacyFrameError := .corrupted reason

def fseMaxTableLog : Nat := 12
def fseMinTableLog : Nat := 5
def fseDescriptionMaxLog : Nat := 15

/-- A normalised distribution: `-1` is a symbol below one state. -/
structure Distribution where
  counts : List Int
  maxSymbol : Nat
  tableLog : Nat
deriving Repr, DecidableEq

/-- What a cast to 16 bits keeps of a count. -/
def asI16 (x : Int) : Int := (x + 2 ^ 15) % 2 ^ 16 - 2 ^ 15

/-- A cast of a signed value to a position. -/
def asUsize (x : Int) : Nat := (x % 2 ^ 64).toNat

/-- `wrapping_shr` of 32 bits, by the count's low five bits. -/
def wrappingShr (x : Nat) (count : Int) : Nat := x >>> (count % 32).toNat

/-- Where the reader of a description is. -/
structure DescriptionReader where
  counts : List Int
  ip : Nat
  stream : Nat
  nbBits : Int
  bitCount : Int
  remaining : Int
  threshold : Int
  symbol : Nat
  previousZero : Bool
deriving Repr, DecidableEq

section Reader

variable (src : List UInt8)

def read32 (at_ : Nat) : Guarded LegacyFrameError Nat := do
  let word ← slice src at_ (at_ + 4)
  pure (Bits.le word)

/-- Where a run of absent symbols is. -/
structure ZeroRun where
  runEnd : Nat
  ip : Nat
  stream : Nat
  bitCount : Int
deriving Repr, DecidableEq

/-- Twenty-four absent symbols. -/
def skipLongRun (z : ZeroRun) : Guarded LegacyFrameError ZeroRun := do
  let runEnd ← unsigned 64 (z.runEnd + 24)
  let ahead ← unsigned 64 (z.ip + 5)
  if ahead < src.length then
    let ip ← unsigned 64 (z.ip + 2)
    let word ← read32 src ip
    pure ⟨runEnd, ip, wrappingShr word z.bitCount, z.bitCount⟩
  else
    let bitCount ← i32 (z.bitCount + 16)
    pure ⟨runEnd, z.ip, z.stream >>> 16, bitCount⟩

/-- Three absent symbols. -/
def skipShortRun (z : ZeroRun) : Guarded LegacyFrameError ZeroRun := do
  let runEnd ← unsigned 64 (z.runEnd + 3)
  let bitCount ← i32 (z.bitCount + 2)
  pure { z with runEnd := runEnd, stream := z.stream >>> 2, bitCount := bitCount }

/-- Whether four bytes can be read past the bits used, seven whatever they are. -/
def roomAhead (ip : Nat) (bitCount : Int) : Guarded LegacyFrameError Bool := do
  let ahead ← unsigned 64 (ip + 7)
  if ahead ≤ src.length then pure true
  else
    let next ← unsigned 64 (ip + asUsize (bitCount / 8))
    let past ← unsigned 64 (next + 4)
    pure (past ≤ src.length)

/-- The run after a count of zero. -/
def skipZeroRun (maxSymbol : Nat) (d : DescriptionReader) :
    Guarded LegacyFrameError DescriptionReader := do
  let z ← whileLoop (fun z => z.stream &&& 0xFFFF = 0xFFFF) (skipLongRun src)
    (3 * src.length + 3) ⟨d.symbol, d.ip, d.stream, d.bitCount⟩
  let z ← whileLoop (fun z => z.stream &&& 3 = 3) skipShortRun 18 z
  let runEnd ← unsigned 64 (z.runEnd + (z.stream &&& 3))
  let bitCount ← i32 (z.bitCount + 2)
  if maxSymbol < runEnd then throw (corrupt "FSE description lists too many symbols")
  else if ← roomAhead src z.ip bitCount then
    let ip ← unsigned 64 (z.ip + asUsize (bitCount / 8))
    let word ← read32 src ip
    pure { d with
      symbol := runEnd
      ip := ip
      bitCount := bitCount % 8
      stream := wrappingShr word (bitCount % 8) }
  else
    pure { d with symbol := runEnd, ip := z.ip, bitCount := bitCount, stream := z.stream >>> 2 }

def skipAbsent (maxSymbol : Nat) (d : DescriptionReader) :
    Guarded LegacyFrameError DescriptionReader :=
  if d.previousZero then skipZeroRun src maxSymbol d else pure d

/-- The count of one symbol, and the bits it took. -/
def readCount (d : DescriptionReader) : Guarded LegacyFrameError (Int × Int) := do
  let max ← i32 (2 * d.threshold - 1 - d.remaining)
  let lowMask ← sub d.threshold.toNat 1
  let low : Int := ((d.stream &&& lowMask : Nat) : Int)
  if low < max then
    let bitCount ← i32 (d.bitCount + (d.nbBits - 1))
    pure (low - 1, bitCount)
  else
    let wideMask ← sub (2 * d.threshold.toNat) 1
    let wide : Int := ((d.stream &&& wideMask : Nat) : Int)
    let bitCount ← i32 (d.bitCount + d.nbBits)
    let count ← i32 (if d.threshold ≤ wide then wide - max else wide)
    pure (count - 1, bitCount)

/-- Narrow the field to what is left to hand out. -/
def narrow (d : DescriptionReader) : Guarded LegacyFrameError DescriptionReader :=
  whileLoop (fun d => d.remaining < d.threshold)
    (fun d => do
      let nbBits ← i32 (d.nbBits - 1)
      pure { d with nbBits := nbBits, threshold := d.threshold / 2 }) 32 d

/-- Move on past the bits read. The last four bytes are read from where they start. -/
def moveOn (d : DescriptionReader) : Guarded LegacyFrameError DescriptionReader := do
  if ← roomAhead src d.ip d.bitCount then
    let ip ← unsigned 64 (d.ip + asUsize (d.bitCount / 8))
    let word ← read32 src ip
    pure { d with
      ip := ip
      bitCount := d.bitCount % 8
      stream := wrappingShr word (d.bitCount % 8) }
  else
    let last ← sub src.length 4
    let left ← sub last d.ip
    let back ← i32 (8 * left)
    let bitCount ← i32 (d.bitCount - back)
    let word ← read32 src last
    pure { d with ip := last, bitCount := bitCount, stream := wrappingShr word bitCount }

def describeSymbol (maxSymbol : Nat) (d : DescriptionReader) :
    Guarded LegacyFrameError DescriptionReader := do
  let d ← skipAbsent src maxSymbol d
  let (count, bitCount) ← readCount d
  let remaining ← i32 (d.remaining - |count|)
  -- The source asserts that at least one state is left.
  if remaining < 1 then stop
  else
    let counts ← setAt d.counts d.symbol (asI16 count)
    let symbol ← unsigned 64 (d.symbol + 1)
    let d ← narrow { d with
      counts := counts
      symbol := symbol
      previousZero := count = 0
      bitCount := bitCount
      remaining := remaining }
    moveOn src d

/-- The distribution a description gives, and the bytes it takes. -/
def readDistribution (maxSymbol : Nat) : Guarded LegacyFrameError (Distribution × Nat) := do
  if src.length < 4 then throw .truncated
  else
    let stream ← read32 src 0
    let tableLog := stream % 16 + fseMinTableLog
    if fseDescriptionMaxLog < tableLog then throw (corrupt "FSE table log too large")
    else
      let d ← whileLoop (fun d => 1 < d.remaining ∧ d.symbol ≤ maxSymbol)
        (describeSymbol src maxSymbol) (maxSymbol + 2)
        { counts := List.replicate 256 0
          ip := 0
          stream := stream >>> 4
          nbBits := tableLog + 1
          bitCount := 4
          remaining := 2 ^ tableLog + 1
          threshold := 2 ^ tableLog
          symbol := 0
          previousZero := false }
      if d.remaining ≠ 1 then throw (corrupt "FSE description does not fill its table")
      else
        let bits ← i32 (d.bitCount + 7)
        let consumed ← unsigned 64 (d.ip + asUsize (bits / 8))
        if src.length < consumed then throw .truncated
        else
          let maxSymbol ← sub d.symbol 1
          pure (⟨d.counts, maxSymbol, tableLog⟩, consumed)

end Reader

theorem asUsize_of_nonneg {x : Int} (h : 0 ≤ x) (hx : x < 2 ^ 64) : asUsize x = x.toNat := by
  rw [asUsize, Int.emod_eq_of_lt h hx]

theorem wrappingShr_lt {x : Nat} (h : x < 2 ^ 32) (count : Int) : wrappingShr x count < 2 ^ 32 :=
  Nat.lt_of_le_of_lt (Nat.shiftRight_le _ _) h

section Spec

variable {src : List UInt8}

theorem read32_meets {at_ : Nat} (h : at_ + 4 ≤ src.length) :
    Meets (read32 src at_) fun word => word < 2 ^ 32 := by
  refine (meets_slice (R := fun word => word.length = 4) (Nat.le_add_right _ _) h ?_).bind ?_
  · simp
    omega
  · intro word hword
    apply meets_pure
    have := Bits.le_lt word
    rwa [hword] at this

/-- The 16-bit words a shift can still bring down. -/
def words (stream : Nat) : Nat := if stream = 0 then 0 else if stream < 2 ^ 16 then 1 else 2

theorem words_le (stream : Nat) : words stream ≤ 2 := by
  unfold words
  split_ifs <;> omega

theorem words_shift {stream : Nat} (h : stream < 2 ^ 32) (hones : stream &&& 0xFFFF = 0xFFFF) :
    words (stream >>> 16) < words stream := by
  have hpos : stream ≠ 0 := by
    rintro rfl
    cases hones
  have hdiv : stream >>> 16 < 2 ^ 16 := by
    rw [Nat.shiftRight_eq_div_pow]
    omega
  unfold words
  rw [Nat.shiftRight_eq_div_pow] at hdiv ⊢
  split_ifs <;> omega

/-- The long runs, from where the reader is. -/
structure ZeroRun.Long (src : List UInt8) (d : DescriptionReader) (z : ZeroRun) : Prop where
  ip_le : z.ip + 4 ≤ src.length
  ip_ge : d.ip ≤ z.ip
  stream_lt : z.stream < 2 ^ 32
  runEnd_ge : d.symbol ≤ z.runEnd
  runEnd_le : z.runEnd + 24 * (3 * (src.length - z.ip) + words z.stream) ≤
    d.symbol + 24 * (3 * src.length + 2)
  bits : z.bitCount = d.bitCount ∨
    src.length ≤ z.ip + 5 ∧ d.bitCount ≤ z.bitCount ∧
      z.bitCount + 16 * words z.stream ≤ d.bitCount + 32

theorem skipLongRun_meets {d : DescriptionReader} (hsymbol : d.symbol ≤ 256)
    (hlo : 0 ≤ d.bitCount) (hhi : d.bitCount < 2 ^ 20) (hlen : src.length < 2 ^ 56) {z : ZeroRun}
    (h : z.Long src d) (hones : z.stream &&& 0xFFFF = 0xFFFF) :
    Meets (skipLongRun src z) fun z' => z'.Long src d ∧
      3 * (src.length - z'.ip) + words z'.stream < 3 * (src.length - z.ip) + words z.stream := by
  have hip := h.ip_le
  have hfrom := h.ip_ge
  have hge := h.runEnd_ge
  have hle := h.runEnd_le
  have hshift := words_shift h.stream_lt hones
  refine (meets_unsigned (R := fun n => n = z.runEnd + 24) (by omega) rfl).bind ?_
  rintro _ rfl
  refine (meets_unsigned (R := fun n => n = z.ip + 5) (by omega) rfl).bind ?_
  rintro _ rfl
  refine meets_ite ?_ ?_
  · intro hmore
    refine (meets_unsigned (R := fun n => n = z.ip + 2) (by omega) rfl).bind ?_
    rintro _ rfl
    refine (read32_meets (by omega)).bind ?_
    intro word hword
    have hstream := wrappingShr_lt hword z.bitCount
    have hw := words_le (wrappingShr word z.bitCount)
    have hold : z.bitCount = d.bitCount := by
      rcases h.bits with hb | ⟨hb, -⟩
      · exact hb
      · omega
    apply meets_pure
    refine ⟨⟨?_, ?_, hstream, ?_, ?_, .inl hold⟩, ?_⟩ <;> dsimp only <;> omega
  · intro hend
    have hbits : d.bitCount ≤ z.bitCount ∧ z.bitCount + 16 * words z.stream ≤ d.bitCount + 32 := by
      have hw := words_le z.stream
      rcases h.bits with hb | ⟨-, hb⟩
      · omega
      · exact hb
    refine (meets_i32 (R := fun b => b = z.bitCount + 16) (by omega) (by omega) rfl).bind ?_
    rintro _ rfl
    apply meets_pure
    refine ⟨⟨hip, hfrom, ?_, ?_, ?_, .inr ⟨?_, ?_, ?_⟩⟩, ?_⟩
    · exact Nat.lt_of_le_of_lt (Nat.shiftRight_le _ _) h.stream_lt
    all_goals dsimp only; omega

theorem roomAhead_meets {ip : Nat} {bitCount : Int} (hip : ip + 4 ≤ src.length)
    (hlo : 0 ≤ bitCount) (hhi : bitCount < 2 ^ 22) (hlen : src.length < 2 ^ 56) :
    Meets (roomAhead src ip bitCount) fun b => b = true ↔
      ip + 7 ≤ src.length ∨ ip + (bitCount / 8).toNat + 4 ≤ src.length := by
  have hbytes : asUsize (bitCount / 8) = (bitCount / 8).toNat :=
    asUsize_of_nonneg (by omega) (by omega)
  refine (meets_unsigned (R := fun n => n = ip + 7) (by omega) rfl).bind ?_
  rintro _ rfl
  refine meets_ite (fun hahead => meets_pure (by simp [hahead])) ?_
  intro hshort
  refine (meets_unsigned (R := fun n => n = ip + (bitCount / 8).toNat) (by omega)
    (by rw [hbytes])).bind ?_
  rintro _ rfl
  refine (meets_unsigned (R := fun n => n = ip + (bitCount / 8).toNat + 4) (by omega) rfl).bind ?_
  rintro _ rfl
  exact meets_pure (by simp [hshort])

theorem three_step {stream j : Nat} (hj : stream % 4 ^ j = 4 ^ j - 1)
    (h : stream >>> (2 * j) &&& 3 = 3) : stream % 4 ^ (j + 1) = 4 ^ (j + 1) - 1 := by
  have hfour : 2 ^ (2 * j) = 4 ^ j := by
    rw [Nat.pow_mul]
  have hmask : stream >>> (2 * j) &&& 3 = stream / 4 ^ j % 4 := by
    rw [Nat.shiftRight_eq_div_pow, hfour]
    exact Nat.and_two_pow_sub_one_eq_mod _ 2
  have hpos : 0 < 4 ^ j := by positivity
  rw [hmask] at h
  rw [Nat.pow_succ, Nat.mod_mul, hj, h]
  omega

/-- The short runs after a long one, which are fewer than eight. -/
theorem skipShortRuns_meets {z₀ : ZeroRun} (hrun : z₀.runEnd < 2 ^ 63) (hlo : 0 ≤ z₀.bitCount)
    (hhi : z₀.bitCount < 2 ^ 21) (hnot : z₀.stream &&& 0xFFFF ≠ 0xFFFF) :
    Meets (whileLoop (fun z => z.stream &&& 3 = 3) skipShortRun 18 z₀) fun z =>
      z.ip = z₀.ip ∧ z.stream ≤ z₀.stream ∧ z₀.runEnd ≤ z.runEnd ∧ z.runEnd ≤ z₀.runEnd + 21 ∧
      z₀.bitCount ≤ z.bitCount ∧ z.bitCount ≤ z₀.bitCount + 14 := by
  have hword : z₀.stream &&& 0xFFFF = z₀.stream % 4 ^ 8 :=
    Nat.and_two_pow_sub_one_eq_mod _ 16
  let I : ZeroRun → Prop := fun z => ∃ j ≤ 7, z₀.stream % 4 ^ j = 4 ^ j - 1 ∧
    z = { z₀ with
      runEnd := z₀.runEnd + 3 * j
      stream := z₀.stream >>> (2 * j)
      bitCount := z₀.bitCount + 2 * j }
  have hstart : I z₀ := ⟨0, by omega, by simp [Nat.mod_one], by simp⟩
  have hstep : ∀ z, I z → decide (z.stream &&& 3 = 3) = true →
      Meets (skipShortRun z) fun z' => I z' ∧
        (z₀.bitCount + 16 - z'.bitCount).toNat < (z₀.bitCount + 16 - z.bitCount).toNat := by
    rintro z ⟨j, hj, hones, rfl⟩ hcond
    have hnext := three_step hones (of_decide_eq_true hcond)
    have hj7 : j < 7 := by
      refine lt_of_le_of_ne hj ?_
      rintro rfl
      exact hnot (hword.trans hnext)
    refine (meets_unsigned (R := fun n => n = z₀.runEnd + 3 * j + 3) (by omega)
      rfl).bind ?_
    rintro _ rfl
    refine (meets_i32 (R := fun b => b = z₀.bitCount + 2 * j + 2) (by omega)
      (by omega) rfl).bind ?_
    rintro _ rfl
    apply meets_pure
    refine ⟨⟨j + 1, hj7, hnext, ?_⟩, by dsimp only; omega⟩
    rw [← Nat.shiftRight_add]
    have h3 : z₀.runEnd + 3 * j + 3 = z₀.runEnd + 3 * (j + 1) := by omega
    have h2 : z₀.bitCount + 2 * (j : Int) + 2 = z₀.bitCount + 2 * ((j + 1 : Nat) : Int) := by omega
    rw [h3, h2]
    rfl
  refine (meets_while (fun z => (z₀.bitCount + 16 - z.bitCount).toNat) hstep hstart (by omega)).mono
    ?_
  rintro _ ⟨⟨j, hj, -, rfl⟩, -⟩
  refine ⟨rfl, Nat.shiftRight_le _ _, ?_, ?_, ?_, ?_⟩ <;> dsimp only <;> omega

/-- The bytes a reader still looks at, and the bits of them it has used. -/
structure DescriptionReader.Cursor (src : List UInt8) (d : DescriptionReader) : Prop where
  ip_le : d.ip + 4 ≤ src.length
  stream_lt : d.stream < 2 ^ 32
  bitCount_nonneg : 0 ≤ d.bitCount
  bitCount_small : d.bitCount ≤ 7 ∨ src.length < d.ip + 7

/-- What a step leaves as it is: how much there is to hand out, and in how wide a field. -/
structure DescriptionReader.SameField (d d' : DescriptionReader) : Prop where
  counts : d'.counts = d.counts
  nbBits : d'.nbBits = d.nbBits
  remaining : d'.remaining = d.remaining
  threshold : d'.threshold = d.threshold

theorem skipZeroRun_meets {d : DescriptionReader} {maxSymbol : Nat} (h : d.Cursor src)
    (hsymbol : d.symbol ≤ 256) (hhi : d.bitCount < 2 ^ 20) (hlen : src.length < 2 ^ 56) :
    Meets (skipZeroRun src maxSymbol d) fun d' => d'.Cursor src ∧ d.SameField d' ∧
      d.symbol ≤ d'.symbol ∧ d'.symbol ≤ maxSymbol ∧ d'.bitCount ≤ d.bitCount + 48 := by
  have hip := h.ip_le
  have hlo := h.bitCount_nonneg
  have hstart : ZeroRun.Long src d ⟨d.symbol, d.ip, d.stream, d.bitCount⟩ := by
    have hw := words_le d.stream
    refine ⟨hip, le_rfl, h.stream_lt, le_rfl, ?_, .inl rfl⟩
    dsimp only
    omega
  have hfuel : 3 * (src.length - d.ip) + words d.stream < 3 * src.length + 3 := by
    have hw := words_le d.stream
    omega
  refine (meets_while (fun z : ZeroRun => 3 * (src.length - z.ip) + words z.stream)
    (fun z hz hones => skipLongRun_meets hsymbol hlo hhi hlen hz (of_decide_eq_true hones))
    hstart hfuel).bind ?_
  rintro z₀ ⟨hlong, hnot⟩
  have hnot := of_decide_eq_false hnot
  have hip₀ := hlong.ip_le
  have hge := hlong.runEnd_ge
  have hle := hlong.runEnd_le
  have hbits : d.bitCount ≤ z₀.bitCount ∧ z₀.bitCount ≤ d.bitCount + 32 ∧
      (z₀.bitCount ≤ 7 ∨ src.length < z₀.ip + 7) := by
    rcases hlong.bits with hb | ⟨hend, hb⟩
    · have hsmall := h.bitCount_small
      have hfrom := hlong.ip_ge
      omega
    · omega
  refine (skipShortRuns_meets (by omega) (by omega) (by omega) hnot).bind ?_
  rintro z ⟨hzip, hzstream, hzge, hzle, hzlo, hzhi⟩
  have hlast : z.stream &&& 3 ≤ 3 := Nat.and_le_right
  have hstream : z.stream < 2 ^ 32 := Nat.lt_of_le_of_lt hzstream hlong.stream_lt
  refine (meets_unsigned (R := fun n => n = z.runEnd + (z.stream &&& 3)) (by omega) rfl).bind ?_
  rintro _ rfl
  refine (meets_i32 (R := fun b => b = z.bitCount + 2) (by omega) (by omega) rfl).bind ?_
  rintro _ rfl
  refine meets_ite (fun _ => meets_throw _) ?_
  intro hfits
  have hbytes : asUsize ((z.bitCount + 2) / 8) = ((z.bitCount + 2) / 8).toNat :=
    asUsize_of_nonneg (by omega) (by omega)
  refine (roomAhead_meets (show z.ip + 4 ≤ src.length by omega)
    (show 0 ≤ z.bitCount + 2 by omega) (by omega) hlen).bind ?_
  intro room hroom
  refine meets_ite ?_ ?_
  · intro hahead
    have hahead := hroom.mp hahead
    refine (meets_unsigned (R := fun n => n = z.ip + ((z.bitCount + 2) / 8).toNat) (by omega)
      (by rw [hbytes])).bind ?_
    rintro _ rfl
    refine (read32_meets (by omega)).bind ?_
    intro word hword
    apply meets_pure
    refine ⟨⟨?_, wrappingShr_lt hword _, ?_, .inl ?_⟩, ⟨rfl, rfl, rfl, rfl⟩, ?_, ?_, ?_⟩ <;>
      dsimp only <;> omega
  · intro hend
    have hend := mt hroom.mpr hend
    apply meets_pure
    refine ⟨⟨?_, ?_, ?_, .inr ?_⟩, ⟨rfl, rfl, rfl, rfl⟩, ?_, ?_, ?_⟩
    · dsimp only
      omega
    · exact Nat.lt_of_le_of_lt (Nat.shiftRight_le _ _) hstream
    all_goals dsimp only; omega

/-- What is left to hand out, and the width of the field that names a share of it. -/
structure DescriptionReader.Field (tableLog : Nat) (d : DescriptionReader) : Prop where
  log_le : tableLog ≤ 15
  width : ∃ k ≤ tableLog, d.threshold = 2 ^ k ∧ d.nbBits = k + 1
  remaining_lt : d.remaining < 2 * d.threshold
  remaining_pos : 1 ≤ d.remaining

theorem DescriptionReader.SameField.field {d d' : DescriptionReader} {tableLog : Nat}
    (h : d.SameField d') (hf : d.Field tableLog) : d'.Field tableLog where
  log_le := hf.log_le
  width := by
    rw [h.threshold, h.nbBits]
    exact hf.width
  remaining_lt := by
    rw [h.remaining, h.threshold]
    exact hf.remaining_lt
  remaining_pos := by
    rw [h.remaining]
    exact hf.remaining_pos

theorem two_pow_le_of_le_15 {k : Nat} (hk : k ≤ 15) : 2 ^ k ≤ 2 ^ 15 :=
  Nat.pow_le_pow_right (by decide) hk

/-- A count is at most what is left, less the one state that stays. -/
theorem readCount_meets {d : DescriptionReader} {tableLog : Nat} (hf : d.Field tableLog)
    (hle : d.threshold ≤ d.remaining) (hlo : 0 ≤ d.bitCount) (hhi : d.bitCount < 2 ^ 21) :
    Meets (readCount d) fun r =>
      -1 ≤ r.1 ∧ r.1 ≤ d.remaining - 1 ∧ d.bitCount ≤ r.2 ∧ r.2 ≤ d.bitCount + 16 := by
  obtain ⟨k, hk, hthreshold, hnb⟩ := hf.width
  have hlt := hf.remaining_lt
  have hk15 : k ≤ 15 := hk.trans hf.log_le
  have hpow := two_pow_le_of_le_15 hk15
  have hpos : 0 < 2 ^ k := by positivity
  have hnat : d.threshold.toNat = 2 ^ k := by
    rw [hthreshold]
    exact_mod_cast Int.toNat_natCast (2 ^ k)
  have hcast : d.threshold = ((2 ^ k : Nat) : Int) := by
    rw [hthreshold]
    push_cast
    rfl
  refine (meets_i32 (R := fun m => m = 2 * d.threshold - 1 - d.remaining) (by omega) (by omega)
    rfl).bind ?_
  rintro _ rfl
  refine (meets_sub (R := fun m => m = 2 ^ k - 1) (by omega) (by rw [hnat])).bind ?_
  rintro _ rfl
  have hlow : d.stream &&& (2 ^ k - 1) < 2 ^ k := by
    rw [Nat.and_two_pow_sub_one_eq_mod]
    exact Nat.mod_lt _ hpos
  refine meets_ite ?_ ?_
  · intro hshort
    refine (meets_i32 (R := fun b => b = d.bitCount + (d.nbBits - 1)) (by omega) (by omega)
      rfl).bind ?_
    rintro _ rfl
    apply meets_pure
    refine ⟨?_, ?_, ?_, ?_⟩ <;> dsimp only <;> omega
  · intro hlong
    refine (meets_sub (R := fun m => m = 2 ^ (k + 1) - 1) (by omega)
      (by rw [hnat, Nat.pow_succ, Nat.mul_comm])).bind ?_
    rintro _ rfl
    have hwide : d.stream &&& (2 ^ (k + 1) - 1) < 2 * 2 ^ k := by
      rw [Nat.and_two_pow_sub_one_eq_mod, Nat.mul_comm, ← Nat.pow_succ]
      exact Nat.mod_lt _ (by positivity)
    have hsame : (d.stream &&& (2 ^ (k + 1) - 1)) % 2 ^ k = d.stream &&& (2 ^ k - 1) := by
      rw [Nat.and_two_pow_sub_one_eq_mod, Nat.and_two_pow_sub_one_eq_mod, Nat.pow_succ,
        Nat.mod_mul_right_mod]
    refine (meets_i32 (R := fun b => b = d.bitCount + d.nbBits) (by omega) (by omega) rfl).bind ?_
    rintro _ rfl
    refine (meets_i32 (R := fun c => 0 ≤ c ∧ c ≤ d.remaining) ?_ ?_ ?_).bind ?_
    · split <;> omega
    · split <;> omega
    · -- Under the threshold a value is its own low bits.
      split
      · omega
      · rw [Nat.mod_eq_of_lt (by omega)] at hsame
        omega
    · rintro count ⟨hc0, hc⟩
      apply meets_pure
      refine ⟨?_, ?_, ?_, ?_⟩ <;> dsimp only <;> omega

theorem narrow_meets {d : DescriptionReader} {tableLog : Nat} (hf : d.Field tableLog) :
    Meets (narrow d) fun d' => d'.Field tableLog ∧ d'.threshold ≤ d'.remaining ∧
      d' = { d with nbBits := d'.nbBits, threshold := d'.threshold } := by
  have hstep : ∀ d₁ : DescriptionReader,
      (d₁.Field tableLog ∧ d₁ = { d with nbBits := d₁.nbBits, threshold := d₁.threshold }) →
      decide (d₁.remaining < d₁.threshold) = true →
      Meets (do
        let nbBits ← i32 (d₁.nbBits - 1)
        pure { d₁ with nbBits := nbBits, threshold := d₁.threshold / 2 } :
          Guarded LegacyFrameError DescriptionReader) fun d₂ =>
        (d₂.Field tableLog ∧ d₂ = { d with nbBits := d₂.nbBits, threshold := d₂.threshold }) ∧
        d₂.nbBits.toNat < d₁.nbBits.toNat := by
    rintro d₁ ⟨hf₁, heq⟩ hcond
    have hlow := of_decide_eq_true hcond
    obtain ⟨k, hk, hthreshold, hnb⟩ := hf₁.width
    have hlt := hf₁.remaining_lt
    have hone := hf₁.remaining_pos
    have hk15 := hf₁.log_le
    cases k with
    | zero =>
      rw [pow_zero] at hthreshold
      omega
    | succ k =>
      have hhalf : d₁.threshold / 2 = 2 ^ k := by
        rw [hthreshold, pow_succ]
        omega
      refine (meets_i32 (R := fun n => n = d₁.nbBits - 1) (by omega) (by omega) rfl).bind ?_
      rintro _ rfl
      apply meets_pure
      rw [pow_succ] at hthreshold
      refine ⟨⟨⟨hk15, ⟨k, by omega, hhalf, ?_⟩, ?_, hone⟩, ?_⟩, ?_⟩
      · dsimp only
        omega
      · dsimp only
        omega
      · conv_lhs => rw [heq]
      · dsimp only
        omega
  obtain ⟨k, hk, -, hnb⟩ := hf.width
  have hk15 := hf.log_le
  refine (meets_while (fun d : DescriptionReader => d.nbBits.toNat) hstep ⟨hf, rfl⟩
    (by omega)).mono ?_
  rintro d' ⟨⟨hf', heq⟩, hcond⟩
  have := of_decide_eq_false hcond
  exact ⟨hf', by omega, heq⟩

theorem moveOn_meets {d : DescriptionReader} (hip : d.ip + 4 ≤ src.length) (hlo : 0 ≤ d.bitCount)
    (hhi : d.bitCount < 2 ^ 22) (hsmall : d.bitCount ≤ 23 ∨ src.length < d.ip + 7)
    (hlen : src.length < 2 ^ 56) :
    Meets (moveOn src d) fun d' => d'.Cursor src ∧ d'.bitCount ≤ d.bitCount ∧
      d' = { d with ip := d'.ip, bitCount := d'.bitCount, stream := d'.stream } := by
  have hbytes : asUsize (d.bitCount / 8) = (d.bitCount / 8).toNat :=
    asUsize_of_nonneg (by omega) (by omega)
  refine (roomAhead_meets hip hlo hhi hlen).bind ?_
  intro room hroom
  refine meets_ite ?_ ?_
  · intro hahead
    have hahead := hroom.mp hahead
    refine (meets_unsigned (R := fun n => n = d.ip + (d.bitCount / 8).toNat) (by omega)
      (by rw [hbytes])).bind ?_
    rintro _ rfl
    refine (read32_meets (by omega)).bind ?_
    intro word hword
    apply meets_pure
    refine ⟨⟨?_, wrappingShr_lt hword _, ?_, .inl ?_⟩, ?_, rfl⟩ <;> dsimp only <;> omega
  · intro hend
    have hend := mt hroom.mpr hend
    refine (meets_sub (R := fun n => n = src.length - 4) (by omega) rfl).bind ?_
    rintro _ rfl
    refine (meets_sub (R := fun n => n = src.length - 4 - d.ip) (by omega) rfl).bind ?_
    rintro _ rfl
    refine (meets_i32 (R := fun n => n = 8 * ((src.length - 4 - d.ip : Nat) : Int)) (by omega)
      (by omega) rfl).bind ?_
    rintro _ rfl
    refine (meets_i32
      (R := fun n => n = d.bitCount - 8 * ((src.length - 4 - d.ip : Nat) : Int)) (by omega)
      (by omega) rfl).bind ?_
    rintro _ rfl
    refine (read32_meets (by omega)).bind ?_
    intro word hword
    apply meets_pure
    refine ⟨⟨?_, wrappingShr_lt hword _, ?_, .inr ?_⟩, ?_, rfl⟩ <;> dsimp only <;> omega

/-- The states handed out so far. Only a symbol that takes all `2 ^ 15` states of the largest table a
description can name has a count too large for its 16 bits. -/
def HandedOut (tableLog : Nat) (counts : List Int) (remaining : Int) : Prop :=
  ((weightSum counts : Int) + remaining = 2 ^ tableLog + 1 ∧ ∀ c ∈ counts, -1 ≤ c) ∨
  (tableLog = 15 ∧ remaining = 1 ∧ ∃ s < 256, counts = (List.replicate 256 0).set s (-2 ^ 15))

theorem weightSum_set {counts : List Int} {s : Nat} (h : counts[s]? = some 0) (c : Int) :
    weightSum (counts.set s c) = weightSum counts + weight c := by
  induction counts generalizing s with
  | nil => cases h
  | cons p ps ih =>
    cases s with
    | zero =>
      obtain rfl : p = 0 := by simpa using h
      simp only [List.set_cons_zero, Fse.weightSum_cons]
      simp [weight, Nat.add_comm]
    | succ s =>
      rw [List.set_cons_succ, Fse.weightSum_cons, Fse.weightSum_cons,
        ih (by simpa using h), Nat.add_assoc]

theorem weightSum_zeros (n : Nat) : weightSum (List.replicate n 0) = 0 := by
  induction n with
  | zero => rfl
  | succ n ih =>
    rw [List.replicate_succ, Fse.weightSum_cons, ih]
    rfl

theorem weightSum_eq_zero {counts : List Int} (hlo : ∀ c ∈ counts, -1 ≤ c)
    (h : weightSum counts = 0) : counts = List.replicate counts.length 0 := by
  rw [List.eq_replicate_iff]
  refine ⟨rfl, ?_⟩
  intro c hc
  have hw : weight c = 0 := by
    apply Nat.eq_zero_of_le_zero
    rw [← h]
    exact List.single_le_sum (by simp) _ (List.mem_map_of_mem hc)
  have := hlo c hc
  unfold weight at hw
  split at hw
  · cases hw
  · omega

theorem asI16_of_lt {x : Int} (hlo : -1 ≤ x) (hhi : x < 2 ^ 15) : asI16 x = x := by
  unfold asI16
  omega

theorem weight_of_ge {c : Int} (h : -1 ≤ c) : (weight c : Int) = |c| := by
  unfold weight
  split
  · rename_i hc
    subst hc
    rfl
  · rw [abs_of_nonneg (by omega)]
    omega

theorem HandedOut.push {tableLog : Nat} {counts : List Int} {remaining count : Int} {s : Nat}
    (h : HandedOut tableLog counts remaining) (hlog : tableLog ≤ 15) (hlen : counts.length = 256)
    (hs : s < 256) (habsent : counts[s]? = some 0) (hmore : 1 < remaining) (hlo : -1 ≤ count)
    (hhi : count ≤ remaining - 1) :
    HandedOut tableLog (counts.set s (asI16 count)) (remaining - |count|) := by
  obtain ⟨hsum, hrange⟩ : (weightSum counts : Int) + remaining = 2 ^ tableLog + 1 ∧
      ∀ c ∈ counts, -1 ≤ c := by
    rcases h with h | ⟨-, hone, -⟩
    · exact h
    · omega
  have hpow : (2 : Int) ^ tableLog ≤ 2 ^ 15 := by
    exact_mod_cast two_pow_le_of_le_15 hlog
  by_cases hfits : count < 2 ^ 15
  · rw [asI16_of_lt hlo hfits]
    refine .inl ⟨?_, ?_⟩
    · rw [weightSum_set habsent]
      push_cast
      rw [weight_of_ge hlo]
      omega
    · intro c hc
      rcases List.mem_or_eq_of_mem_set hc with hc | rfl
      · exact hrange c hc
      · exact hlo
  · -- The one count that does not fit takes everything.
    have hzero : weightSum counts = 0 := by omega
    have hall := weightSum_eq_zero hrange hzero
    rw [hlen] at hall
    have hcount : count = 2 ^ 15 := by omega
    have hlog15 : tableLog = 15 := by
      by_contra hne
      have : 2 ^ tableLog ≤ 2 ^ 14 := Nat.pow_le_pow_right (by decide) (by omega)
      have : (2 : Int) ^ tableLog ≤ 2 ^ 14 := by exact_mod_cast this
      omega
    subst hlog15
    refine .inr ⟨rfl, ?_, s, hs, ?_⟩
    · rw [hcount, abs_of_nonneg (by positivity)]
      omega
    · rw [hcount]
      conv_lhs => rw [hall]
      rfl

/-- The reader before a symbol. -/
structure DescriptionReader.Ready (src : List UInt8) (tableLog maxSymbol : Nat)
    (d : DescriptionReader) : Prop where
  cursor : d.Cursor src
  field : d.Field tableLog
  threshold_le : d.threshold ≤ d.remaining
  length : d.counts.length = 256
  symbol_le : d.symbol ≤ maxSymbol + 1
  bitCount_le : d.bitCount ≤ 64 * (d.symbol + 1)
  absent : ∀ s, d.symbol ≤ s → s < 256 → d.counts[s]? = some 0
  handed : HandedOut tableLog d.counts d.remaining

theorem describeSymbol_meets {d : DescriptionReader} {tableLog maxSymbol : Nat}
    (h : d.Ready src tableLog maxSymbol) (hmax : maxSymbol ≤ 255) (hlen : src.length < 2 ^ 56)
    (hmore : 1 < d.remaining) (hsymbol : d.symbol ≤ maxSymbol) :
    Meets (describeSymbol src maxSymbol d) fun d' => d'.Ready src tableLog maxSymbol ∧
      maxSymbol + 1 - d'.symbol < maxSymbol + 1 - d.symbol := by
  have hbits := h.bitCount_le
  have hlo := h.cursor.bitCount_nonneg
  -- The run of absent symbols, if there is one.
  have hrun : Meets (skipAbsent src maxSymbol d) fun d' =>
      d'.Cursor src ∧ d.SameField d' ∧ d.symbol ≤ d'.symbol ∧ d'.symbol ≤ maxSymbol ∧
        d'.bitCount ≤ d.bitCount + 48 := by
    refine meets_ite (fun _ => ?_) (fun _ => ?_)
    · exact skipZeroRun_meets h.cursor (by omega) (by omega) hlen
    · exact meets_pure ⟨h.cursor, ⟨rfl, rfl, rfl, rfl⟩, le_rfl, hsymbol, by omega⟩
  refine hrun.bind ?_
  rintro d₁ ⟨hcursor, hsame, hfrom, hto, hbits₁⟩
  have hf₁ := hsame.field h.field
  have hlo₁ := hcursor.bitCount_nonneg
  have hle₁ : d₁.threshold ≤ d₁.remaining := by
    rw [hsame.threshold, hsame.remaining]
    exact h.threshold_le
  have hmore₁ : 1 < d₁.remaining := hsame.remaining ▸ hmore
  refine (readCount_meets hf₁ hle₁ hlo₁ (by omega)).bind ?_
  rintro ⟨count, bitCount⟩ ⟨hcount, hcount', hbc, hbc'⟩
  dsimp only at hcount hcount' hbc hbc' ⊢
  have hrem := hf₁.remaining_lt
  obtain ⟨k, hk, hthreshold, -⟩ := hf₁.width
  have hpow : (2 : Int) ^ k ≤ 2 ^ 15 := by
    exact_mod_cast two_pow_le_of_le_15 (hk.trans hf₁.log_le)
  have habs : |count| ≤ d₁.remaining - 1 := by
    rw [abs_le]
    omega
  have hnonneg := abs_nonneg count
  refine (meets_i32 (R := fun r => r = d₁.remaining - |count|) (by omega) (by omega) rfl).bind ?_
  rintro _ rfl
  refine meets_ite (fun hlow => absurd hlow (by omega)) (fun _ => ?_)
  have hlength : d₁.counts.length = 256 := hsame.counts ▸ h.length
  have habsent : d₁.counts[d₁.symbol]? = some 0 := by
    rw [hsame.counts]
    exact h.absent _ hfrom (by omega)
  have hhanded : HandedOut tableLog (d₁.counts.set d₁.symbol (asI16 count))
      (d₁.remaining - |count|) := by
    have hh := h.handed
    rw [← hsame.counts, ← hsame.remaining] at hh
    exact hh.push h.field.log_le hlength (by omega) habsent hmore₁ hcount hcount'
  refine (meets_setAt (R := fun l => l = d₁.counts.set d₁.symbol (asI16 count)) (by omega)
    rfl).bind ?_
  rintro _ rfl
  refine (meets_unsigned (R := fun n => n = d₁.symbol + 1) (by omega) rfl).bind ?_
  rintro _ rfl
  have hf₂ : DescriptionReader.Field tableLog { d₁ with
      counts := d₁.counts.set d₁.symbol (asI16 count)
      symbol := d₁.symbol + 1
      previousZero := count = 0
      bitCount := bitCount
      remaining := d₁.remaining - |count| } :=
    ⟨hf₁.log_le, hf₁.width, by dsimp only; omega, by dsimp only; omega⟩
  refine (narrow_meets hf₂).bind ?_
  rintro d₃ ⟨hf₃, hle₃, heq₃⟩
  have hsmall := hcursor.bitCount_small
  have hfields : d₃.ip = d₁.ip ∧ d₃.bitCount = bitCount ∧ d₃.symbol = d₁.symbol + 1 ∧
      d₃.counts = d₁.counts.set d₁.symbol (asI16 count) ∧
      d₃.remaining = d₁.remaining - |count| := by
    rw [heq₃]
    exact ⟨rfl, rfl, rfl, rfl, rfl⟩
  obtain ⟨hip₃, hbc₃, hsym₃, hcounts₃, hrem₃⟩ := hfields
  have hip₁ := hcursor.ip_le
  refine (@moveOn_meets src d₃ (by omega) (by omega) (by omega) (by omega) hlen).mono ?_
  rintro d₄ ⟨hcursor₄, hbc₄, heq₄⟩
  have hfields : d₄.symbol = d₃.symbol ∧ d₄.counts = d₃.counts ∧ d₃.SameField d₄ := by
    rw [heq₄]
    exact ⟨rfl, rfl, ⟨rfl, rfl, rfl, rfl⟩⟩
  obtain ⟨hsym₄, hcounts₄, hsame₄⟩ := hfields
  refine ⟨⟨hcursor₄, hsame₄.field hf₃, ?_, ?_, by omega, by omega, ?_, ?_⟩, by omega⟩
  · rw [hsame₄.threshold, hsame₄.remaining]
    exact hle₃
  · rw [hcounts₄, hcounts₃, List.length_set, hlength]
  · intro s hs hs'
    rw [hcounts₄, hcounts₃, List.getElem?_set_ne (by omega), hsame.counts]
    exact h.absent s (by omega) hs'
  · rw [hcounts₄, hcounts₃, hsame₄.remaining, hrem₃]
    exact hhanded

/-- A distribution that hands out every state of its table once. -/
structure Distribution.Full (d : Distribution) : Prop where
  length : d.counts.length = 256
  maxSymbol_le : d.maxSymbol ≤ 255
  range : ∀ c ∈ d.counts, -1 ≤ c
  sum_eq : weightSum d.counts = 2 ^ d.tableLog
  absent : ∀ s, d.maxSymbol < s → s < 256 → d.counts[s]? = some 0

/-- The one accepted description that is not full: a symbol with all `2 ^ 15` states. -/
def Distribution.Overlarge (d : Distribution) : Prop :=
  d.tableLog = 15 ∧ ∃ s < 256, d.counts = (List.replicate 256 0).set s (-2 ^ 15)

/-- Reading a description ends, whatever the bytes. -/
theorem readDistribution_meets {maxSymbol : Nat} (hmax : maxSymbol ≤ 255)
    (hlen : src.length < 2 ^ 56) :
    Meets (readDistribution src maxSymbol) fun r => r.2 ≤ src.length ∧ r.1.maxSymbol ≤ maxSymbol ∧
      5 ≤ r.1.tableLog ∧ r.1.tableLog ≤ 15 ∧ (r.1.Full ∨ r.1.Overlarge) := by
  unfold readDistribution
  refine meets_ite (fun _ => meets_throw _) ?_
  intro hfour
  refine (read32_meets (by omega)).bind ?_
  intro stream hstream
  refine meets_ite (fun _ => meets_throw _) ?_
  intro hlog
  simp only [fseMinTableLog, fseDescriptionMaxLog] at hlog ⊢
  generalize htl : stream % 16 + 5 = tableLog at hlog ⊢
  have hlog15 : tableLog ≤ 15 := by omega
  have hpos : (1 : Int) ≤ 2 ^ tableLog := by
    exact_mod_cast Nat.one_le_two_pow
  have hfive : (2 : Int) ^ 5 ≤ 2 ^ tableLog := by
    exact_mod_cast Nat.pow_le_pow_right (by decide : 0 < 2) (by omega)
  have hstart : DescriptionReader.Ready src tableLog maxSymbol
      { counts := List.replicate 256 0
        ip := 0
        stream := stream >>> 4
        nbBits := tableLog + 1
        bitCount := 4
        remaining := 2 ^ tableLog + 1
        threshold := 2 ^ tableLog
        symbol := 0
        previousZero := false } := by
    refine ⟨⟨?_, ?_, ?_, .inl ?_⟩, ⟨hlog15, ⟨tableLog, le_rfl, rfl, rfl⟩, ?_, ?_⟩, ?_, ?_, ?_, ?_,
      ?_, .inl ⟨?_, ?_⟩⟩
    · dsimp only
      omega
    · exact Nat.lt_of_le_of_lt (Nat.shiftRight_le _ _) hstream
    · dsimp only
      omega
    · dsimp only
      omega
    · dsimp only
      omega
    · dsimp only
      omega
    · dsimp only
      omega
    · exact List.length_replicate
    · exact Nat.zero_le _
    · dsimp only
      omega
    · intro s _ hs
      dsimp only
      rw [List.getElem?_replicate, if_pos hs]
    · dsimp only
      rw [weightSum_zeros]
      omega
    · intro c hc
      rw [List.eq_of_mem_replicate hc]
      omega
  refine (meets_while (I := fun d => d.Ready src tableLog maxSymbol ∧
      (d.symbol = 0 → 1 < d.remaining))
    (fun d => maxSymbol + 1 - d.symbol) ?_ ⟨hstart, fun _ => by dsimp only; omega⟩
    (by dsimp only; omega)).bind ?_
  · intro d hd hcond
    obtain ⟨hmore, hsymbol⟩ := of_decide_eq_true hcond
    refine (describeSymbol_meets hd.1 hmax hlen hmore hsymbol).mono ?_
    rintro d' ⟨hready, hlt⟩
    exact ⟨⟨hready, fun h0 => by omega⟩, hlt⟩
  · rintro d ⟨⟨hready, hfirst⟩, -⟩
    refine meets_ite (fun _ => meets_throw _) ?_
    intro hone
    have hone : d.remaining = 1 := not_not.mp hone
    have hle := hready.symbol_le
    have hip := hready.cursor.ip_le
    have hlo := hready.cursor.bitCount_nonneg
    have hhi := hready.bitCount_le
    refine (meets_i32 (R := fun b => b = d.bitCount + 7) (by omega) (by omega) rfl).bind ?_
    rintro _ rfl
    have hbytes : asUsize ((d.bitCount + 7) / 8) = ((d.bitCount + 7) / 8).toNat :=
      asUsize_of_nonneg (by omega) (by omega)
    refine (meets_unsigned (R := fun n => n = d.ip + ((d.bitCount + 7) / 8).toNat) (by omega)
      (by rw [hbytes])).bind ?_
    rintro _ rfl
    refine meets_ite (fun _ => meets_throw _) ?_
    intro hfits
    have hsymbol : d.symbol ≠ 0 := fun h0 => by
      have := hfirst h0
      omega
    refine (meets_sub (R := fun n => n = d.symbol - 1) (by omega) rfl).bind ?_
    rintro _ rfl
    apply meets_pure
    refine ⟨Nat.le_of_not_lt hfits, by dsimp only; omega, by dsimp only; omega, hlog15, ?_⟩
    rcases hready.handed with ⟨hsum, hrange⟩ | ⟨h15, -, hover⟩
    · refine .inl ⟨hready.length, by dsimp only; omega, hrange, ?_, ?_⟩
      · rw [hone] at hsum
        have : (weightSum d.counts : Int) = 2 ^ tableLog := by omega
        exact_mod_cast this
      · intro s hs hs'
        exact hready.absent s (by dsimp only at hs; omega) hs'
    · exact .inr ⟨h15, hover⟩

end Spec

end Legacy
