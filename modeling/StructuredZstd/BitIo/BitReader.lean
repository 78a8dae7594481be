import StructuredZstd.Bits.Bytes

namespace BitIo

open Bits

/-- A forward reader; `idx` counts the bits already read. -/
structure BitReader where
  idx : Nat
  source : List UInt8
deriving Repr, DecidableEq

inductive GetBitsError where
  | tooManyBits (numRequestedBits limit : Nat)
  | notEnoughRemainingBits (requested remaining : Nat)
deriving Repr, DecidableEq

/-- Whole bytes, `count` of them, or-ed in above the `bitShift` bits already in `value`. A byte past
the source is a failed index. -/
def collectFullBytes (source : List UInt8) : Nat → Nat → Nat → Nat → Option (Nat × Nat × Nat)
  | 0, idx, bitShift, value => some (idx, bitShift, value)
  | count + 1, idx, bitShift, value => do
    let byte ← source[idx / 8]?
    collectFullBytes source count (idx + 8) (bitShift + 8)
      (value ||| (byte.toNat <<< bitShift) % 2 ^ 64)

namespace BitReader

variable (r : BitReader)

def new (source : List UInt8) : BitReader := ⟨0, source⟩

def bitsLeft : Nat := r.source.length * 8 - r.idx

/-- The read proper, once the request is within the limit and the source. -/
def takeBits (n : Nat) : Option (Nat × BitReader) := do
  let bitsLeftInCurrentByte := 8 - r.idx % 8
  let bitsNotNeededInCurrentByte := 8 - bitsLeftInCurrentByte
  let current ← r.source[r.idx / 8]?
  let value := current.toNat >>> bitsNotNeededInCurrentByte
  if bitsLeftInCurrentByte ≥ n then
    some (value &&& (1 <<< n - 1), { r with idx := r.idx + n })
  else
    let fullBytesNeeded := (n - bitsLeftInCurrentByte) / 8
    let bitsInLastByteNeeded := n - bitsLeftInCurrentByte - fullBytesNeeded * 8
    guard ((r.idx + bitsLeftInCurrentByte) % 8 = 0)
    let (idx, bitShift, value) ← collectFullBytes r.source fullBytesNeeded
      (r.idx + bitsLeftInCurrentByte) bitsLeftInCurrentByte value
    guard (n - bitShift = bitsInLastByteNeeded)
    if bitsInLastByteNeeded > 0 then
      let last ← r.source[idx / 8]?
      let valLastByte := last.toNat &&& (1 <<< bitsInLastByteNeeded - 1)
      some (value ||| (valLastByte <<< bitShift) % 2 ^ 64,
        { r with idx := idx + bitsInLastByteNeeded })
    else some (value, { r with idx := idx })

/-- `none` is a panic. -/
def getBits (n : Nat) : Option (Except GetBitsError Nat × BitReader) :=
  if n > 64 then some (.error (.tooManyBits n 64), r)
  else if r.bitsLeft < n then some (.error (.notEnoughRemainingBits n r.bitsLeft), r)
  else (r.takeBits n).map fun (value, r') => (.ok value, r')

end BitReader

theorem byte_eq {source : List UInt8} {i : Nat} {byte : UInt8} (h : source[i]? = some byte) :
    byte.toNat = le source / 2 ^ (8 * i) % 2 ^ 8 := by
  obtain ⟨hi, rfl⟩ := List.getElem?_eq_some_iff.mp h
  have htake : (source.drop i).take 1 = [source[i]] := by
    rw [List.drop_eq_getElem_cons hi]
    rfl
  have hle : le ((source.drop i).take 1) = le source / 2 ^ (8 * i) % 2 ^ 8 := by
    rw [le_take, le_drop]
  rw [← hle, htake, le_singleton]

/-- A field is its low part with its high part or-ed in above. -/
theorem field_or (x i a b : Nat) :
    x / 2 ^ i % 2 ^ a ||| (x / 2 ^ (i + a) % 2 ^ b) <<< a = x / 2 ^ i % 2 ^ (a + b) := by
  rw [lor_shiftLeft _ (Nat.mod_lt _ (Nat.two_pow_pos a)), Nat.pow_add 2 a b, Nat.mod_mul,
    Nat.div_div_eq_div_mul, ← Nat.pow_add, Nat.mul_comm]

theorem shifted_lt {x a b : Nat} (hx : x < 2 ^ a) (h : a + b ≤ 64) : x <<< b < 2 ^ 64 := by
  calc x <<< b
      _ = x * 2 ^ b := Nat.shiftLeft_eq x b
      _ < 2 ^ a * 2 ^ b := Nat.mul_lt_mul_of_pos_right hx (Nat.two_pow_pos b)
      _ = 2 ^ (a + b) := (Nat.pow_add 2 a b).symm
      _ ≤ 2 ^ 64 := Nat.pow_le_pow_right (by simp) h

theorem collectFullBytes_spec {source : List UInt8} {start : Nat} (count : Nat) {bitShift : Nat}
    (haligned : (start + bitShift) % 8 = 0)
    (hfits : start + bitShift + 8 * count ≤ 8 * source.length) (hwidth : bitShift + 8 * count ≤ 64) :
    collectFullBytes source count (start + bitShift) bitShift
        (le source / 2 ^ start % 2 ^ bitShift) =
      some (start + (bitShift + 8 * count), bitShift + 8 * count,
        le source / 2 ^ start % 2 ^ (bitShift + 8 * count)) := by
  induction count generalizing bitShift with
  | zero => simp [collectFullBytes]
  | succ count ih =>
    have hidx : 8 * ((start + bitShift) / 8) = start + bitShift := by omega
    have hlt : (start + bitShift) / 8 < source.length := by omega
    have hbyte := byte_eq (List.getElem?_eq_getElem hlt)
    rw [hidx] at hbyte
    have hnarrow : (source[(start + bitShift) / 8].toNat <<< bitShift) % 2 ^ 64 =
        source[(start + bitShift) / 8].toNat <<< bitShift :=
      Nat.mod_eq_of_lt (shifted_lt (UInt8.toNat_lt _) (by omega))
    rw [collectFullBytes, List.getElem?_eq_getElem hlt]
    simp only [Option.bind_eq_bind, Option.bind_some]
    rw [hnarrow, hbyte, field_or, Nat.add_assoc start,
      ih (by omega) (by omega) (by omega), show bitShift + 8 + 8 * count =
        bitShift + 8 * (count + 1) by omega]

namespace BitReader

variable {r : BitReader} {n : Nat}

/-- The read fits the source and does not begin past its last byte. -/
theorem takeBits_spec (hn : n ≤ 64) (hfits : r.idx + n ≤ 8 * r.source.length)
    (hinside : r.idx < 8 * r.source.length) :
    r.takeBits n =
      some (le r.source / 2 ^ r.idx % 2 ^ n, { r with idx := r.idx + n }) := by
  have hlt : r.idx / 8 < r.source.length := by omega
  have hbyte := byte_eq (List.getElem?_eq_getElem hlt)
  have hsplit : 2 ^ (8 * (r.idx / 8)) * 2 ^ (r.idx % 8) = 2 ^ r.idx := by
    rw [← Nat.pow_add, Nat.div_add_mod]
  have hneed : 8 - (8 - r.idx % 8) = r.idx % 8 := by omega
  have hhead : r.source[r.idx / 8].toNat >>> (r.idx % 8) =
      le r.source / 2 ^ r.idx % 2 ^ (8 - r.idx % 8) := by
    have hpow : 2 ^ 8 = 2 ^ (r.idx % 8) * 2 ^ (8 - r.idx % 8) := by
      rw [← Nat.pow_add]
      congr 1
      omega
    rw [hbyte, Nat.shiftRight_eq_div_pow, hpow, Nat.mod_mul_right_div_self,
      Nat.div_div_eq_div_mul, hsplit]
  simp only [takeBits, List.getElem?_eq_getElem hlt, Option.bind_eq_bind, Option.bind_some, hneed,
    hhead, Nat.one_shiftLeft, Nat.and_two_pow_sub_one_eq_mod]
  by_cases hin : n ≤ 8 - r.idx % 8
  · -- the field ends in the current byte
    rw [if_pos hin, Nat.mod_mod_of_dvd _ (Nat.pow_dvd_pow 2 hin)]
  · -- head, whole bytes, and the part of the last byte
    have haligned : (r.idx + (8 - r.idx % 8)) % 8 = 0 := by omega
    have hloop := @collectFullBytes_spec r.source r.idx ((n - (8 - r.idx % 8)) / 8) _ haligned
      (by omega) (by omega)
    rw [if_neg hin, hloop]
    generalize hk : (n - (8 - r.idx % 8)) / 8 = k at *
    generalize hl : 8 - r.idx % 8 = left at *
    have hrest : n - (left + 8 * k) = n - left - k * 8 := by omega
    simp only [haligned, hrest, guard, if_true, Option.pure_def, Option.bind_some]
    by_cases hlast : n - left - k * 8 > 0
    · have hend : 8 * ((r.idx + (left + 8 * k)) / 8) = r.idx + (left + 8 * k) := by omega
      have hlt' : (r.idx + (left + 8 * k)) / 8 < r.source.length := by omega
      have hbyte' := byte_eq (List.getElem?_eq_getElem hlt')
      rw [hend] at hbyte'
      rw [if_pos hlast, List.getElem?_eq_getElem hlt', Option.bind_some, hbyte',
        Nat.mod_mod_of_dvd _ (Nat.pow_dvd_pow 2 (by omega)),
        Nat.mod_eq_of_lt (shifted_lt (Nat.mod_lt _ (Nat.two_pow_pos _)) (by omega)), field_or,
        show left + 8 * k + (n - left - k * 8) = n by omega,
        show r.idx + (left + 8 * k) + (n - left - k * 8) = r.idx + n by omega]
    · rw [if_neg hlast, show left + 8 * k = n by omega]

/-- At the end of the source the byte the reader looks at first is not there. -/
theorem takeBits_past (h : 8 * r.source.length ≤ r.idx) : r.takeBits n = none := by
  have hnone : r.source[r.idx / 8]? = none := List.getElem?_eq_none (by omega)
  simp [takeBits, hnone]

/-- The call serves the request: the next `n` bits as a little-endian number, or an error that
leaves the reader where it was. -/
def Serves (r : BitReader) (n : Nat) : Prop :=
  r.getBits n =
    if n ≤ r.bitsLeft then
      some (.ok (le r.source / 2 ^ r.idx % 2 ^ n), { r with idx := r.idx + n })
    else some (.error (.notEnoughRemainingBits n r.bitsLeft), r)

theorem serves_iff (hn : n ≤ 64) (hr : r.idx ≤ 8 * r.source.length) :
    r.Serves n ↔ ¬(n = 0 ∧ r.idx = 8 * r.source.length) := by
  have hlimit : ¬n > 64 := Nat.not_lt.mpr hn
  have hleft : r.bitsLeft = r.source.length * 8 - r.idx := rfl
  rw [Serves, getBits, if_neg hlimit]
  rcases Nat.lt_or_ge r.bitsLeft n with hshort | hfits
  · rw [if_pos hshort, if_neg (Nat.not_le.mpr hshort)]
    simp only [true_iff, not_and]
    omega
  · rw [if_neg (Nat.not_lt.mpr hfits), if_pos hfits]
    rcases Nat.lt_or_ge r.idx (8 * r.source.length) with hinside | hend
    · rw [takeBits_spec hn (by omega) hinside]
      simp only [Option.map_some, true_iff, not_and]
      omega
    · rw [takeBits_past hend]
      simp only [Option.map_none, reduceCtorEq, false_iff, not_not]
      omega

/-- Where a reader at `idx` stands after a request. -/
def advance (len idx n : Nat) : Nat := if idx + n ≤ 8 * len then idx + n else idx

/-- Every call of the sequence serves its request. -/
def ServesAll : BitReader → List Nat → Prop
  | _, [] => True
  | r, n :: requests => r.Serves n ∧ ServesAll { r with idx := advance r.source.length r.idx n } requests

/-- Some request asks for no bits at the end of the source. -/
def EmptyAtEnd (len : Nat) : Nat → List Nat → Prop
  | _, [] => False
  | idx, n :: requests => n = 0 ∧ idx = 8 * len ∨ EmptyAtEnd len (advance len idx n) requests

theorem advance_le {len idx n : Nat} (h : idx ≤ 8 * len) : advance len idx n ≤ 8 * len := by
  rw [advance]
  split
  · assumption
  · exact h

theorem servesAll_iff (requests : List Nat) (hn : ∀ n ∈ requests, n ≤ 64)
    (hr : r.idx ≤ 8 * r.source.length) :
    r.ServesAll requests ↔ ¬EmptyAtEnd r.source.length r.idx requests := by
  induction requests generalizing r with
  | nil => simp [ServesAll, EmptyAtEnd]
  | cons n requests ih =>
    have hhead := serves_iff (hn n (by simp)) hr
    have htail := ih (r := { r with idx := advance r.source.length r.idx n })
      (fun m hm => hn m (by simp [hm])) (advance_le hr)
    simp only [ServesAll, EmptyAtEnd, hhead, htail, not_or]

/-- `get_bits` is exact over every sequence of requests that does not ask for nothing at the end. -/
theorem get_bits_serves (source : List UInt8) (requests : List Nat)
    (hn : ∀ n ∈ requests, n ≤ 64) :
    (new source).ServesAll requests ↔ ¬EmptyAtEnd source.length 0 requests :=
  servesAll_iff requests hn (Nat.zero_le _)

theorem get_bits_serves_crossing :
    (new [0xC1, 0x41, 0x08]).ServesAll [3, 0, 20, 2, 1] ↔ ¬EmptyAtEnd 3 0 [3, 0, 20, 2, 1] :=
  get_bits_serves [0xC1, 0x41, 0x08] [3, 0, 20, 2, 1] (by simp)

theorem zero_bits_at_the_end_panic :
    ¬∀ (source : List UInt8) (requests : List Nat), (∀ n ∈ requests, n ≤ 64) →
      (new source).ServesAll requests := by
  intro h
  have hrun := h [0xC1] [8, 0] (by simp)
  have hlast : (⟨8, [0xC1]⟩ : BitReader).getBits 0 = some (.ok 0, ⟨8, [0xC1]⟩) := hrun.2.1
  cases hlast

end BitReader

end BitIo
