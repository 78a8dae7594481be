import Mathlib.Algebra.BigOperators.Fin
import StructuredZstd.Huff0.StreamSizes
import StructuredZstd.Huff0.WeightDescription

namespace Huff0.Encoder

open Bits BitIo
open Fse.Encoder (FSETable)

/-- How often every byte occurs. -/
def occurrences (data : List UInt8) : List Nat :=
  (List.range 256).map fun symbol => data.count (UInt8.ofNat symbol)

section Lists

variable {α : Type} {f : α → Option Nat} {l : List α}

theorem mapM_of_isSome (h : ∀ x ∈ l, (f x).isSome) :
    l.mapM f = some (l.map fun x => (f x).getD 0) := by
  induction l with
  | nil => rfl
  | cons a l ih =>
    obtain ⟨b, hb⟩ := Option.isSome_iff_exists.mp (h a List.mem_cons_self)
    rw [List.mapM_cons, ih fun x hx => h x (List.mem_cons_of_mem _ hx)]
    simp [hb]

theorem mapM_of_not_isSome (h : ¬∀ x ∈ l, (f x).isSome) : l.mapM f = none := by
  induction l with
  | nil => exact absurd (fun x hx => by cases hx) h
  | cons a l ih =>
    rw [List.mapM_cons]
    cases ha : f a with
    | none => rfl
    | some b =>
      have hl : ¬∀ x ∈ l, (f x).isSome := by
        intro hall
        apply h
        intro x hx
        rcases List.mem_cons.mp hx with rfl | hx
        · rw [ha]
          rfl
        · exact hall x hx
      rw [ih hl]
      rfl

theorem sum_range_map (n : Nat) (g : Nat → Nat) :
    ((List.range n).map g).sum = ∑ i ∈ Finset.range n, g i := by
  induction n with
  | zero => rfl
  | succ n ih => rw [List.range_succ, Finset.sum_range_succ, ← ih]; simp

/-- A zipped sum, as one over all places of the longer list. -/
theorem sum_zip_range (codes : List (Nat × Nat)) {n : Nat} (c : Nat → Nat)
    (hlen : codes.length ≤ n) :
    ((codes.zip ((List.range n).map c)).map fun (code, count) => code.2 * count).sum =
      ((List.range n).map fun i => (codes.getD i (0, 0)).2 * c i).sum := by
  induction n generalizing codes c with
  | zero =>
    rw [List.length_eq_zero_iff.mp (Nat.le_zero.mp hlen)]
    rfl
  | succ n ih =>
    rw [List.range_succ_eq_map]
    cases codes with
    | nil =>
      have hzero : ((0 :: (List.range n).map Nat.succ).map fun i =>
          (([] : List (Nat × Nat)).getD i (0, 0)).2 * c i).sum = 0 := by
        apply List.sum_eq_zero
        intro x hx
        obtain ⟨i, -, rfl⟩ := List.mem_map.mp hx
        simp
      rw [hzero]
      rfl
    | cons code codes =>
      have := ih codes (fun i => c (i + 1)) (by simpa using hlen)
      simp only [List.map_cons, List.map_map, List.zip_cons_cons, List.sum_cons,
        List.getD_cons_zero, Nat.add_left_cancel_iff]
      exact this

/-- A sum over what occurs is the sum over how often it does. -/
theorem sum_occurrences (f : Nat → Nat) {n : Nat} (hn : n ≤ 256) {data : List UInt8}
    (hdata : ∀ x ∈ data, x.toNat < n) :
    ((List.range n).map fun i => f i * data.count (UInt8.ofNat i)).sum =
      (data.map fun x => f x.toNat).sum := by
  induction data with
  | nil =>
    simp
  | cons x data ih =>
    have hx := hdata x List.mem_cons_self
    have hone : ((List.range n).map fun i => f i * if x = UInt8.ofNat i then 1 else 0).sum =
        f x.toNat := by
      rw [sum_range_map, Finset.sum_eq_single x.toNat]
      · simp
      · intro i hi hne
        have hi := Finset.mem_range.mp hi
        rw [if_neg, Nat.mul_zero]
        intro he
        apply hne
        rw [he, UInt8.toNat_ofNat', Nat.mod_eq_of_lt (by omega)]
      · intro hnot
        exact absurd (Finset.mem_range.mpr hx) hnot
    have hrest := ih fun y hy => hdata y (List.mem_cons_of_mem _ hy)
    simp only [List.count_cons, beq_iff_eq, Nat.mul_add, List.map_cons, List.sum_cons]
    rw [List.sum_map_add, hrest, hone, Nat.add_comm]

theorem zipIdx_range {β γ : Type} (g : Nat → β) (h : Nat → γ) (n : Nat) :
    (((List.range n).map g).zipIdx.map fun c => h c.2) = (List.range n).map h := by
  apply List.ext_getElem
  · simp
  · intro i h1 h2
    simp

theorem mem_occurrences {data : List UInt8} {count symbol : Nat} :
    (count, symbol) ∈ (occurrences data).zipIdx ↔
      symbol < 256 ∧ count = data.count (UInt8.ofNat symbol) := by
  rw [List.mem_zipIdx_iff_getElem?]
  simp only [occurrences, List.getElem?_map]
  by_cases h : symbol < 256
  · rw [List.getElem?_range h]
    simp [h, eq_comm]
  · rw [List.getElem?_eq_none (by rw [List.length_range]; omega)]
    simp [h]

end Lists

namespace HuffmanTable

def Encodes (t : HuffmanTable) (data : List UInt8) : Prop :=
  ∀ s ∈ data, (t.numBitsForSymbol s.toNat).isSome

/-- The width of a symbol's code, zero without one. -/
def widthOf (t : HuffmanTable) (symbol : Nat) : Nat := (t.numBitsForSymbol symbol).getD 0

def bitsOf (t : HuffmanTable) (data : List UInt8) : Nat :=
  (data.map fun s => t.widthOf s.toNat).sum

variable {t : HuffmanTable} {data : List UInt8}

theorem estimateCompressedSize_of_encodes (h : t.Encodes data) :
    t.estimateCompressedSize data = some (streamBytes (t.bitsOf data)) := by
  rw [estimateCompressedSize, mapM_of_isSome h]
  rfl

theorem estimateCompressedSize_of_not_encodes (h : ¬t.Encodes data) :
    t.estimateCompressedSize data = none := by
  rw [estimateCompressedSize, mapM_of_not_isSome h]
  rfl

theorem numBits_getD (t : HuffmanTable) (s : Nat) : t.widthOf s = (t.codes.getD s (0, 0)).2 := by
  rw [widthOf, numBitsForSymbol, List.getD_eq_getElem?_getD]
  cases t.codes[s]? with
  | none => rfl
  | some c =>
    simp only [Option.getD_some]
    split
    · rename_i h0
      rw [h0]
      rfl
    · rfl

/-- The size off the histogram is the size off the literals. -/
theorem estimateCompressedSizeFromCounts_eq (t : HuffmanTable) (data : List UInt8) :
    t.estimateCompressedSizeFromCounts (occurrences data) = streamBytes (t.bitsOf data) := by
  unfold estimateCompressedSizeFromCounts bitsOf occurrences
  rw [sum_zip_range _ _ t.codes_le, ← sum_occurrences t.widthOf (Nat.le_refl 256)
    fun x _ => x.toNat_lt]
  simp only [numBits_getD]

theorem estimateCompressedSizeFromCountsChecked_eq (t : HuffmanTable) (data : List UInt8) :
    t.estimateCompressedSizeFromCountsChecked (occurrences data) = t.estimateCompressedSize data := by
  have hiff : (∀ c ∈ (occurrences data).zipIdx,
      (if c.1 = 0 then some 0 else (t.numBitsForSymbol c.2).map (· * c.1)).isSome) ↔
        t.Encodes data := by
    constructor
    · intro h x hx
      have hcount : data.count x ≠ 0 := Nat.ne_of_gt (List.count_pos_iff.mpr hx)
      have := h (data.count x, x.toNat)
        (mem_occurrences.mpr ⟨x.toNat_lt, by rw [UInt8.ofNat_toNat]⟩)
      rw [if_neg hcount, Option.isSome_map] at this
      exact this
    · intro h c hc
      obtain ⟨hlt, he⟩ := mem_occurrences.mp hc
      split
      · rfl
      · rename_i hne
        have hmem : UInt8.ofNat c.2 ∈ data := by
          apply List.count_pos_iff.mp
          omega
        have := h _ hmem
        rw [UInt8.toNat_ofNat', Nat.mod_eq_of_lt hlt] at this
        rw [Option.isSome_map]
        exact this
  unfold estimateCompressedSizeFromCountsChecked
  by_cases h : t.Encodes data
  · rw [estimateCompressedSize_of_encodes h, mapM_of_isSome (hiff.mpr h)]
    have hterm : ∀ c ∈ (occurrences data).zipIdx,
        (if c.1 = 0 then some 0 else (t.numBitsForSymbol c.2).map (· * c.1)).getD 0 =
          t.widthOf c.2 * data.count (UInt8.ofNat c.2) := by
      intro c hc
      obtain ⟨-, he⟩ := mem_occurrences.mp hc
      rw [← he, widthOf]
      split
      · rename_i h0
        rw [h0]
        rfl
      · cases t.numBitsForSymbol c.2 with
        | none => simp
        | some n => rfl
    have hsum : ((occurrences data).zipIdx.map fun c =>
        t.widthOf c.2 * data.count (UInt8.ofNat c.2)).sum = t.bitsOf data := by
      rw [bitsOf, ← sum_occurrences t.widthOf (Nat.le_refl 256) fun x _ => x.toNat_lt]
      rw [occurrences, zipIdx_range _ fun s => t.widthOf s * data.count (UInt8.ofNat s)]
    rw [← hsum, ← List.map_congr_left hterm]
    rfl
  · rw [estimateCompressedSize_of_not_encodes h, mapM_of_not_isSome (mt hiff.mp h)]
    rfl

end HuffmanTable

end Huff0.Encoder
