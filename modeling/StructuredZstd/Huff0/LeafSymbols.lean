import StructuredZstd.Huff0.WeightBuild

namespace Huff0.Encoder

open Bits
open Fse.Decoder (highestBitSet)

section Sorting

variable {counts : List Nat}

theorem bucketStarts_length (sizes : List Nat) : (bucketStarts sizes).length = sizes.length := by
  induction sizes with
  | nil => rfl
  | cons size sizes ih => simp [bucketStarts, ih]

theorem bucketStarts_getD (sizes : List Nat) (k : Nat) :
    (bucketStarts sizes).getD k 0 = (sizes.drop (k + 1)).sum := by
  induction sizes generalizing k with
  | nil => simp [bucketStarts]
  | cons size sizes ih =>
    cases k with
    | zero => simp [bucketStarts]
    | succ k =>
      rw [bucketStarts, List.getD_cons_succ, ih]
      rfl

/-- The buckets of higher counts stand first. -/
theorem blockStart_falling (room : Nat → Nat) {n k : Nat} (hk : k < n) :
    blockStart room (List.range n).reverse k = (((List.range n).map room).drop (k + 1)).sum := by
  induction n with
  | zero => cases hk
  | succ n ih =>
    rw [List.range_succ, List.reverse_append, List.reverse_singleton, List.singleton_append,
      blockStart, List.map_append, List.drop_append, List.sum_append]
    by_cases hnk : n = k
    · subst hnk
      rw [List.drop_eq_nil_of_le (by simp)]
      simp
    · have hlt : k < n := by omega
      rw [if_neg hnk, ih hlt]
      simp [show k + 1 - n = 0 by omega, Nat.add_comm]

theorem presentLeaves_count {leaf : HuffNode} (h : leaf ∈ presentLeaves counts) :
    leaf.count ∈ counts ∧ 0 < leaf.count := by
  obtain ⟨c, hc, rfl⟩ := List.mem_map.mp h
  obtain ⟨hmem, hpos⟩ := List.mem_filter.mp hc
  exact ⟨List.fst_mem_of_mem_zipIdx hmem, of_decide_eq_true hpos⟩

theorem bucketOf_lt (h : histogramFits counts) {leaf : HuffNode}
    (hleaf : leaf ∈ presentLeaves counts) : bucketOf leaf < 192 := by
  obtain ⟨hmem, hpos⟩ := presentLeaves_count hleaf
  simp only [histogramFits, Bool.and_eq_true, decide_eq_true_eq] at h
  have hle : leaf.count ≤ counts.sum := List.le_sum_of_mem hmem
  have hlog : Nat.log2 leaf.count < 32 := by
    rw [Nat.log2_lt hpos.ne']
    omega
  unfold bucketOf
  split
  · omega
  · rw [highestBitSet, if_neg hpos.ne']
    omega

/-- The buckets, those of higher counts first. -/
def buckets : List Nat := (List.range 192).reverse

def bucketRoom (counts : List Nat) (bucket : Nat) : Nat :=
  (presentLeaves counts).countP (bucketOf · = bucket)

/-- The leaves of one bucket, in symbol order. -/
def bucketLeaves (counts : List Nat) (bucket : Nat) : List HuffNode :=
  (presentLeaves counts).filter (bucketOf · = bucket)

theorem buckets_nodup : buckets.Nodup := List.nodup_reverse.mpr List.nodup_range

theorem mem_buckets {k : Nat} : k ∈ buckets ↔ k < 192 := by
  rw [buckets, List.mem_reverse, List.mem_range]

theorem bucketLeaves_length (k : Nat) : (bucketLeaves counts k).length = bucketRoom counts k :=
  List.countP_eq_length_filter.symm

theorem bucketStarts_eq {k : Nat} (hk : k < 192) :
    (bucketStarts (bucketSizes (presentLeaves counts))).getD k 0 =
      blockStart (bucketRoom counts) buckets k := by
  rw [bucketStarts_getD, buckets, blockStart_falling _ hk]
  rfl

/-- The pass over the buckets lays the leaves down bucket by bucket. -/
theorem place_leaves (h : histogramFits counts) :
    (place bucketOf (presentLeaves counts) (bucketStarts (bucketSizes (presentLeaves counts)))
      (List.replicate (presentLeaves counts).length ⟨0, 0, noParent, 0⟩)).2 =
        buckets.flatMap (bucketLeaves counts) ∧
      ∀ k < 192, (place bucketOf (presentLeaves counts)
        (bucketStarts (bucketSizes (presentLeaves counts)))
        (List.replicate (presentLeaves counts).length ⟨0, 0, noParent, 0⟩)).1.getD k 0 =
          blockStart (bucketRoom counts) buckets k + bucketRoom counts k := by
  have hmem : ∀ a ∈ presentLeaves counts, bucketOf a ∈ buckets := by
    intro a ha
    exact mem_buckets.mpr (bucketOf_lt h ha)
  have hperm := flatMap_filter_perm buckets_nodup bucketOf hmem
  have hroom : ∀ k, ((presentLeaves counts).filter (bucketOf · = k)).length =
      bucketRoom counts k := fun k => List.countP_eq_length_filter.symm
  have hblank : List.replicate (presentLeaves counts).length (⟨0, 0, noParent, 0⟩ : HuffNode) =
      layout (bucketRoom counts) ⟨0, 0, noParent, 0⟩ (fun _ => []) buckets := by
    rw [layout_blank, ← hperm.length_eq, List.length_flatMap]
    simp only [hroom]
  obtain ⟨hout, hcursor⟩ := @place_spec HuffNode (bucketRoom counts) ⟨0, 0, noParent, 0⟩
    (fun _ => []) buckets bucketOf (presentLeaves counts)
    (bucketStarts (bucketSizes (presentLeaves counts))) buckets_nodup
    (by
      intro k hk
      rw [bucketStarts_length, bucketSizes, List.length_map, List.length_range]
      exact mem_buckets.mp hk)
    hmem
    (by
      intro k _
      rw [hroom]
      simp)
    (by
      intro k hk
      rw [bucketStarts_eq (mem_buckets.mp hk)]
      rfl)
  constructor
  · rw [hblank, hout, layout_full (fun k _ => by rw [List.nil_append, hroom])]
    rfl
  · intro k hk
    rw [hblank, hcursor k (mem_buckets.mpr hk), hroom]
    simp

theorem sortBetween_short {lo hi : Nat} (h : lo ≤ hi) (hshort : hi ≤ lo + 1)
    (nodes : List HuffNode) : sortBetween lo hi nodes = nodes := by
  have hone : ∀ block : List HuffNode, block.length ≤ 1 → block.mergeSort leafBefore = block := by
    intro block hblock
    match block, hblock with
    | [], _ => exact List.mergeSort_nil
    | [_], _ => exact List.mergeSort_singleton _
  have hlow : (nodes.take hi).take lo = nodes.take lo := by
    rw [List.take_take, Nat.min_eq_left h]
  rw [sortBetween, hone _ (by simp; omega), ← hlow, List.take_append_drop, List.take_append_drop]

/-- The leaves come out bucket by bucket, the shared buckets sorted. -/
theorem sortLeaves_eq (h : histogramFits counts) :
    sortLeaves counts = buckets.flatMap fun k =>
      if k ∈ List.range' 165 27 then (bucketLeaves counts k).mergeSort leafBefore
      else bucketLeaves counts k := by
  obtain ⟨hout, hcursor⟩ := place_leaves h
  have hsub : ∀ k ∈ List.range' 165 27, k ∈ buckets := by
    intro k hk
    exact mem_buckets.mpr (List.mem_range'_1.mp hk).2
  have hsort := rework_blocks (g := fun block => block.mergeSort leafBefore)
    (fun block => List.length_mergeSort block) buckets_nodup
    (List.nodup_range' (s := 165) (n := 27)) hsub (fun k _ => @bucketLeaves_length counts k)
  rw [← hsort, ← hout]
  unfold sortLeaves
  simp only
  apply List.foldl_ext
  intro nodes k hk
  have hk' := (List.mem_range'_1.mp hk).2
  rw [bucketStarts_eq hk', hcursor k hk', Nat.add_sub_cancel_left]
  split
  · rfl
  · exact (sortBetween_short (Nat.le_add_right _ _) (by omega) nodes).symm

/-- Sorting only reorders the leaves. -/
theorem sortLeaves_perm (h : histogramFits counts) :
    (sortLeaves counts).Perm (presentLeaves counts) := by
  have hmem : ∀ a ∈ presentLeaves counts, bucketOf a ∈ buckets := by
    intro a ha
    exact mem_buckets.mpr (bucketOf_lt h ha)
  rw [sortLeaves_eq h]
  refine List.Perm.trans ?_ (flatMap_filter_perm buckets_nodup bucketOf hmem)
  apply List.Perm.flatMap_left
  intro k _
  split
  · exact List.mergeSort_perm _ _
  · exact List.Perm.refl _

end Sorting

/-- The symbols of the first `k` nodes. -/
def symbolsOf (k : Nat) (nodes : List HuffNode) : List Nat := (nodes.take k).map HuffNode.symbol

section Tree

variable {k i : Nat} {nodes : List HuffNode}

/-- A node rewritten in place keeps its symbol. -/
theorem symbolsOf_set {node : HuffNode} (h : node.symbol = (nodes.getD i unbuilt).symbol) :
    symbolsOf k (nodes.set i node) = symbolsOf k nodes := by
  apply List.ext_getElem?
  intro j
  simp only [symbolsOf, List.getElem?_map, List.getElem?_take, List.getElem?_set]
  split
  · by_cases hij : i = j
    · subst hij
      rw [if_pos rfl]
      split
      · rename_i hlt
        rw [List.getD_eq_getElem?_getD, List.getElem?_eq_getElem hlt] at h
        rw [List.getElem?_eq_getElem hlt]
        exact congrArg some h
      · rename_i hge
        rw [List.getElem?_eq_none (Nat.le_of_not_lt hge)]
    · rw [if_neg hij]
  · rfl

/-- What is built above the leaves leaves them alone. -/
theorem symbolsOf_set_above {node : HuffNode} (h : k ≤ i) :
    symbolsOf k (nodes.set i node) = symbolsOf k nodes := by
  rw [symbolsOf, List.take_set, List.set_eq_of_length_le]
  · rfl
  · exact (List.length_take_le _ _).trans h

theorem symbolsOf_setParent (child parent : Nat) :
    symbolsOf k (setParent nodes child parent) = symbolsOf k nodes := symbolsOf_set rfl

theorem symbolsOf_joinNodes (first second : Nat) (h : k ≤ i) :
    symbolsOf k (joinNodes nodes first second i) = symbolsOf k nodes := by
  rw [joinNodes, symbolsOf_setParent, symbolsOf_setParent, symbolsOf_set_above h]

theorem symbolsOf_mergeRounds (rounds : List Nat) (h : ∀ node ∈ rounds, k ≤ node)
    (m : MergeState) : symbolsOf k (rounds.foldl mergeRound m).nodes = symbolsOf k m.nodes := by
  induction rounds generalizing m with
  | nil => rfl
  | cons node rounds ih =>
    have hpick : ∀ m : MergeState, m.pick.2.nodes = m.nodes := by
      intro m
      unfold MergeState.pick
      simp only
      generalize (if 0 < m.leavesLeft then _ else _ : Nat) = leafCount
      split <;> rfl
    rw [List.foldl_cons, ih (fun n hn => h n (List.mem_cons_of_mem _ hn)), mergeRound]
    rw [symbolsOf_joinNodes _ _ (h node List.mem_cons_self), hpick, hpick]

theorem symbolsOf_assignDepths (root : Nat) (nodes : List HuffNode) :
    symbolsOf k (assignDepths root nodes) = symbolsOf k nodes := by
  have hwalk : ∀ (walk : List Nat) (nodes : List HuffNode),
      symbolsOf k (walk.foldl (fun nodes n =>
        nodes.set n { nodes.getD n unbuilt with
          nbBits := (nodes.getD (nodes.getD n unbuilt).parent unbuilt).nbBits + 1 }) nodes) =
        symbolsOf k nodes := by
    intro walk
    induction walk with
    | nil => exact fun _ => rfl
    | cons n walk ih =>
      intro nodes
      rw [List.foldl_cons, ih]
      exact symbolsOf_set rfl
  rw [assignDepths, hwalk]
  exact symbolsOf_set rfl

theorem treeDepths_symbols (leaves : List HuffNode) :
    (treeDepths leaves).map HuffNode.symbol = leaves.map HuffNode.symbol := by
  have hrun : symbolsOf leaves.length (leaves ++ List.replicate (leaves.length - 1) unbuilt) =
      leaves.map HuffNode.symbol := by
    rw [symbolsOf, List.take_left]
  have hall : ∀ node ∈ List.range' (leaves.length + 1) (leaves.length - 2),
      leaves.length ≤ node := by
    intro node hnode
    have := (List.mem_range'_1.mp hnode).1
    omega
  rw [treeDepths, ← symbolsOf, symbolsOf_assignDepths, symbolsOf_mergeRounds _ hall,
    symbolsOf_joinNodes _ _ (Nat.le_refl _), hrun]

/-- The leaves of the unlimited code are those of the symbols that occur. -/
theorem buildHuffmanLeafDepths_symbols {counts : List Nat} (h : histogramFits counts) :
    ((buildHuffmanLeafDepths counts).map HuffNode.symbol).Perm
      ((presentLeaves counts).map HuffNode.symbol) := by
  unfold buildHuffmanLeafDepths
  simp only
  split
  · exact List.Perm.refl _
  · rw [treeDepths_symbols]
    exact (sortLeaves_perm h).map _

end Tree

section Limiting

variable {nodes : List HuffNode}

theorem setBits_symbols (nodes : List HuffNode) (i nbBits : Nat) :
    (setBits nodes i nbBits).map HuffNode.symbol = nodes.map HuffNode.symbol := by
  have := @symbolsOf_set (max nodes.length (setBits nodes i nbBits).length) i nodes
    { nodes.getD i unbuilt with nbBits := nbBits } rfl
  rw [symbolsOf, symbolsOf, List.take_of_length_le (by simp [setBits]),
    List.take_of_length_le (by simp)] at this
  exact this

theorem cutLong_symbols (largest target n cost : Nat) (nodes : List HuffNode) :
    (cutLong largest target n nodes cost).1.map HuffNode.symbol =
      nodes.map HuffNode.symbol := by
  induction n generalizing nodes cost with
  | zero =>
    rw [cutLong]
    split
    · exact setBits_symbols _ _ _
    · rfl
  | succ n ih =>
    rw [cutLong]
    split
    · exact (ih _ _).trans (setBits_symbols _ _ _)
    · rfl

theorem payCost_symbols (target fuel : Nat) (r : Repair) :
    (payCost target fuel r).nodes.map HuffNode.symbol = r.nodes.map HuffNode.symbol := by
  induction fuel generalizing r with
  | zero => rfl
  | succ fuel ih =>
    simp only [payCost]
    split
    · split
      · rfl
      · split
        · rfl
        · exact (ih _).trans (setBits_symbols _ _ _)
    · rfl

theorem returnCost_symbols (target fuel : Nat) (r : Repair) (n : Nat) :
    (returnCost target fuel r n).nodes.map HuffNode.symbol = r.nodes.map HuffNode.symbol := by
  induction fuel generalizing r n with
  | zero => rfl
  | succ fuel ih =>
    simp only [returnCost]
    split
    · split
      · split
        · rfl
        · exact (ih _ _).trans (setBits_symbols _ _ _)
      · split
        · rfl
        · exact (ih _ _).trans (setBits_symbols _ _ _)
    · rfl

/-- Cutting the code down moves no leaf. -/
theorem enforceMaxHeight_symbols (nodes : List HuffNode) (target : Nat) :
    (enforceMaxHeight nodes target).map HuffNode.symbol = nodes.map HuffNode.symbol := by
  unfold enforceMaxHeight
  simp only
  split
  · rfl
  · rw [returnCost_symbols, payCost_symbols]
    exact cutLong_symbols _ _ _ _ _

end Limiting

end Huff0.Encoder
