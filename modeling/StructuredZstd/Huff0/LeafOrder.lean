import StructuredZstd.Huff0.CachedTable

namespace Huff0.Encoder

open BitIo
open Fse.Encoder (FSETable)

section Sorted

variable {counts : List Nat} {left right : HuffNode}

/-- The order of the leaves: falling counts, and rising symbols among equal counts. -/
def StandsBefore (left right : HuffNode) : Prop :=
  right.count < left.count ∨ left.count = right.count ∧ left.symbol < right.symbol

theorem leafBefore_iff : leafBefore left right = true ↔
    right.count < left.count ∨ left.count = right.count ∧ left.symbol ≤ right.symbol := by
  simp [leafBefore]

theorem mergeSort_leaves (leaves : List HuffNode) :
    (leaves.mergeSort leafBefore).Pairwise (fun left right => leafBefore left right) := by
  apply List.pairwise_mergeSort
  · intro a b c hab hbc
    rw [leafBefore_iff] at hab hbc ⊢
    omega
  · intro a b
    rw [Bool.or_eq_true, leafBefore_iff, leafBefore_iff]
    omega

theorem log2_ge {n : Nat} (h : 165 ≤ n) : 7 ≤ Nat.log2 n := by
  rw [Nat.le_log2 (by omega)]
  omega

/-- A leaf of a higher count is never in a lower bucket. -/
theorem bucketOf_mono (h : left.count ≤ right.count) : bucketOf left ≤ bucketOf right := by
  unfold bucketOf
  split
  · split
    · exact h
    · rename_i hr
      have := log2_ge (Nat.le_of_not_lt hr)
      rw [Fse.Decoder.highestBitSet, if_neg (by omega)]
      omega
  · rename_i hl
    rw [if_neg (by omega), Fse.Decoder.highestBitSet, Fse.Decoder.highestBitSet,
      if_neg (by omega), if_neg (by omega)]
    have hlog : Nat.log2 left.count ≤ Nat.log2 right.count := by
      rw [Nat.le_log2 (by omega)]
      exact (Nat.log2_self_le (by omega)).trans h
    omega

/-- The bucket of a small count holds that count alone. -/
theorem count_of_bucket {leaf : HuffNode} (h : bucketOf leaf < 165) : leaf.count = bucketOf leaf := by
  unfold bucketOf at h ⊢
  split
  · rfl
  · rename_i hc
    have := log2_ge (Nat.le_of_not_lt hc)
    rw [if_neg hc, Fse.Decoder.highestBitSet, if_neg (by omega)] at h
    omega

theorem presentLeaves_rising :
    (presentLeaves counts).Pairwise (fun left right => left.symbol < right.symbol) := by
  have hsymbols : ((presentLeaves counts).map HuffNode.symbol).Pairwise (· < ·) := by
    rw [presentLeaves_symbols]
    apply List.Pairwise.sublist (List.filter_sublist.map _)
    rw [List.zipIdx_map_snd]
    exact List.pairwise_lt_range'
  exact List.pairwise_map.mp hsymbols

/-- The leaves of one bucket come out in order. -/
theorem bucket_sorted {k : Nat} (hk : k < 192) :
    (if k ∈ List.range' 165 27 then (bucketLeaves counts k).mergeSort leafBefore
      else bucketLeaves counts k).Pairwise StandsBefore := by
  have hrising : (bucketLeaves counts k).Pairwise (fun left right => left.symbol < right.symbol) :=
    presentLeaves_rising.filter _
  split
  · have hdistinct : ((bucketLeaves counts k).mergeSort leafBefore).Pairwise
        (fun left right => left.symbol ≠ right.symbol) := by
      refine ((List.mergeSort_perm _ _).pairwise_iff fun h => h.symm).mpr ?_
      exact hrising.imp fun h => Nat.ne_of_lt h
    refine ((mergeSort_leaves _).and hdistinct).imp ?_
    rintro left right ⟨hbefore, hne⟩
    rcases leafBefore_iff.mp hbefore with hlt | ⟨heq, hle⟩
    · exact .inl hlt
    · exact .inr ⟨heq, Nat.lt_of_le_of_ne hle hne⟩
  · rename_i hno
    have hsmall : k < 165 := by
      by_contra hge
      exact hno (List.mem_range'_1.mpr ⟨Nat.le_of_not_lt hge, hk⟩)
    refine hrising.imp_of_mem ?_
    intro left right hl hr hlt
    have hleft := of_decide_eq_true (List.mem_filter.mp hl).2
    have hright := of_decide_eq_true (List.mem_filter.mp hr).2
    refine .inr ⟨?_, hlt⟩
    rw [count_of_bucket (hleft.trans_lt hsmall), count_of_bucket (hright.trans_lt hsmall), hleft,
      hright]

/-- The bucketed sort sorts: counts fall, and symbols rise among equal counts. -/
theorem sortLeaves_sorted (h : histogramFits counts) :
    (sortLeaves counts).Pairwise StandsBefore := by
  rw [sortLeaves_eq h, List.pairwise_flatMap]
  constructor
  · intro k hk
    exact bucket_sorted (mem_buckets.mp hk)
  · have hfalling : buckets.Pairwise (fun k j => j < k) := by
      rw [buckets, List.pairwise_reverse]
      exact List.pairwise_lt_range
    refine hfalling.imp ?_
    intro k j hjk left hleft right hright
    have hin : ∀ i leaf, leaf ∈ (if i ∈ List.range' 165 27 then
        (bucketLeaves counts i).mergeSort leafBefore else bucketLeaves counts i) →
          bucketOf leaf = i := by
      intro i leaf hleaf
      have hmem : leaf ∈ bucketLeaves counts i := by
        split at hleaf
        · exact List.mem_mergeSort.mp hleaf
        · exact hleaf
      exact of_decide_eq_true (List.mem_filter.mp hmem).2
    left
    by_contra hge
    have hmono := bucketOf_mono (Nat.le_of_not_lt hge)
    rw [hin k left hleft, hin j right hright] at hmono
    omega

theorem presentLeaves_count_eq {leaf : HuffNode} (h : leaf ∈ presentLeaves counts) :
    leaf.count = counts.getD leaf.symbol 0 := by
  obtain ⟨⟨c, s⟩, hmem, rfl⟩ := List.mem_map.mp h
  have hget := List.mem_zipIdx_iff_getElem?.mp (List.mem_filter.mp hmem).1
  rw [List.getD_eq_getElem?_getD, hget]
  rfl

/-- The symbols of the built leaves are those that occur, each once, from the most frequent down
and by symbol among equals. -/
theorem buildHuffmanLeafDepths_order (h : histogramFits counts) :
    ((buildHuffmanLeafDepths counts).map HuffNode.symbol).Pairwise (fun s s' =>
      counts.getD s' 0 < counts.getD s 0 ∨ counts.getD s 0 = counts.getD s' 0 ∧ s < s') := by
  have hpairs : ∀ leaves : List HuffNode, (∀ leaf ∈ leaves, leaf ∈ presentLeaves counts) →
      leaves.Pairwise StandsBefore → (leaves.map HuffNode.symbol).Pairwise (fun s s' =>
        counts.getD s' 0 < counts.getD s 0 ∨ counts.getD s 0 = counts.getD s' 0 ∧ s < s') := by
    intro leaves hleaves hsorted
    rw [List.pairwise_map]
    refine hsorted.imp_of_mem ?_
    intro left right hl hr hbefore
    rw [← presentLeaves_count_eq (hleaves left hl), ← presentLeaves_count_eq (hleaves right hr)]
    exact hbefore
  unfold buildHuffmanLeafDepths
  simp only
  split
  · rename_i hone
    refine hpairs _ (fun _ hl => hl) ?_
    match presentLeaves counts, hone with
    | [], _ => exact List.Pairwise.nil
    | [_], _ => exact List.pairwise_singleton _ _
  · rw [treeDepths_symbols]
    exact hpairs _ (fun leaf hl => (sortLeaves_perm h).mem_iff.mp hl) (sortLeaves_sorted h)

end Sorted

section Sizes

theorem encodeWeightDescription_eq_into (weights : List Nat) (fseTable : FSETable) :
    encodeWeightDescription weights fseTable = (encodeWeightDescriptionInto weights fseTable).map
      fun r => if r.1 then some r.2 else none := by
  unfold encodeWeightDescription encodeWeightDescriptionInto
  split
  · rfl
  · simp only
    split
    · rfl
    · simp only [Option.bind_eq_bind, Option.map_bind, Function.comp_def]
      apply Option.bind_congr
      intro table _
      apply Option.bind_congr
      intro w _
      apply Option.bind_congr
      intro w' _
      by_cases hkeep : 1 < w'.output.length ∧
          (w'.output.length < weights.length / 2 ∨ 128 < weights.length)
      · by_cases hlong : 128 ≤ w'.output.length
        · simp [hkeep, hlong]
        · simp [hkeep, hlong, Nat.lt_of_not_le hlong]
      · have hno : ¬(1 < w'.output.length ∧
            (w'.output.length < weights.length / 2 ∨ 128 < weights.length) ∧
              w'.output.length < 128) := fun h => hkeep ⟨h.1, h.2.1⟩
        simp only [if_neg hkeep, if_neg hno]
        rfl

variable {t : CachedTable}

/-- On a table as it is built the size query and the writer do what they do without a cache. -/
theorem CachedTable.size_then_write (ht : t.description.state = .notComputed)
    (hcodes : t.table.codes ≠ []) (hsound : t.table.Sound) (fseTable : FSETable) :
    ∃ r t', t.tryTableDescriptionSize fseTable = some (r, t') ∧ t'.table = t.table ∧
      t.table.tryTableDescriptionSize fseTable = some r ∧
      (∀ w, t'.writeTable w = t.table.writeTable fseTable w) ∧
      ∀ w, t.writeTable w = t.table.writeTable fseTable w := by
  have hlen : t.table.weights.dropLast.length ≤ 255 := by
    have := t.table.codes_le
    rw [List.length_dropLast, HuffmanTable.weights_length]
    omega
  obtain ⟨description, hdescription, hshort⟩ := encodeWeightDescription_spec
    (fun w hw => hsound.weights_le w (List.dropLast_subset _ hw)) hlen
  have hinto : ∀ fse, ∃ ok buf,
      encodeWeightDescriptionInto t.table.weights.dropLast fse = some (ok, buf) ∧
        description = if ok then some buf else none := by
    intro fse
    have heq := encodeWeightDescription_eq_into t.table.weights.dropLast fse
    rw [hdescription fse] at heq
    obtain ⟨⟨ok, buf⟩, hr, hok⟩ := Option.map_eq_some_iff.mp heq.symm
    exact ⟨ok, buf, hr, hok.symm⟩
  have hwrite : ∀ w, t.writeTable w = t.table.writeTable fseTable w := by
    intro w
    obtain ⟨ok, buf, hr, hok⟩ := hinto FSETable.blank
    unfold CachedTable.writeTable HuffmanTable.writeTable
    simp only [ht, if_neg hcodes, hr, hdescription, Option.bind_eq_bind, Option.bind_some, hok]
    cases ok with
    | false => rfl
    | true =>
      have hbytes := (hshort buf hok).1
      simp only [if_true, Nat.mod_eq_of_lt (show buf.length < 256 by omega)]
  obtain ⟨ok, buf, hr, hok⟩ := hinto fseTable
  have hfill : t.fillWeightDescriptionFromCodes fseTable = some { t with
      description := ⟨buf, if ok then .encoded buf.length else .notEncodable⟩ } := by
    unfold CachedTable.fillWeightDescriptionFromCodes
    simp only [ht, ne_eq, not_true_eq_false, if_false, if_neg hcodes, hr, Option.bind_eq_bind,
      Option.bind_some]
  cases ok with
  | false =>
    rw [if_neg Bool.false_ne_true] at hok
    refine ⟨if t.table.codes.length - 1 ≤ 128 then some ((t.table.codes.length - 1 + 1) / 2 + 1)
      else none, { t with description := ⟨buf, .notEncodable⟩ }, ?_, rfl, ?_, ?_, hwrite⟩
    · simp only [CachedTable.tryTableDescriptionSize, hfill, Option.bind_eq_bind, Option.bind_some]
      rfl
    · simp only [HuffmanTable.tryTableDescriptionSize, hdescription, hok, Option.bind_eq_bind,
        Option.bind_some]
    · intro w
      simp only [CachedTable.writeTable, HuffmanTable.writeTable, hdescription, hok, if_neg hcodes,
        Option.bind_eq_bind, Option.bind_some]
  | true =>
    rw [if_pos rfl] at hok
    have hbytes := hshort buf hok
    refine ⟨some (buf.length + 1), { t with description := ⟨buf, .encoded buf.length⟩ }, ?_, rfl,
      ?_, ?_, hwrite⟩
    · simp [CachedTable.tryTableDescriptionSize, hfill, CachedTable.cachedEncodedWeightDescription]
    · simp only [HuffmanTable.tryTableDescriptionSize, hdescription, hok, Option.bind_eq_bind,
        Option.bind_some]
    · intro w
      simp only [CachedTable.writeTable, HuffmanTable.writeTable, hdescription, hok,
        Option.bind_eq_bind, Option.bind_some, Nat.le_refl, if_true, List.take_length,
        Nat.mod_eq_of_lt (show buf.length < 256 by omega)]

/-- Where the size query finds no form for the weights the writer panics. -/
theorem HuffmanTable.writeTable_none {t : HuffmanTable} {fseTable : FSETable}
    (h : t.tryTableDescriptionSize fseTable = some none) (w : BitWriter) :
    t.writeTable fseTable w = none := by
  unfold HuffmanTable.tryTableDescriptionSize at h
  obtain ⟨description, hdescription, h⟩ := Option.bind_eq_some_iff.mp h
  cases description with
  | some description => cases h
  | none =>
    have hlong : ¬t.codes.length - 1 ≤ 128 := by
      intro hle
      simp only [if_pos hle] at h
      cases h
    have hraw : ¬t.weights.dropLast.length ≤ 128 := by
      rwa [List.length_dropLast, weights_length]
    simp only [HuffmanTable.writeTable, hdescription, Option.bind_eq_bind, Option.bind_some,
      writeRawWeightDescription, if_neg hraw]

theorem buildFromWeights_ne_nil {weights : List Nat} {table : HuffmanTable}
    (h : HuffmanTable.buildFromWeights weights = some table) : table.codes ≠ [] := by
  have hlen := CachedTable.buildFromWeights_length h
  rintro hnil
  rw [hnil, List.length_nil] at hlen
  have hweights := List.eq_nil_of_length_eq_zero hlen.symm
  subst hweights
  have hnone : HuffmanTable.buildFromWeights [] = none := by
    have hsum : ¬((weightSum fun w => ([] : List Nat).count w).isPowerOfTwo ∧
        ([] : List Nat).length ≤ 256 ∧
        Fse.Decoder.highestBitSet (weightSum fun w => ([] : List Nat).count w) - 1 ≤ 12) := by
      rintro ⟨⟨k, hk⟩, -⟩
      have hzero : (weightSum fun w => ([] : List Nat).count w) = 0 := by rfl
      have hpos := Nat.two_pow_pos k
      omega
    simp only [HuffmanTable.buildFromWeights, HuffmanTable.buildFromWeightsReusing, dif_neg hsum,
      ite_self]
  rw [hnone] at h
  cases h

/-- What a build leaves: the table of the weights, and a description still to be computed. -/
theorem CachedTable.buildFromWeightsReusing_new {weights : List Nat} {spare : Option CachedTable}
    (h : CachedTable.buildFromWeightsReusing weights spare = some t) :
    HuffmanTable.buildFromWeights weights = some t.table ∧
      t.description.state = .notComputed := by
  rw [← buildFromWeightsReusing_spare weights (spare.map CachedTable.table)]
  obtain ⟨table, htable, hrest⟩ := Option.bind_eq_some_iff.mp h
  cases spare with
  | none =>
    cases hrest
    exact ⟨htable, rfl⟩
  | some spare =>
    cases hrest
    exact ⟨htable, rfl⟩

/-- Whatever way a histogram takes, its table is built from weights. -/
theorem buildFromCountsGatedWith_weights {counts : List Nat} {useSearch : Bool}
    {spare : Option HuffmanTable} {table : HuffmanTable}
    (h : HuffmanTable.buildFromCountsGatedWith counts useSearch spare = some table) :
    ∃ weights, HuffmanTable.buildFromWeights weights = some table ∧
      (counts.countP (0 < ·) ≤ 1 → ∃ maxBits, buildLimitedWeights counts maxBits = some weights) := by
  unfold HuffmanTable.buildFromCountsGatedWith at h
  cases useSearch with
  | false =>
    simp only [Bool.false_eq_true, if_false] at h
    split at h
    · obtain ⟨maxBits, -, h⟩ := Option.bind_eq_some_iff.mp h
      obtain ⟨weights, hweights, h⟩ := Option.bind_eq_some_iff.mp h
      rw [buildFromWeightsReusing_spare] at h
      exact ⟨weights, h, fun _ => ⟨maxBits, hweights⟩⟩
    · cases h
  | true =>
    rw [if_pos rfl] at h
    unfold HuffmanTable.buildFromCounts at h
    split at h
    · simp only at h
      split at h
      · obtain ⟨weights, hweights, h⟩ := Option.bind_eq_some_iff.mp h
        exact ⟨weights, h, fun _ => ⟨11, hweights⟩⟩
      · rename_i hmany
        obtain ⟨found, -, h⟩ := Option.bind_eq_some_iff.mp h
        split at h
        · rename_i weights _
          exact ⟨weights, h, fun hone => (hmany hone).elim⟩
        · obtain ⟨weights, -, h⟩ := Option.bind_eq_some_iff.mp h
          exact ⟨weights, h, fun hone => (hmany hone).elim⟩
    · cases h

theorem sum_one_set (n s : Nat) : ((List.replicate n 0).set s 1).sum ≤ 1 := by
  induction n generalizing s with
  | zero => simp
  | succ n ih =>
    rw [List.replicate_succ]
    cases s with
    | zero => simp
    | succ s =>
      rw [List.set_cons_succ, List.sum_cons, Nat.zero_add]
      exact ih s

/-- A lone symbol gets the only weight, and a table of no bits. -/
theorem lone_tableLog {counts weights : List Nat} {maxBits : Nat} {table : HuffmanTable}
    (hone : counts.countP (0 < ·) ≤ 1) (hweights : buildLimitedWeights counts maxBits = some weights)
    (h : HuffmanTable.buildFromWeights weights = some table) : table.tableLog = 0 := by
  have hleaves : (buildHuffmanLeafDepths counts).length ≤ 1 := by
    have hlen := presentLeaves_length counts
    unfold buildHuffmanLeafDepths
    simp only
    rw [if_pos (hlen.trans_le hone)]
    exact hlen.trans_le hone
  have hset : ∃ s, weights = (List.replicate counts.length 0).set s 1 ∨
      weights = List.replicate counts.length 0 := by
    unfold buildLimitedWeights limitedWeights at hweights
    simp only [if_pos hleaves] at hweights
    cases hl : buildHuffmanLeafDepths counts with
    | nil =>
      rw [hl] at hweights
      cases hweights
      exact ⟨0, .inr rfl⟩
    | cons leaf leaves =>
      rw [hl] at hweights
      cases hweights
      exact ⟨leaf.symbol, .inl rfl⟩
  have hslots : (weights.map slots).sum ≤ 1 := by
    obtain ⟨s, rfl | rfl⟩ := hset
    · rw [List.map_set, List.map_replicate]
      exact sum_one_set counts.length s
    · simp [slots]
  unfold HuffmanTable.buildFromWeights HuffmanTable.buildFromWeightsReusing at h
  split at h
  · rename_i hall
    simp only at h
    split at h
    · rename_i hsum
      obtain ⟨k, hk⟩ := hsum.1
      have hle : ∀ w ∈ weights, w ≤ 12 := by simpa using hall
      have htotal := (weightSum_slots hle).symm.trans hk
      have hzero : k = 0 := by
        by_contra h0
        have := Nat.pow_le_pow_right (show 0 < 2 by decide) (Nat.pos_of_ne_zero h0)
        omega
      cases h
      simp only [hk, hzero, Decoder.highestBitSet_two_pow, Nat.add_sub_cancel]
    · cases h
  · cases h

/-- The leaves of a histogram are its symbols from the most frequent down, and its table is built
from weights with a log of at most twelve. On every table of weights the size query is the number of
bytes the writer then puts out, and none where it can put out none. -/
theorem leaves_and_sizes_exact :
    (∀ counts : List Nat, histogramFits counts →
      (∀ s, s ∈ (buildHuffmanLeafDepths counts).map HuffNode.symbol ↔ 0 < counts.getD s 0) ∧
        ((buildHuffmanLeafDepths counts).map HuffNode.symbol).Nodup ∧
        (((buildHuffmanLeafDepths counts).map HuffNode.symbol).Pairwise fun s s' =>
          counts.getD s' 0 < counts.getD s 0 ∨ counts.getD s 0 = counts.getD s' 0 ∧ s < s') ∧
        ∀ useSearch spare table,
          HuffmanTable.buildFromCountsGatedWith counts useSearch spare = some table →
            table.tableLog ≤ 12 ∧
            ∃ weights, HuffmanTable.buildFromWeights weights = some table) ∧
    ∀ (weights : List Nat) (spare : Option CachedTable) (t : CachedTable),
      CachedTable.buildFromWeightsReusing weights spare = some t →
      ∀ fseTable : FSETable, ∃ r t', t.tryTableDescriptionSize fseTable = some (r, t') ∧
        ∀ (w : BitWriter) (bytes : List UInt8), w.Full bytes →
          (r = none ↔ t'.writeTable w = none) ∧ t.writeTable w = t'.writeTable w ∧
          ∀ size, r = some size → ∃ w' more, t'.writeTable w = some w' ∧
            w'.Full (bytes ++ more) ∧ more.length = size := by
  refine ⟨fun counts h => ⟨fun s => ?_, ?_, buildHuffmanLeafDepths_order h,
    fun useSearch spare table htable => ?_⟩, ?_⟩
  · rw [(buildHuffmanLeafDepths_symbols h).mem_iff, mem_presentLeaves]
  · rw [(buildHuffmanLeafDepths_symbols h).nodup_iff]
    exact presentLeaves_nodup counts
  · obtain ⟨weights, hweights, hlone⟩ := buildFromCountsGatedWith_weights htable
    refine ⟨?_, weights, hweights⟩
    by_cases htwo : 2 ≤ counts.countP (0 < ·)
    · obtain ⟨table', htable', hsound, -⟩ := buildFromCountsGatedWith_spec h htwo useSearch
      have hsame := Option.some.inj ((htable' spare).symm.trans htable)
      exact hsame ▸ hsound.log_le
    · have hone : counts.countP (0 < ·) ≤ 1 := by omega
      obtain ⟨maxBits, hmax⟩ := hlone hone
      rw [lone_tableLog hone hmax hweights]
      exact Nat.zero_le 12
  · intro weights spare t ht fseTable
    obtain ⟨htable, hstate⟩ := CachedTable.buildFromWeightsReusing_new ht
    have hsound : t.table.Sound := buildFromWeightsReusing_sound htable
    obtain ⟨r, t', hsize, -, hplain, hwrite, hcold⟩ := CachedTable.size_then_write hstate
      (buildFromWeights_ne_nil htable) hsound fseTable
    obtain ⟨r', hr', hbytes⟩ := hsound.description
    have hrr : r' = r := Option.some.inj ((hr' fseTable).symm.trans hplain)
    subst hrr
    refine ⟨r', t', hsize, fun w bytes hw => ?_⟩
    rw [hwrite, hcold]
    cases r' with
    | none =>
      have hnone := HuffmanTable.writeTable_none hplain w
      exact ⟨⟨fun _ => hnone, fun _ => rfl⟩, rfl, fun size hs => by cases hs⟩
    | some size =>
      obtain ⟨w', more, hw', hfull, hmore⟩ := hbytes size rfl fseTable w bytes hw
      refine ⟨?_, rfl, ?_⟩
      · rw [hw']
        exact ⟨nofun, nofun⟩
      · intro size' hs
        cases hs
        exact ⟨w', more, hw', hfull, hmore⟩

theorem leaves_and_sizes_exact_pair :
    ((buildHuffmanLeafDepths [3, 0, 5, 3]).map HuffNode.symbol).Nodup ∧
    ∃ t, CachedTable.buildFromWeightsReusing [2, 1, 1] none = some t ∧
      ∃ r t', t.tryTableDescriptionSize FSETable.blank = some (r, t') ∧
        (r = none ↔ t'.writeTable (BitWriter.ofOutput []) = none) := by
  obtain ⟨hleaves, hsizes⟩ := leaves_and_sizes_exact
  refine ⟨(hleaves [3, 0, 5, 3] (by decide)).2.1, ?_⟩
  have hbuild : (CachedTable.buildFromWeightsReusing [2, 1, 1] none).isSome := by decide
  obtain ⟨t, ht⟩ := Option.isSome_iff_exists.mp hbuild
  obtain ⟨r, t', hsize, hwrite⟩ := hsizes [2, 1, 1] none t ht FSETable.blank
  exact ⟨t, ht, r, t', hsize, (hwrite _ [] (BitWriter.full_ofOutput [])).1⟩

end Sizes

end Huff0.Encoder
