import Mathlib.Data.List.GetD
import Mathlib.Data.List.Nodup
import Mathlib.Logic.Function.Basic
import Mathlib.Tactic.Ring

namespace Bits

variable {α : Type}

/-- A distribution pass: put every item at the cursor of its key's block, and move the cursor on. -/
def place (key : α → Nat) : List α → List Nat → List α → List Nat × List α
  | [], cursor, out => (cursor, out)
  | a :: items, cursor, out =>
    let pos := cursor.getD (key a) 0
    place key items (cursor.set (key a) (pos + 1)) (out.set pos a)

section Layout

variable (room : Nat → Nat) (blank : α)

/-- Blocks laid end to end, `f k` at the front of the block of `k`. -/
def layout (f : Nat → List α) (keys : List Nat) : List α :=
  keys.flatMap fun k => f k ++ List.replicate (room k - (f k).length) blank

/-- Where the block of a key starts. -/
def blockStart : List Nat → Nat → Nat
  | [], _ => 0
  | j :: keys, k => if j = k then 0 else room j + blockStart keys k

variable {room blank} {f : Nat → List α} {keys : List Nat}

theorem layout_cons (k : Nat) : layout room blank f (k :: keys) =
    (f k ++ List.replicate (room k - (f k).length) blank) ++ layout room blank f keys := rfl

theorem layout_congr {g : Nat → List α} (h : ∀ k ∈ keys, f k = g k) :
    layout room blank f keys = layout room blank g keys := by
  induction keys with
  | nil => rfl
  | cons j keys ih =>
    rw [layout_cons, layout_cons, h j List.mem_cons_self]
    rw [ih fun k hk => h k (List.mem_cons_of_mem _ hk)]

theorem block_length {k : Nat} (h : (f k).length ≤ room k) :
    (f k ++ List.replicate (room k - (f k).length) blank).length = room k := by
  simp only [List.length_append, List.length_replicate]
  omega

/-- The next free place of a block takes the item. -/
theorem layout_set (hnodup : keys.Nodup) (hfits : ∀ k ∈ keys, (f k).length ≤ room k) {k : Nat}
    (hk : k ∈ keys) (hfree : (f k).length < room k) (a : α) :
    (layout room blank f keys).set (blockStart room keys k + (f k).length) a =
      layout room blank (Function.update f k (f k ++ [a])) keys := by
  induction keys with
  | nil => cases hk
  | cons j keys ih =>
    obtain ⟨hj, hrest⟩ := List.nodup_cons.mp hnodup
    rw [layout_cons, layout_cons, blockStart]
    by_cases hjk : j = k
    · subst hjk
      obtain ⟨n, hn⟩ : ∃ n, room j - (f j).length = n + 1 := ⟨_, (Nat.succ_pred (by omega)).symm⟩
      have hn' : room j - (f j ++ [a]).length = n := by simp; omega
      have hsame : layout room blank (Function.update f j (f j ++ [a])) keys =
          layout room blank f keys := by
        apply layout_congr
        intro i hi
        apply Function.update_of_ne
        intro hij
        rw [hij] at hi
        exact hj hi
      rw [if_pos rfl, Nat.zero_add, Function.update_self, hn, hn', hsame, List.replicate_succ]
      simp
    · have hmem : k ∈ keys := (List.mem_cons.mp hk).resolve_left fun h => hjk h.symm
      rw [if_neg hjk, Function.update_of_ne hjk]
      have hlen : (f j ++ List.replicate (room j - (f j).length) blank).length = room j :=
        block_length (hfits j List.mem_cons_self)
      rw [List.set_append_right _ _ (by rw [hlen]; omega), hlen]
      rw [Nat.add_assoc, Nat.add_sub_cancel_left]
      rw [ih hrest (fun i hi => hfits i (List.mem_cons_of_mem _ hi)) hmem]

variable {key : α → Nat} {items : List α} {cursor : List Nat}

/-- The pass, from blocks that may hold something already. -/
theorem place_spec (hnodup : keys.Nodup) (hkeys : ∀ k ∈ keys, k < cursor.length)
    (hmem : ∀ a ∈ items, key a ∈ keys)
    (hroom : ∀ k ∈ keys, (f k).length + (items.filter (key · = k)).length ≤ room k)
    (hcursor : ∀ k ∈ keys, cursor.getD k 0 = blockStart room keys k + (f k).length) :
    (place key items cursor (layout room blank f keys)).2 =
        layout room blank (fun k => f k ++ items.filter (key · = k)) keys ∧
      ∀ k ∈ keys, (place key items cursor (layout room blank f keys)).1.getD k 0 =
        blockStart room keys k + ((f k).length + (items.filter (key · = k)).length) := by
  induction items generalizing f cursor with
  | nil => simpa [place] using hcursor
  | cons a items ih =>
    have ha : key a ∈ keys := hmem a List.mem_cons_self
    have hfilter : (a :: items).filter (key · = key a) = a :: items.filter (key · = key a) := by
      simp
    have hother : ∀ k, k ≠ key a → (a :: items).filter (key · = k) = items.filter (key · = k) := by
      intro k hk
      simp [hk.symm]
    have hfree : (f (key a)).length < room (key a) := by
      have := hroom _ ha
      rw [hfilter, List.length_cons] at this
      omega
    have hfits : ∀ k ∈ keys, (f k).length ≤ room k := fun k hk =>
      Nat.le_trans (Nat.le_add_right _ _) (hroom k hk)
    have hstep : ∀ k ∈ keys, Function.update f (key a) (f (key a) ++ [a]) k ++
        items.filter (key · = k) = f k ++ (a :: items).filter (key · = k) := by
      intro k _
      by_cases hk : k = key a
      · subst hk
        rw [Function.update_self, hfilter, List.append_assoc]
        rfl
      · rw [Function.update_of_ne hk, hother k hk]
    have hlen : ∀ k ∈ keys, (Function.update f (key a) (f (key a) ++ [a]) k).length +
        (items.filter (key · = k)).length =
          (f k).length + ((a :: items).filter (key · = k)).length := by
      intro k hk
      rw [← List.length_append, ← List.length_append, hstep k hk]
    rw [place, hcursor _ ha, layout_set hnodup hfits ha hfree]
    obtain ⟨hout, hcur⟩ := @ih (Function.update f (key a) (f (key a) ++ [a]))
      (cursor.set (key a) (blockStart room keys (key a) + (f (key a)).length + 1))
      (by simpa using hkeys) (fun b hb => hmem b (List.mem_cons_of_mem _ hb))
      (fun k hk => (hlen k hk).symm ▸ hroom k hk) (by
        intro k hk
        by_cases hka : k = key a
        · subst hka
          rw [Function.update_self, List.getD_eq_getElem?_getD, List.getElem?_set_self (hkeys _ hk)]
          simp [Nat.add_assoc]
        · rw [Function.update_of_ne hka, List.getD_eq_getElem?_getD,
            List.getElem?_set_ne (fun h => hka h.symm), ← List.getD_eq_getElem?_getD, hcursor k hk])
    refine ⟨?_, ?_⟩
    · rw [hout]
      exact layout_congr hstep
    · intro k hk
      rw [hcur k hk, hlen k hk]

/-- Blocks with just room enough hold the items of their keys and nothing else. -/
theorem layout_full (hroom : ∀ k ∈ keys, (f k).length = room k) :
    layout room blank f keys = keys.flatMap f := by
  induction keys with
  | nil => rfl
  | cons k keys ih =>
    rw [layout_cons, hroom k List.mem_cons_self, Nat.sub_self, List.replicate_zero,
      List.append_nil, ih fun j hj => hroom j (List.mem_cons_of_mem _ hj), List.flatMap_cons]

theorem layout_blank : layout room blank (fun _ => []) keys =
    List.replicate (keys.map room).sum blank := by
  induction keys with
  | nil => rfl
  | cons k keys ih =>
    rw [layout_cons, ih]
    simp [List.replicate_append_replicate]

end Layout

/-- Grouping by key loses and invents nothing. -/
theorem flatMap_filter_perm {keys : List Nat} (hnodup : keys.Nodup) (key : α → Nat)
    {items : List α} (hmem : ∀ a ∈ items, key a ∈ keys) :
    (keys.flatMap fun k => items.filter (key · = k)).Perm items := by
  induction items with
  | nil => simp
  | cons a items ih =>
    obtain ⟨before, after, rfl⟩ := List.append_of_mem (hmem a List.mem_cons_self)
    have hbefore : key a ∉ before := fun h =>
      (List.disjoint_of_nodup_append hnodup) h List.mem_cons_self
    have hafter : key a ∉ after := (List.nodup_cons.mp (List.Nodup.of_append_right hnodup)).1
    have hother : ∀ ks : List Nat, key a ∉ ks →
        (ks.flatMap fun k => (a :: items).filter (key · = k)) =
          ks.flatMap fun k => items.filter (key · = k) := by
      intro ks hks
      apply List.flatMap_congr
      intro k hk
      have : key a ≠ k := fun h => hks (h ▸ hk)
      simp [this]
    have hrest := ih fun b hb => hmem b (List.mem_cons_of_mem _ hb)
    simp only [List.flatMap_append, List.flatMap_cons] at hrest ⊢
    rw [hother before hbefore, hother after hafter]
    simp only [decide_true, List.filter_cons_of_pos, List.cons_append]
    exact List.perm_middle.trans (List.Perm.cons a hrest)

section Rework

variable {room : Nat → Nat} {f : Nat → List α} {keys : List Nat}

/-- Rework the items between two places. -/
def rework (g : List α → List α) (lo hi : Nat) (items : List α) : List α :=
  items.take lo ++ g ((items.take hi).drop lo) ++ items.drop hi

theorem rework_block (g : List α → List α) (before block after : List α) :
    rework g before.length (before.length + block.length) (before ++ block ++ after) =
      before ++ g block ++ after := by
  have hhi : before.length + block.length = (before ++ block).length := by simp
  have hlo : (before ++ block ++ after).take before.length = before := by
    rw [List.append_assoc, List.take_left]
  rw [rework, hlo, hhi, List.take_left, List.drop_left, List.drop_left]

/-- The block of a key lies between those before it and those after it. -/
theorem flatMap_split (hnodup : keys.Nodup) (hroom : ∀ k ∈ keys, (f k).length = room k) {k : Nat}
    (hk : k ∈ keys) : ∃ before after, before.length = blockStart room keys k ∧
      keys.flatMap f = before ++ f k ++ after ∧
      ∀ block, keys.flatMap (Function.update f k block) = before ++ block ++ after := by
  induction keys with
  | nil => cases hk
  | cons j keys ih =>
    obtain ⟨hj, hrest⟩ := List.nodup_cons.mp hnodup
    by_cases hjk : j = k
    · subst hjk
      refine ⟨[], keys.flatMap f, by rw [blockStart, if_pos rfl]; rfl, by simp, fun block => ?_⟩
      have hsame : keys.flatMap (Function.update f j block) = keys.flatMap f := by
        apply List.flatMap_congr
        intro i hi
        apply Function.update_of_ne
        rintro rfl
        exact hj hi
      rw [List.flatMap_cons, Function.update_self, hsame, List.nil_append]
    · have hmem : k ∈ keys := (List.mem_cons.mp hk).resolve_left fun h => hjk h.symm
      obtain ⟨before, after, hlen, heq, hupdate⟩ :=
        ih hrest (fun i hi => hroom i (List.mem_cons_of_mem _ hi)) hmem
      refine ⟨f j ++ before, after, ?_, ?_, fun block => ?_⟩
      · rw [blockStart, if_neg hjk, List.length_append, hroom j List.mem_cons_self, hlen]
      · rw [List.flatMap_cons, heq]
        simp only [List.append_assoc]
      · rw [List.flatMap_cons, hupdate, Function.update_of_ne hjk]
        simp only [List.append_assoc]

/-- Reworking the blocks of some keys, one after the other, in place. -/
theorem rework_blocks {g : List α → List α} (hg : ∀ items, (g items).length = items.length)
    (hnodup : keys.Nodup) {ks : List Nat} (hks : ks.Nodup) (hsub : ∀ k ∈ ks, k ∈ keys)
    (hroom : ∀ k ∈ keys, (f k).length = room k) :
    ks.foldl (fun items k =>
        rework g (blockStart room keys k) (blockStart room keys k + room k) items)
      (keys.flatMap f) = keys.flatMap fun k => if k ∈ ks then g (f k) else f k := by
  induction ks generalizing f with
  | nil => simp
  | cons k ks ih =>
    obtain ⟨hk, hrest⟩ := List.nodup_cons.mp hks
    have hmem := hsub k List.mem_cons_self
    obtain ⟨before, after, hlen, heq, hupdate⟩ := flatMap_split hnodup hroom hmem
    rw [List.foldl_cons, heq, ← hlen, ← hroom k hmem, rework_block, ← hupdate]
    rw [ih hrest (fun j hj => hsub j (List.mem_cons_of_mem _ hj))]
    · apply List.flatMap_congr
      intro j _
      by_cases hjk : j = k
      · subst hjk
        rw [if_neg hk, if_pos List.mem_cons_self, Function.update_self]
      · rw [Function.update_of_ne hjk]
        simp only [List.mem_cons, hjk, false_or]
    · intro j hj
      by_cases hjk : j = k
      · subst hjk
        rw [Function.update_self, hg, hroom j hj]
      · rw [Function.update_of_ne hjk, hroom j hj]

end Rework

end Bits
