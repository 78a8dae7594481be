import StructuredZstd.Fse.FseDecoder
import StructuredZstd.Fse.EncoderBuild

namespace Fse.Decoder

open Bits

/-- The counters a pass sets, `f` saying which probabilities it takes up. -/
def countersFrom (f : Int → Option Nat) : List Int → Nat → List Nat → List Nat
  | [], _, next => next
  | p :: ps, s, next => countersFrom f ps (s + 1) ((f p).elim next (next.set s))

def lowCounter (p : Int) : Option Nat := if p = -1 then some 1 else none

def highCounter (p : Int) : Option Nat := if p ≤ 0 then none else some p.toNat

/-- The counters of pass 1. -/
def lowCounters : List Int → Nat → List Nat → List Nat := countersFrom lowCounter

/-- The counters of pass 2. -/
def highCounters : List Int → Nat → List Nat → List Nat := countersFrom highCounter

theorem lowCounters_cons (p : Int) (ps : List Int) (s : Nat) (next : List Nat) :
    lowCounters (p :: ps) s next =
      lowCounters ps (s + 1) (if p = -1 then next.set s 1 else next) := by
  rw [lowCounters, countersFrom, lowCounter]
  split <;> rfl

theorem highCounters_cons (p : Int) (ps : List Int) (s : Nat) (next : List Nat) :
    highCounters (p :: ps) s next =
      highCounters ps (s + 1) (if p ≤ 0 then next else next.set s p.toNat) := by
  rw [highCounters, countersFrom, highCounter]
  split <;> rfl

theorem placeLowProb_eq (ps : List Int) (s n : Nat) (above next : List Nat)
    (hs : s + ps.length ≤ 256) (hn : (lowFrom ps s).length ≤ n) :
    placeLowProb ps s (List.replicate n 0 ++ above) n next =
      (List.replicate (n - (lowFrom ps s).length) 0 ++ ((lowFrom ps s).reverse ++ above),
        n - (lowFrom ps s).length, lowCounters ps s next) := by
  induction ps generalizing s n above next with
  | nil => simp [placeLowProb, lowFrom, lowCounters, countersFrom]
  | cons p ps ih =>
    simp only [List.length_cons] at hs
    by_cases hp : p = -1
    · simp only [lowFrom, placeLowProb, lowCounters_cons, if_pos hp, List.length_cons] at hn ⊢
      obtain ⟨m, rfl⟩ : ∃ m, n = m + 1 := ⟨n - 1, by omega⟩
      have hset : (List.replicate (m + 1) 0 ++ above).set (m + 1 - 1) (s % 256)
          = List.replicate m 0 ++ (s :: above) := by
        rw [Nat.add_sub_cancel, List.replicate_succ', List.append_assoc,
          List.set_append_right _ _ (by simp)]
        simp [Nat.mod_eq_of_lt (show s < 256 by omega)]
      rw [hset, Nat.add_sub_cancel, ih (s + 1) m (s :: above) _ (by omega) (by omega)]
      simp
    · simp only [lowFrom, placeLowProb, lowCounters_cons, if_neg hp] at hn ⊢
      exact ih (s + 1) n above next (by omega) hn

/-- A walk as the spread of a decode table takes it. -/
structure Spreads (w : Walk) : Prop where
  step_eq : w.step = Distribution.stride w.size
  pow : ∃ a, 1 ≤ a ∧ w.size = 2 ^ a

theorem walk_spreads (d : Distribution) : Spreads d.walk :=
  ⟨rfl, d.accLog, by have := d.log_ge; omega, rfl⟩

theorem Spreads.even {w : Walk} (hw : Spreads w) : 2 * ((w.size + 1) / 2) = w.size := by
  obtain ⟨a, ha, hsize⟩ := hw.pow
  obtain ⟨k, rfl⟩ := Nat.exists_eq_add_of_le' ha
  rw [hsize, Nat.pow_succ]
  omega

theorem and_mask_pow {n a : Nat} (hn : n = 2 ^ a) (x : Nat) : x &&& (n - 1) = x % n := by
  rw [hn, Nat.and_two_pow_sub_one_eq_mod]

section Walks

variable {w : Walk} (hw : Spreads w)

include hw

theorem and_mask_walk (x : Nat) : x &&& (w.size - 1) = x % w.size := by
  obtain ⟨a, -, hsize⟩ := hw.pow
  exact and_mask_pow hsize x

theorem nextPosition_eq (p : Nat) : nextPosition p w.size = (p + w.step) % w.size := by
  rw [nextPosition, and_mask_walk hw, hw.step_eq]
  rfl

theorem skipLowProb_eq (fuel p : Nat) : skipLowProb w.size w.limit fuel p = w.skip fuel p := by
  induction fuel generalizing p with
  | zero => rfl
  | succ fuel ih =>
    rw [skipLowProb, Walk.skip, nextPosition_eq hw]
    by_cases h : p < w.limit
    · rw [if_neg (by omega), if_pos h]
    · rw [if_pos (by omega), if_neg h, ih]

theorem spreadRun_eq {s : Nat} (hs : s < 256) (n p : Nat) (table : List Nat) :
    spreadRun w.size w.limit s n p table = w.layDown (List.replicate n s) p table := by
  induction n generalizing p table with
  | zero => rfl
  | succ n ih =>
    rw [spreadRun, List.replicate_succ, Walk.layDown, ih, skipLowProb_eq hw, nextPosition_eq hw,
      Nat.mod_eq_of_lt hs]

theorem spreadAround_eq (ps : List Int) (s p : Nat) (table next : List Nat)
    (hs : s + ps.length ≤ 256) :
    spreadAround w.size w.limit ps s p table next =
      ((w.layDown (itemsFrom ps s) p table).2, highCounters ps s next) := by
  induction ps generalizing s p table next with
  | nil => rfl
  | cons q ps ih =>
    simp only [List.length_cons] at hs
    by_cases hq : q ≤ 0
    · simp only [spreadAround, itemsFrom, highCounters_cons, if_pos hq]
      exact ih (s + 1) p table next (by omega)
    · simp only [spreadAround, itemsFrom, highCounters_cons, if_neg hq]
      rw [Walk.layDown_append, spreadRun_eq hw (by omega), ih _ _ _ _ (by omega)]

end Walks

theorem copyEight_length {buf : List Nat} {pos : Nat} (byte : Nat) (h : pos + 8 ≤ buf.length) :
    (copyEight buf pos byte).length = buf.length := by
  simp [copyEight]
  omega

/-- A run of blocks covers `8 * k` bytes from `pos` and leaves what lies before. -/
theorem layRun_spec (byte k : Nat) (buf : List Nat) (pos : Nat)
    (h : pos + 8 * k ≤ buf.length) :
    (layRun byte k buf pos).length = buf.length ∧
      (layRun byte k buf pos).take (pos + 8 * k) = buf.take pos ++ List.replicate (8 * k) byte := by
  induction k generalizing buf pos with
  | zero => simp [layRun]
  | succ k ih =>
    have hl := copyEight_length byte (show pos + 8 ≤ buf.length by omega)
    obtain ⟨h1, h2⟩ := ih (copyEight buf pos byte) (pos + 8) (by omega)
    refine ⟨by rw [layRun, h1, hl], ?_⟩
    have he : pos + 8 * (k + 1) = pos + 8 + 8 * k := by omega
    have ht : (copyEight buf pos byte).take (pos + 8) = buf.take pos ++ List.replicate 8 byte := by
      rw [copyEight, List.take_left']
      simp
      omega
    rw [layRun, he, h2, ht, List.append_assoc, List.replicate_append_replicate]
    congr 2
    omega

/-- The in-order stage lists every symbol as often as it has states. -/
theorem layInOrder_eq (ps : List Int) (s : Nat) (buf : List Nat) (pos : Nat) (next : List Nat)
    (hs : s + ps.length ≤ 256) (hb : pos + (itemsFrom ps s).length + 8 ≤ buf.length) :
    ((layInOrder ps s buf pos next).1).take (pos + (itemsFrom ps s).length) =
        buf.take pos ++ itemsFrom ps s ∧
      (layInOrder ps s buf pos next).2 = highCounters ps s next := by
  induction ps generalizing s buf pos next with
  | nil => simp [layInOrder, itemsFrom, highCounters, countersFrom]
  | cons p ps ih =>
    simp only [List.length_cons] at hs
    by_cases hp : p ≤ 0
    · simp only [layInOrder, itemsFrom, highCounters_cons, if_pos hp] at hb ⊢
      exact ih (s + 1) buf pos next (by omega) hb
    · simp only [layInOrder, itemsFrom, highCounters_cons, if_neg hp, List.length_append,
        List.length_replicate] at hb ⊢
      obtain ⟨h1, h2⟩ := layRun_spec (s % 256) ((p.toNat + 7) / 8) buf pos (by omega)
      obtain ⟨h3, h4⟩ := ih (s + 1) (layRun (s % 256) ((p.toNat + 7) / 8) buf pos)
        (pos + p.toNat) (next.set s p.toNat) (by omega) (by omega)
      refine ⟨?_, h4⟩
      -- the run's last block overshoots; the next symbol starts right after the run itself
      have ht : (layRun (s % 256) ((p.toNat + 7) / 8) buf pos).take (pos + p.toNat) =
          buf.take pos ++ List.replicate p.toNat s := by
        have := congrArg (List.take (pos + p.toNat)) h2
        rw [List.take_take, Nat.min_eq_left (by omega)] at this
        rw [this, List.take_append, List.take_of_length_le (by simp), List.length_take,
          Nat.min_eq_left (by omega), List.take_replicate, Nat.add_sub_cancel_left,
          Nat.min_eq_left (by omega), Nat.mod_eq_of_lt (by omega)]
      rw [← Nat.add_assoc, h3, ht, List.append_assoc]

section Walks

variable {w : Walk} (hw : Spreads w)

include hw

theorem distributePairs_eq (inOrder : List Nat) (k s : Nat) (table : List Nat) :
    distributePairs w.size inOrder k s (w.place s) table =
      Walk.setAll table
        ((List.range' s (2 * k)).map (fun j => (w.place j, inOrder.getD j 0))) := by
  induction k generalizing s table with
  | zero => rfl
  | succ k ih =>
    have h1 : (w.place s + Distribution.stride w.size) % w.size = w.place (s + 1) := by
      rw [← hw.step_eq]
      exact w.place_succ s
    have h2 : (w.place s + 2 * Distribution.stride w.size) % w.size = w.place (s + 2) := by
      rw [Nat.two_mul, ← Nat.add_assoc, ← Nat.mod_add_mod, h1, ← hw.step_eq]
      exact w.place_succ (s + 1)
    have he : 2 * (k + 1) = 2 * k + 1 + 1 := by omega
    have hd : distributePairs w.size inOrder (k + 1) s (w.place s) table =
        distributePairs w.size inOrder k (s + 2) (w.place (s + 2))
          ((table.set (w.place s) (inOrder.getD s 0)).set (w.place (s + 1))
            (inOrder.getD (s + 1) 0)) := by
      rw [distributePairs]
      simp only [and_mask_walk hw]
      rw [← h1, ← h2]
      rfl
    rw [hd, ih, he, List.range'_succ, List.range'_succ]
    rfl

/-- With every place a stop, dealing the in-order symbols out in pairs lays them along the walk. -/
theorem distributePairs_slots (h0 : w.limit = w.size) {inOrder items : List Nat}
    (hitems : items.length = w.size) (hin : inOrder.take w.size = items) (table : List Nat) :
    distributePairs w.size inOrder ((w.size + 1) / 2) 0 0 table =
      Walk.setAll table ((w.stops 0 w.size).zip items) := by
  have hd := distributePairs_eq hw inOrder ((w.size + 1) / 2) 0 table
  rw [Walk.place_zero, hw.even] at hd
  have hstops : w.stops 0 w.size = (List.range' 0 w.size).map w.place := by
    rw [Walk.stops, List.filter_eq_self]
    intro p hm
    obtain ⟨k, _, rfl⟩ := List.mem_map.mp hm
    have := w.place_lt k
    simp [h0, this]
  rw [hd, hstops]
  congr 1
  apply List.ext_getElem
  · simp [hitems]
  · intro i h1 h2
    simp only [List.length_map, List.length_range'] at h1
    have hg : inOrder[i]? = items[i]? := by
      rw [← hin, List.getElem?_take_of_lt h1]
    simp [hg, List.getElem?_eq_getElem (show i < items.length by omega)]

/-- The fast spread and the general one lay the symbols along the same walk. -/
theorem spreadSymbols_walk {probs : List Int} (hlen : probs.length ≤ 256)
    (hitems : (itemsFrom probs 0).length = w.limit)
    (hsum : w.limit + (lowFrom probs 0).length = w.size) (hsize : w.size ≤ 512) :
    spreadSymbols probs w.size =
      (Walk.setAll (List.replicate w.limit 0 ++ (lowFrom probs 0).reverse)
          ((w.stops 0 w.size).zip (itemsFrom probs 0)),
        highCounters probs 0 (lowCounters probs 0 (List.replicate 256 0))) := by
  have hp := placeLowProb_eq probs 0 w.size [] (List.replicate 256 0) (by omega) (by omega)
  have hlim : w.size - (lowFrom probs 0).length = w.limit := by omega
  rw [List.append_nil, List.append_nil, hlim] at hp
  unfold spreadSymbols
  simp only [hp]
  generalize lowCounters probs 0 (List.replicate 256 0) = next
  split
  · rename_i h0
    have hbuf : 0 + (itemsFrom probs 0).length + 8 ≤ (List.replicate fseFastSpreadBuf 0).length := by
      rw [List.length_replicate, fseFastSpreadBuf]
      omega
    obtain ⟨hin, hcnt⟩ := layInOrder_eq probs 0 _ 0 next (by omega) hbuf
    rw [Nat.zero_add, List.take_zero, List.nil_append, hitems, h0] at hin
    rw [hcnt]
    exact congrArg (·, _) (distributePairs_slots hw h0 (hitems.trans h0) hin _)
  · rw [spreadAround_eq hw _ _ _ _ _ (by omega), w.layDown_round hitems]

end Walks

theorem spreadSymbols_eq (d : Distribution) :
    spreadSymbols d.probs d.size =
      (d.slots, highCounters d.probs 0 (lowCounters d.probs 0 (List.replicate 256 0))) :=
  spreadSymbols_walk (walk_spreads d) d.length_le d.items_length d.limit_add_low d.size_le

@[simp] theorem countersFrom_length (f : Int → Option Nat) (ps : List Int) (s : Nat)
    (next : List Nat) : (countersFrom f ps s next).length = next.length := by
  induction ps generalizing s next with
  | nil => rfl
  | cons p ps ih =>
    rw [countersFrom, ih]
    cases f p <;> simp

/-- A pass leaves the counters it does not take up. -/
theorem countersFrom_getElem? (f : Int → Option Nat) (ps : List Int) (s k : Nat)
    (next : List Nat) (h : s + ps.length ≤ next.length) :
    (countersFrom f ps s next)[s + k]? = (ps[k]?.bind f).or next[s + k]? := by
  have hbelow : ∀ (ps : List Int) (s a : Nat) (next : List Nat), a < s →
      (countersFrom f ps s next)[a]? = next[a]? := by
    intro ps
    induction ps with
    | nil => intros; rfl
    | cons p ps ih =>
      intro s a next ha
      rw [countersFrom, ih _ _ _ (by omega)]
      cases f p with
      | none => rfl
      | some v => exact List.getElem?_set_ne (by omega)
  induction ps generalizing s k next with
  | nil => simp [countersFrom]
  | cons p ps ih =>
    simp only [List.length_cons] at h
    have hl : ((f p).elim next (next.set s)).length = next.length := by cases f p <;> simp
    rw [countersFrom]
    rcases k with _ | k
    · rw [Nat.add_zero, hbelow _ _ _ _ (by omega), List.getElem?_cons_zero, Option.bind_some]
      cases f p with
      | none => rfl
      | some v => exact List.getElem?_set_self (by omega)
    · have he : s + (k + 1) = s + 1 + k := by omega
      rw [he, ih _ _ _ (by omega), List.getElem?_cons_succ]
      congr 1
      cases f p with
      | none => rfl
      | some v => exact List.getElem?_set_ne (by omega)

/-- A present symbol's counter starts at the number of its states. -/
theorem counters_getD {probs : List Int} (hl : probs.length ≤ 256) {s : Nat}
    (h : 0 < weight (probs.getD s 0)) {next : List Nat} (hn : next.length = 256) :
    (highCounters probs 0 (lowCounters probs 0 next)).getD s 0 = weight (probs.getD s 0) := by
  have e1 := countersFrom_getElem? highCounter probs 0 s (lowCounters probs 0 next)
    (by rw [lowCounters, countersFrom_length]; omega)
  have e2 := countersFrom_getElem? lowCounter probs 0 s next (by omega)
  rw [Nat.zero_add] at e1 e2
  rw [List.getD_eq_getElem?_getD, highCounters, e1, lowCounters, e2]
  rw [List.getD_eq_getElem?_getD] at h ⊢
  cases hp : probs[s]? with
  | none =>
    rw [hp] at h
    simp [weight] at h
  | some p =>
    rw [hp] at h
    simp only [Option.bind_some, Option.getD_some, highCounter, lowCounter, weight] at h ⊢
    by_cases hneg : p = -1
    · simp [hneg]
    · rw [if_neg hneg] at h ⊢
      simp [hneg, show ¬ p ≤ 0 by omega]

section Entries

variable {E : Type} [FseEntry E]

/-- The entry of a state whose symbol's counter stands at `n`. -/
def rawEntry (accLog symbol n : Nat) : E :=
  FseEntry.fromRaw ((n <<< (accLog - Nat.log2 n) - 1 <<< accLog) % 2 ^ 16) symbol
    (accLog - Nat.log2 n)

/-- The width of the entry: no counter inside the doubled table fails the invariant gate. -/
theorem width_eq {accLog n : Nat} (ha : accLog ≤ 16) (h1 : 1 ≤ n) (h2 : n < 2 ^ (accLog + 1)) :
    (2 ^ 32 + (accLog + 1) - highestBitSet n) % 2 ^ 32 % 256 = accLog - Nat.log2 n := by
  have hlog : Nat.log2 n < accLog + 1 := (Nat.log2_lt (by omega)).mpr h2
  rw [highestBitSet, if_neg (by omega)]
  omega

/-- The build step gives each state the count its symbol has reached. -/
theorem buildEntries_spec (probs : List Int) {accLog : Nat} (seqMeta : SeqMeta) (ha : accLog ≤ 16)
    (spread next : List Nat)
    (h : ∀ u s, spread[u]? = some s → s < next.length ∧ 1 ≤ next.getD s 0 + rank spread u s ∧
      next.getD s 0 + rank spread u s < 2 ^ (accLog + 1)) :
    ∃ entries : List E, buildEntries probs accLog seqMeta spread next = .ok entries ∧
      entries.length = spread.length ∧
      ∀ u s, spread[u]? = some s → entries[u]? =
        some (enrich (rawEntry accLog s (next.getD s 0 + rank spread u s)) s seqMeta) := by
  induction spread generalizing next with
  | nil => exact ⟨[], rfl, rfl, by simp⟩
  | cons a spread ih =>
    obtain ⟨ha1, ha2, ha3⟩ := h 0 a (by simp)
    have hr0 : rank (a :: spread) 0 a = 0 := by simp [rank]
    rw [hr0, Nat.add_zero] at ha2 ha3
    -- bumping the head's counter accounts for the head in every later rank
    have hshift : ∀ u s, (next.set a (next.getD a 0 + 1)).getD s 0 + rank spread u s =
        next.getD s 0 + rank (a :: spread) (u + 1) s := by
      intro u s
      by_cases he : a = s
      · subst he
        simp [rank, List.getD_eq_getElem?_getD, ha1]
        omega
      · simp [rank, List.getD_eq_getElem?_getD, he]
    obtain ⟨entries, hok, hlen, hent⟩ := ih (next.set a (next.getD a 0 + 1)) (by
      intro u s hu
      rw [hshift, List.length_set]
      exact h (u + 1) s (by simpa using hu))
    have hw := width_eq ha ha2 ha3
    refine ⟨enrich (rawEntry accLog a (next.getD a 0)) a seqMeta :: entries, ?_, by simp [hlen], ?_⟩
    · rw [buildEntries]
      simp only [hw]
      rw [if_neg (by omega), hok]
      rfl
    · intro u s hu
      rcases u with _ | u
      · simp only [List.getElem?_cons_zero, Option.some.injEq] at hu
        subst hu
        rw [hr0, Nat.add_zero, List.getElem?_cons_zero]
      · rw [List.getElem?_cons_succ] at hu ⊢
        rw [hent u s hu, hshift]

end Entries

section Table

variable {E : Type} [FseEntry E] {cap : Nat}

/-- What a finished decode table holds for its distribution. -/
structure TableOf (d : Distribution) (seqMeta : SeqMeta) (t : FSETableImpl E cap) : Prop where
  log_eq : t.accuracyLog = d.accLog
  length_eq : t.decode.length = d.size
  entry : ∀ u s, d.slots[u]? = some s → t.decode[u]? =
    some (enrich (rawEntry d.accLog s (weight (d.probs.getD s 0) + rank d.slots u s)) s seqMeta)

/-- Building from the stored probabilities of a normalized distribution succeeds. -/
theorem buildDecodingTableMeta_spec (d : Distribution) (seqMeta : SeqMeta)
    (t : FSETableImpl E cap) (hp : t.symbolProbabilities = d.probs)
    (hl : t.accuracyLog = d.accLog) (hs : d.probs.length ≤ t.maxSymbol + 1)
    (hc : d.size ≤ cap) :
    (t.buildDecodingTableMeta seqMeta).1 = .ok () ∧
      TableOf d seqMeta (t.buildDecodingTableMeta seqMeta).2 := by
  have hsize : 1 <<< d.accLog = d.size := by rw [Nat.one_shiftLeft, Distribution.size]
  have hpos : ∀ u s : Nat, d.slots[u]? = some s → 0 < weight (d.probs.getD s 0) := by
    intro u s hu
    have := d.rank_lt_weight hu
    omega
  obtain ⟨next, hn, hnext⟩ : ∃ next, next.length = 256 ∧ next = List.replicate 256 0 :=
    ⟨_, List.length_replicate, rfl⟩
  have hspread := spreadSymbols_eq d
  rw [← hnext] at hspread
  obtain ⟨entries, hok, hlen, hent⟩ := buildEntries_spec (E := E) d.probs seqMeta
    (show d.accLog ≤ 16 by have := d.log_le; omega) d.slots
    (highCounters d.probs 0 (lowCounters d.probs 0 next)) (by
      intro u s hu
      have hr := d.rank_lt_weight hu
      have hf := d.first_add_le (d.lt_of_slot hu)
      have hlt := d.lt_of_slot hu
      have hle := d.length_le
      rw [counters_getD d.length_le (hpos u s hu) hn, Nat.pow_succ]
      unfold Distribution.size at hf
      refine ⟨?_, by omega, by omega⟩
      rw [highCounters, countersFrom_length, lowCounters, countersFrom_length, hn]
      omega)
  have hb : t.buildDecodingTableMeta seqMeta =
      (.ok (), { t with decode := entries, symbolSpreadBuffer := d.slots }) := by
    unfold FSETableImpl.buildDecodingTableMeta
    simp only [hp, hl, hsize, hspread, hok]
    rw [if_neg (by omega), if_neg (by omega)]
  rw [hb]
  refine ⟨rfl, hl, by simpa using hlen, ?_⟩
  intro u s hu
  rw [hent u s hu, counters_getD d.length_le (hpos u s hu) hn]

/-- Building from a normalized distribution succeeds on every table large enough for it. -/
theorem buildFromProbabilities_spec (d : Distribution) (t : FSETableImpl E cap)
    (hs : d.probs.length ≤ t.maxSymbol + 1) (hc : d.size ≤ cap) :
    (t.buildFromProbabilities d.accLog d.probs).1 = .ok () ∧
      TableOf d .none (t.buildFromProbabilities d.accLog d.probs).2 := by
  have hlo := d.log_ge
  have hhi := d.log_le
  have hsize : 1 <<< d.accLog = d.size := by rw [Nat.one_shiftLeft, Distribution.size]
  have hfind : d.probs.find? (fun p => p < -1 ∨ (d.size : Int) < p) = none := by
    rw [List.find?_eq_none]
    intro p hm
    have h1 := d.range p hm
    obtain ⟨k, hk⟩ := List.getElem?_of_mem hm
    have h2 := (List.getElem?_eq_some_iff.mp hk).1
    have h3 := d.first_add_le h2
    rw [List.getD_eq_getElem?_getD, hk, Option.getD_some] at h3
    unfold weight at h3
    split_ifs at h3 <;> simp <;> omega
  have hsum : (d.probs.map (fun p => if p = -1 then 1 else p.toNat)).sum = d.size := d.sum_eq
  have hb : t.buildFromProbabilities d.accLog d.probs =
      { t with symbolProbabilities := d.probs,
               accuracyLog := d.accLog }.buildDecodingTableMeta .none := by
    unfold FSETableImpl.buildFromProbabilities
    rw [if_neg (by omega), if_neg (by unfold entryMaxAccuracyLog; omega), if_neg (by omega)]
    simp only [hfind, hsum, hsize, ne_eq, not_true_eq_false, if_false]
  rw [hb]
  exact buildDecodingTableMeta_spec d .none _ rfl rfl hs hc

end Table

end Fse.Decoder
