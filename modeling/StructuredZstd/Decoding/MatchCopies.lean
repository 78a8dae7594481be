import StructuredZstd.Decoding.BlockAppends

namespace Decoding

open BufferBackend

/-- What a copy of a match relies on: a reservation is granted up to the ceiling, and what is then
written goes behind the content. A storage that holds nothing may still be given too little room;
it then makes more for the first write. -/
class CopyBackend (B : Type) [BufferBackend B] where
  Sound : B → Prop
  Fits : B → Nat → Prop
  Room : B → Nat → Prop
  ceiling : B → Nat
  room_fits {b : B} {m n : Nat} : Sound b → m ≤ n → Room b n → Fits b m
  fits_of_content {b : B} (n : Nat) : Sound b → bytes b ≠ [] → Fits b n
  granted {b : B} {n : Nat} : Sound b → 0 < n →
    ((∃ b', tryReserve b n = .ok b') ↔ (bytes b).length + n ≤ ceiling b)
  tryReserve_spec {b b' : B} {n : Nat} : Sound b → 0 < n → tryReserve b n = .ok b' →
    Sound b' ∧ bytes b' = bytes b ∧ ceiling b' = ceiling b ∧ (∀ m, Fits b' m) ∧
      (Fits b n → Room b' n)
  extend_spec {b : B} {data : List UInt8} : Sound b → Fits b data.length →
    Sound (extend b data) ∧ bytes (extend b data) = bytes b ++ data ∧
      ceiling (extend b data) = ceiling b ∧
      ∀ n, Room b (data.length + n) → Room (extend b data) n
  within_spec {b : B} {start len n : Nat} : Sound b → start + len ≤ (bytes b).length →
    Room b (len + n) →
    Sound (extendFromWithinUnchecked b start len) ∧
      bytes (extendFromWithinUnchecked b start len) = bytes b ++ ((bytes b).drop start).take len ∧
      Room (extendFromWithinUnchecked b start len) n

namespace DecodeBuffer

open Lz CopyBackend

variable {B : Type} [BufferBackend B] [CopyBackend B]

/-- The storage with `data` behind its content. -/
structure Took (b b' : B) (data : List UInt8) : Prop where
  sound : Sound b'
  bytes_eq : bytes b' = bytes b ++ data

variable {b : B} {base : List UInt8} {startIdx fuel left phase offset : Nat}

/-- The doubling copy says the run from `startIdx` over and over: every round but the last copies
whole periods. -/
theorem repeatInChunks_took (hb : Sound b) (hroom : Room b left) (hbase : base ≠ []) {rounds : Nat}
    (hrounds : 0 < rounds)
    (hrun : (bytes b).drop startIdx = cycleFrom base 0 (rounds * base.length))
    (hfuel : left ≤ fuel) :
    Took b (repeatInChunks startIdx fuel left b) (cycleFrom base 0 left) := by
  have hpos : 0 < base.length := List.length_pos_iff.mpr hbase
  induction fuel generalizing b left rounds with
  | zero =>
    rw [Nat.le_zero.mp hfuel]
    exact ⟨hb, (List.append_nil _).symm⟩
  | succ fuel ih =>
    simp only [repeatInChunks]
    split
    · rename_i hleft
      have hlen : (bytes b).length - startIdx = rounds * base.length := by
        rw [← List.length_drop, hrun, length_cycleFrom hbase]
      have hlong : 0 < rounds * base.length := Nat.mul_pos hrounds hpos
      have hin : startIdx + min ((bytes b).length - startIdx) left ≤ (bytes b).length := by omega
      obtain ⟨hb', hbytes, hroom'⟩ := within_spec hb hin (by
        rwa [Nat.add_sub_cancel' (Nat.min_le_right _ _)])
      have htaken : ((bytes b).drop startIdx).take (min ((bytes b).length - startIdx) left) =
          cycleFrom base 0 (min ((bytes b).length - startIdx) left) := by
        rw [hrun, take_cycleFrom]
        omega
      rw [htaken] at hbytes
      rcases Nat.le_total (rounds * base.length) left with hwhole | hlast
      · have hmin : min ((bytes b).length - startIdx) left = rounds * base.length := by omega
        rw [hmin] at hbytes hb' hroom' ⊢
        have hrun' : (bytes (extendFromWithinUnchecked b startIdx (rounds * base.length))).drop
            startIdx = cycleFrom base 0 (2 * rounds * base.length) := by
          rw [hbytes, List.drop_append_of_le_length (by omega), hrun, Nat.mul_assoc, Nat.two_mul,
            cycleFrom_add]
          congr 1
          exact cycleFrom_congr (by simp) _
        obtain ⟨hb'', hbytes'⟩ := ih hb' hroom' (Nat.mul_pos (by decide) hrounds) hrun' (by omega)
        refine ⟨hb'', ?_⟩
        rw [hbytes', hbytes, List.append_assoc]
        congr 1
        conv_rhs => rw [← Nat.add_sub_cancel' hwhole]
        rw [cycleFrom_add]
        congr 1
        exact cycleFrom_congr (by simp) _
      · have hmin : min ((bytes b).length - startIdx) left = left := by omega
        rw [hmin] at hbytes hb' hroom' ⊢
        rw [Nat.sub_self]
        have hdone : repeatInChunks startIdx fuel 0
            (extendFromWithinUnchecked b startIdx left) =
              extendFromWithinUnchecked b startIdx left := by
          cases fuel with
          | zero => rfl
          | succ fuel => rfl
        rw [hdone]
        exact ⟨hb', hbytes⟩
    · rename_i hleft
      rw [Nat.eq_zero_of_not_pos hleft]
      exact ⟨hb, (List.append_nil _).symm⟩

/-- Writes of a pattern of the period and, last, of a part of one. -/
theorem extend_took (phase : Nat) (hb : Sound b) (hroom : Room b left) (hbase : base ≠ []) {n : Nat}
    (hn : n ≤ left) :
    Took b (extend b (cycleFrom base phase n)) (cycleFrom base phase n) ∧
      Room (extend b (cycleFrom base phase n)) (left - n) := by
  have hwhole : Room b ((cycleFrom base phase n).length + (left - n)) := by
    rwa [length_cycleFrom hbase, Nat.add_sub_cancel' hn]
  obtain ⟨hb', hbytes, -, hroom'⟩ := extend_spec hb (room_fits hb (Nat.le_add_right _ _) hwhole)
  exact ⟨⟨hb', hbytes⟩, hroom' _ hwhole⟩

/-- Patterns of the same length from a phase on, one after the other. -/
theorem Took.cycle {b' b'' : B} {n : Nat} (h : Took b b' (cycleFrom base phase n))
    (h' : Took b' b'' (cycleFrom base (phase + n) (left - n))) (hn : n ≤ left) :
    Took b b'' (cycleFrom base phase left) := by
  refine ⟨h'.sound, ?_⟩
  rw [h'.bytes_eq, h.bytes_eq, List.append_assoc, ← cycleFrom_add, Nat.add_sub_cancel' hn]

/-- A period that divides the chunk. -/
theorem extendByChunk_took (hb : Sound b) (hroom : Room b left) (hbase : base ≠ []) {n : Nat}
    (hn : 0 < n) (hdvd : base.length ∣ n) (hfuel : left < fuel) :
    Took b (extendByChunk (cycleFrom base 0 n) fuel left b) (cycleFrom base 0 left) := by
  induction fuel generalizing b left with
  | zero => cases hfuel
  | succ fuel ih =>
    simp only [extendByChunk, length_cycleFrom hbase]
    split
    · rename_i hwhole
      obtain ⟨htook, hroom'⟩ := extend_took 0 hb hroom hbase hwhole
      apply htook.cycle _ hwhole
      have hnext : cycleFrom base (0 + n) (left - n) = cycleFrom base 0 (left - n) := by
        apply cycleFrom_congr
        rw [Nat.zero_add, Nat.zero_mod]
        exact Nat.mod_eq_zero_of_dvd hdvd
      rw [hnext]
      exact ih htook.sound hroom' (by omega)
    · rename_i hshort
      split
      · rw [take_cycleFrom _ _ _ (Nat.le_of_not_le hshort)]
        exact (extend_took 0 hb hroom hbase (Nat.le_refl _)).1
      · rename_i hnone
        rw [Nat.eq_zero_of_not_pos hnone]
        exact ⟨hb, (List.append_nil _).symm⟩

/-- Eight bytes from each phase. -/
theorem extendByPhase_took (hb : Sound b) (hroom : Room b left) (hbase : base ≠ [])
    (hoffset : base.length = offset) (hfuel : left < fuel) :
    Took b (extendByPhase base offset fuel phase left b) (cycleFrom base phase left) := by
  have hpattern : ∀ phase, ((List.range 8).map fun i => base.getD ((phase + i) % offset) 0) =
      cycleFrom base phase 8 := by
    intro phase
    rw [← hoffset]
    exact map_range_eq_cycleFrom hbase 0 phase 8
  induction fuel generalizing b left phase with
  | zero => cases hfuel
  | succ fuel ih =>
    simp only [extendByPhase, hpattern]
    split
    · rename_i hwhole
      obtain ⟨htook, hroom'⟩ := extend_took phase hb hroom hbase hwhole
      apply htook.cycle _ hwhole
      have hnext : cycleFrom base (phase + 8) (left - 8) =
          cycleFrom base ((phase + 8 % offset) % offset) (left - 8) := by
        apply cycleFrom_congr
        rw [hoffset, Nat.mod_mod, Nat.add_mod_mod]
      rw [hnext]
      exact ih htook.sound hroom' (by omega)
    · rename_i hshort
      split
      · rw [take_cycleFrom _ _ _ (Nat.le_of_not_le hshort)]
        exact (extend_took phase hb hroom hbase (Nat.le_refl _)).1
      · rename_i hnone
        rw [Nat.eq_zero_of_not_pos hnone]
        exact ⟨hb, (List.append_nil _).symm⟩

/-- Whichever way it takes, an overlapping match says its period over and over. -/
theorem repeatOverlapping_took {matchLength : Nat} (hb : Sound b) (hroom : Room b matchLength)
    (hpos : 0 < offset) (hle : offset ≤ (bytes b).length) :
    Took b (repeatOverlapping b offset matchLength ((bytes b).length - offset))
      (cycleFrom ((bytes b).drop ((bytes b).length - offset)) 0 matchLength) := by
  have hlen : ((bytes b).drop ((bytes b).length - offset)).length = offset := by
    rw [List.length_drop]
    omega
  have hbase : (bytes b).drop ((bytes b).length - offset) ≠ [] := List.length_pos_iff.mp (by omega)
  have htake : ((bytes b).drop ((bytes b).length - offset)).take offset =
      (bytes b).drop ((bytes b).length - offset) := List.take_of_length_le hlen.le
  unfold repeatOverlapping
  split
  · apply repeatInChunks_took hb hroom hbase Nat.one_pos _ (Nat.le_refl _)
    rw [Nat.one_mul, cycleFrom_zero_length]
  · simp only [repeatShortOffset, htake]
    split
    · rename_i hdvd
      have hchunk : ((List.range 16).map fun i =>
          ((bytes b).drop ((bytes b).length - offset)).getD (i % offset) 0) =
            cycleFrom ((bytes b).drop ((bytes b).length - offset)) 0 16 := by
        rw [← map_range_eq_cycleFrom hbase 0 0 16, hlen]
        simp only [Nat.zero_add]
      rw [hchunk]
      apply extendByChunk_took hb hroom hbase (by decide) _ (Nat.lt_succ_self _)
      rw [hlen]
      rcases hdvd with rfl | rfl | rfl
      · decide
      · decide
      · decide
    · exact extendByPhase_took hb hroom hbase hlen (Nat.lt_succ_self _)

variable {d : DecodeBuffer B} {dictContent : List UInt8} {matchLength : Nat}

/-- A match that lies in the buffer fails only where its room is refused. -/
theorem repeatResident_spec (hb : Sound d.buffer) (hpos : 0 < offset) (hle : offset ≤ d.len)
    (hmatch : 0 < matchLength) :
    if d.len + matchLength ≤ ceiling d.buffer then
      ∃ b', d.repeatResident offset matchLength = (.ok (), { d with
          buffer := b'
          totalOutputCounter := d.totalOutputCounter + matchLength }) ∧
        Sound b' ∧ bytes b' = copyMatch offset matchLength d.content
    else ∃ o, d.repeatResident offset matchLength = (.error (.outputBufferOverflow o), d) := by
  have hgranted := granted hb hmatch
  split
  · rename_i hroomy
    obtain ⟨b₁, hres⟩ := hgranted.mpr hroomy
    obtain ⟨hb₁, hbytes, -, -, hmade⟩ := tryReserve_spec hb hmatch hres
    have hroom := hmade (fits_of_content _ hb fun hempty => by
      rw [len, content, hempty, List.length_nil] at hle
      omega)
    have hlen : (bytes b₁).length = d.len := congrArg List.length hbytes
    have hcopy : copyMatch offset matchLength d.content =
        bytes b₁ ++ cycleFrom ((bytes b₁).drop ((bytes b₁).length - offset)) 0 matchLength := by
      rw [hbytes]
      exact copyMatch_eq hpos hle
    simp only [repeatResident, hres]
    split
    · rw [← hlen]
      have htook := repeatOverlapping_took hb₁ hroom hpos (by rw [hlen]; exact hle)
      exact ⟨_, rfl, htook.sound, htook.bytes_eq.trans hcopy.symm⟩
    · rename_i hshort
      obtain ⟨hb', hbytes', -⟩ := @within_spec _ _ _ b₁ (d.len - offset) matchLength 0 hb₁
        (by omega) hroom
      refine ⟨_, rfl, hb', hbytes'.trans ?_⟩
      rw [hcopy, cycleFrom_zero_of_le (by rw [List.length_drop]; omega), hlen]
  · rename_i hfull
    cases hres : BufferBackend.tryReserve d.buffer matchLength with
    | ok b' => exact absurd (hgranted.mp ⟨b', hres⟩) hfull
    | error o =>
      refine ⟨o, ?_⟩
      simp only [repeatResident, hres]

/-- The part of a match in the dictionary, then the rest of it out of the buffer. -/
theorem copyMatch_dict {content : List UInt8} {share : Nat} (hoffset : content.length + share = offset)
    (hpos : 0 < share) (hshare : share ≤ dictContent.length) :
    copyMatch offset matchLength (dictContent ++ content) =
      dictContent ++
        if share < matchLength then
          copyMatch offset (matchLength - share)
            (content ++ dictContent.drop (dictContent.length - share))
        else content ++ (dictContent.drop (dictContent.length - share)).take matchLength := by
  have hdrop : (dictContent ++ content).drop ((dictContent ++ content).length - offset) =
      dictContent.drop (dictContent.length - share) ++ content := by
    rw [List.length_append, List.drop_append_of_le_length (by omega)]
    congr 2
    omega
  have hlen : (dictContent.drop (dictContent.length - share)).length = share := by
    rw [List.length_drop]
    omega
  have hfirst : ∀ n, n ≤ share → copyMatch offset n (dictContent ++ content) =
      dictContent ++ (content ++ (dictContent.drop (dictContent.length - share)).take n) := by
    intro n hn
    rw [copyMatch_of_le (by omega) (by rw [List.length_append]; omega) (by omega), hdrop,
      List.take_append_of_le_length (by omega), List.append_assoc]
  split
  · rename_i hspans
    conv_lhs => rw [← Nat.add_sub_cancel' hspans.le]
    rw [copyMatch_add, hfirst _ (Nat.le_refl _), List.take_of_length_le hlen.le]
    apply copyMatch_append (by omega)
    rw [List.length_append, hlen]
    omega
  · rename_i hinside
    exact hfirst _ (Nat.le_of_not_lt hinside)

/-- Where a match may start: in the buffer, or in the dictionary while the window reaches it. -/
def Reaches (d : DecodeBuffer B) (dictContent : List UInt8) (offset : Nat) : Prop :=
  offset ≤ d.len ∨
    max d.totalOutputCounter d.len ≤ d.windowSize ∧ offset ≤ dictContent.length + d.len

/-- The buffer after a match, and the bytes before it and in it. -/
structure Matched (d : DecodeBuffer B) (dictContent : List UInt8) (offset matchLength : Nat)
    (d' : DecodeBuffer B) : Prop where
  sound : Sound d'.buffer
  copied : dictContent ++ d'.content = copyMatch offset matchLength (dictContent ++ d.content)
  rest : d' = { d with
    buffer := d'.buffer
    totalOutputCounter := d.totalOutputCounter + matchLength }

/-- A match that starts in the dictionary. -/
theorem repeatFromDict_spec (hb : Sound d.buffer) (hlow : d.len < offset)
    (hmatch : 0 < matchLength) :
    (max d.totalOutputCounter d.len ≤ d.windowSize → offset ≤ dictContent.length + d.len →
        d.len + matchLength ≤ ceiling d.buffer →
      ∃ d', d.repeatFromDict dictContent offset matchLength = (.ok (), d') ∧
        d.Matched dictContent offset matchLength d') ∧
    (¬(max d.totalOutputCounter d.len ≤ d.windowSize ∧ offset ≤ dictContent.length + d.len ∧
        d.len + matchLength ≤ ceiling d.buffer) →
      ∃ e, d.repeatFromDict dictContent offset matchLength = (.error e, d)) := by
  have hgranted := granted hb hmatch
  constructor
  · intro hwindow hreach hroomy
    obtain ⟨share, hoffset⟩ := Nat.exists_eq_add_of_le hlow.le
    have hshare : offset - d.len = share := by omega
    have hcopy := @copyMatch_dict offset dictContent matchLength d.content share hoffset.symm
      (by omega) (by omega)
    obtain ⟨b₁, hres⟩ := hgranted.mpr hroomy
    obtain ⟨hb₁, hbytes, hceiling, hfits, -⟩ := tryReserve_spec hb hmatch hres
    have hlen : (dictContent.drop (dictContent.length - share)).length = share := by
      rw [List.length_drop]
      omega
    simp only [repeatFromDict, if_pos hwindow, hres, hshare,
      if_neg (show ¬dictContent.length < share by omega)]
    split
    · rename_i hspans
      rw [if_pos hspans] at hcopy
      obtain ⟨hb₂, hbytes₂, hceiling₂, -⟩ := @extend_spec _ _ _ b₁
        (dictContent.drop (dictContent.length - share)) hb₁ (hfits _)
      rw [hbytes] at hbytes₂
      have hlen₂ : (bytes (extend b₁ (dictContent.drop (dictContent.length - share)))).length =
          offset := by
        rw [hbytes₂, List.length_append, hlen]
        exact hoffset.symm
      -- what is left starts at the front of the buffer
      obtain ⟨d₂, hd₂⟩ : ∃ d₂ : DecodeBuffer B, d₂ = { d with
          buffer := extend b₁ (dictContent.drop (dictContent.length - share))
          totalOutputCounter := d.totalOutputCounter + share } := ⟨_, rfl⟩
      have hcontent : d₂.content = d.content ++ dictContent.drop (dictContent.length - share) := by
        rw [hd₂]
        exact hbytes₂
      have hfront : d₂.len = offset := by
        rw [hd₂]
        exact hlen₂
      have hbuffer : d₂.buffer = extend b₁ (dictContent.drop (dictContent.length - share)) := by
        rw [hd₂]
      have htail := repeatResident_spec (hbuffer ▸ hb₂) (show 0 < d₂.len by omega)
        (Nat.le_refl _) (show 0 < matchLength - share by omega)
      rw [if_pos (by rw [hbuffer, hceiling₂, hceiling, hfront]; omega)] at htail
      obtain ⟨b', hrun, hb', hbytes'⟩ := htail
      refine ⟨{ d with
        buffer := b'
        totalOutputCounter := d.totalOutputCounter + matchLength }, ?_, hb', ?_, rfl⟩
      · rw [← hd₂, repeatTailAfterDict, if_neg (by omega), if_neg (by omega), hrun, hd₂]
        simp only [Nat.add_assoc, Nat.add_sub_cancel' hspans.le]
      · rw [hcopy, ← hcontent, ← hfront]
        exact congrArg (dictContent ++ ·) hbytes'
    · rename_i hinside
      rw [if_neg hinside] at hcopy
      obtain ⟨hb₂, hbytes₂, -, -⟩ := @extend_spec _ _ _ b₁
        ((dictContent.drop (dictContent.length - share)).take matchLength) hb₁ (hfits _)
      refine ⟨_, rfl, hb₂, ?_, rfl⟩
      rw [hcopy]
      exact congrArg (dictContent ++ ·) (hbytes₂.trans (congrArg (· ++ _) hbytes))
  · intro hnot
    simp only [repeatFromDict]
    split
    · rename_i hwindow
      split
      · exact ⟨_, rfl⟩
      · rename_i hdict
        cases hres : BufferBackend.tryReserve d.buffer matchLength with
        | ok b' => exact absurd ⟨hwindow, by omega, hgranted.mp ⟨b', hres⟩⟩ hnot
        | error o => exact ⟨_, rfl⟩
    · exact ⟨_, rfl⟩

/-- A match is copied just where it reaches back to something and the room is not refused; else the
buffer is as it was. -/
theorem repeatInner_spec (hb : Sound d.buffer) (hpos : 0 < offset) (hmatch : 0 < matchLength) :
    (d.Reaches dictContent offset ∧ d.len + matchLength ≤ ceiling d.buffer →
      ∃ d', d.repeatInner dictContent offset matchLength = (.ok (), d') ∧
        d.Matched dictContent offset matchLength d') ∧
    (¬(d.Reaches dictContent offset ∧ d.len + matchLength ≤ ceiling d.buffer) →
      ∃ e, d.repeatInner dictContent offset matchLength = (.error e, d)) := by
  simp only [repeatInner, if_neg hpos.ne', if_neg hmatch.ne']
  split
  · rename_i hlow
    obtain ⟨hok, herr⟩ := @repeatFromDict_spec _ _ _ offset d dictContent matchLength hb hlow hmatch
    constructor
    · rintro ⟨hreach, hroomy⟩
      obtain ⟨hwindow, hle⟩ := hreach.resolve_left (Nat.not_le.mpr hlow)
      exact hok hwindow hle hroomy
    · intro hnot
      apply herr
      rintro ⟨hwindow, hle, hroomy⟩
      exact hnot ⟨.inr ⟨hwindow, hle⟩, hroomy⟩
  · rename_i hhigh
    have hle : offset ≤ d.len := Nat.le_of_not_lt hhigh
    have hresident := repeatResident_spec hb hpos hle hmatch
    constructor
    · rintro ⟨-, hroomy⟩
      rw [if_pos hroomy] at hresident
      obtain ⟨b', hrun, hb', hbytes⟩ := hresident
      refine ⟨_, hrun, hb', ?_, rfl⟩
      rw [copyMatch_append hpos hle]
      exact congrArg (dictContent ++ ·) hbytes
    · intro hnot
      rw [if_neg fun hroomy => hnot ⟨.inl hle, hroomy⟩] at hresident
      obtain ⟨o, hrun⟩ := hresident
      exact ⟨_, hrun⟩

end DecodeBuffer

/-- A lawful backend that refuses nothing below its ceiling. -/
@[reducible] def CopyBackend.ofLawful (B : Type) [BufferBackend B] [SlicedBackend B]
    [LawfulBackend B] (h : ∀ (b : B) (n : Nat),
      (bytes b).length + n ≤ LawfulBackend.ceiling b → ∃ b', tryReserve b n = .ok b') :
    CopyBackend B where
  Sound := LawfulBackend.Wf
  Fits := LawfulBackend.Fits
  Room := LawfulBackend.Room
  ceiling := LawfulBackend.ceiling
  room_fits hb hle hroom := LawfulBackend.room_fits hb (LawfulBackend.room_mono hle hroom)
  fits_of_content := LawfulBackend.fits_of_content
  granted hb _ := ⟨fun ⟨_, hok⟩ => (LawfulBackend.tryReserve_spec hb hok).1, h _ _⟩
  tryReserve_spec hb hn hok := by
    obtain ⟨-, hb', hext, hbytes, hfits, hroom⟩ := LawfulBackend.tryReserve_spec hb hok
    exact ⟨hb', hbytes, LawfulBackend.extends_ceiling hext, hfits hn, hroom⟩
  extend_spec {b data} hb hfits := by
    obtain ⟨hb', hext, hbytes, hrest⟩ := LawfulBackend.extend_spec data hb
    exact ⟨hb', hbytes.resolve_right fun hlost => hlost.1 hfits,
      LawfulBackend.extends_ceiling hext, hrest⟩
  within_spec hb hin hroom := by
    obtain ⟨hb', -, hbytes, hrest⟩ := LawfulBackend.extendFromWithin_spec hb hin
      (LawfulBackend.room_mono (Nat.le_add_right _ _) hroom)
    exact ⟨hb', hbytes, hrest _ hroom⟩

instance : CopyBackend FlatBuf := .ofLawful FlatBuf fun b n h => by
  have hlen : (bytes b).length = b.len := List.length_drop
  have hmax : ¬b.maxCapacity < b.len + n := by
    rw [← hlen]
    exact Nat.not_lt.mpr h
  change ∃ b', b.tryReserve n = .ok b'
  simp only [FlatBuf.tryReserve, if_neg hmax]
  split
  · exact ⟨_, rfl⟩
  · exact ⟨_, rfl⟩

instance : CopyBackend RingBuffer := .ofLawful RingBuffer fun b n h =>
  ⟨b.reserve n, if_neg (Nat.not_lt.mpr h)⟩

/-- The caller's slice takes what its sequence cap leaves. -/
instance : CopyBackend UserSliceBackend where
  Sound b := b.head ≤ b.written.length
  Fits _ _ := True
  Room b n := b.written.length + n ≤ b.sequenceCap
  ceiling b := b.sequenceCap - b.head
  room_fits _ _ _ := trivial
  fits_of_content _ _ _ := trivial
  granted {b n} hb hn := by
    have hlen : (bytes b).length = b.written.length - b.head := List.length_drop
    rw [hlen]
    change (∃ b', b.tryReserve n = .ok b') ↔ _
    unfold UserSliceBackend.tryReserve
    constructor
    · rintro ⟨b', h⟩
      split at h
      · omega
      · cases h
    · intro h
      rw [if_pos (by omega)]
      exact ⟨_, rfl⟩
  tryReserve_spec {b b' n} hb _ h := by
    change b.tryReserve n = .ok b' at h
    unfold UserSliceBackend.tryReserve at h
    split at h
    · rename_i hroom
      cases h
      exact ⟨hb, rfl, rfl, fun _ => trivial, fun _ => hroom⟩
    · cases h
  extend_spec {b data} hb _ := by
    have hlen : (b.written ++ data).length = b.written.length + data.length := List.length_append
    refine ⟨?_, List.drop_append_of_le_length hb, rfl, fun n hroom => ?_⟩
    · change b.head ≤ (b.written ++ data).length
      omega
    · change (b.written ++ data).length + n ≤ b.sequenceCap
      omega
  within_spec {b start len n} hb hin hroom := by
    have hbytes : (bytes b).length = b.written.length - b.head := List.length_drop
    have hlen : (b.written ++ (b.written.drop (b.head + start)).take len).length =
        b.written.length + len := by
      rw [List.length_append, List.length_take, List.length_drop]
      omega
    refine ⟨?_, ?_, ?_⟩
    · change b.head ≤ (b.written ++ (b.written.drop (b.head + start)).take len).length
      omega
    · change (b.written ++ (b.written.drop (b.head + start)).take len).drop b.head = _
      rw [List.drop_append_of_le_length hb, ← List.drop_drop]
      rfl
    · change (b.written ++ (b.written.drop (b.head + start)).take len).length + n ≤ b.sequenceCap
      omega

namespace DecodeBuffer

open Lz CopyBackend

variable {B : Type} [BufferBackend B] [CopyBackend B]

/-- A match that is copied appends what lies `offset` back in the dictionary and the output, byte by
byte; one that is not leaves the buffer alone, and none is refused that reaches back to something and
has the room. -/
theorem repeat_copies_match (d : DecodeBuffer B) (dictContent : List UInt8) (offset matchLength : Nat)
    (hb : Sound d.buffer) (hpos : 0 < offset) :
    (∀ d', d.repeatInner dictContent offset matchLength = (.ok (), d') →
      dictContent ++ d'.content = copyMatch offset matchLength (dictContent ++ d.content)) ∧
    (0 < matchLength → ((∃ e, (d.repeatInner dictContent offset matchLength).1 = .error e) ↔
      ¬(d.Reaches dictContent offset ∧ d.len + matchLength ≤ ceiling d.buffer))) ∧
    ∀ e d', d.repeatInner dictContent offset matchLength = (.error e, d') → d' = d := by
  rcases Nat.eq_zero_or_pos matchLength with rfl | hmatch
  · have hrun : d.repeatInner dictContent offset 0 = (.ok (), d) := by
      rw [repeatInner, if_neg hpos.ne', if_pos rfl]
    rw [hrun]
    refine ⟨?_, fun h => absurd h (Nat.lt_irrefl 0), ?_⟩
    · intro d' h
      cases h
      rfl
    · intro e d' h
      cases h
  · obtain ⟨hok, herr⟩ := @repeatInner_spec _ _ _ offset d dictContent matchLength hb hpos hmatch
    by_cases hgood : d.Reaches dictContent offset ∧ d.len + matchLength ≤ ceiling d.buffer
    · obtain ⟨d', hrun, hmatched⟩ := hok hgood
      rw [hrun]
      refine ⟨?_, fun _ => ⟨?_, fun h => absurd hgood h⟩, ?_⟩
      · intro d'' h
        cases h
        exact hmatched.copied
      · rintro ⟨e, h⟩
        cases h
      · intro e d'' h
        cases h
    · obtain ⟨e, hrun⟩ := herr hgood
      rw [hrun]
      refine ⟨?_, fun _ => ⟨fun _ => hgood, fun _ => ⟨e, rfl⟩⟩, ?_⟩
      · intro d' h
        cases h
      · intro e' d' h
        cases h
        rfl

/-- A match from the dictionary into the output that then overlaps itself. -/
theorem repeat_copies_match_spanning :
    ∃ d', ((new 1024 : DecodeBuffer RingBuffer).push [3]).repeatInner [1, 2] 3 7 = (.ok (), d') ∧
      [1, 2] ++ d'.content = [1, 2, 3, 1, 2, 3, 1, 2, 3, 1] := by
  have hsound : RingBuffer.Wf ((new 1024 : DecodeBuffer RingBuffer).push [3]).buffer :=
    ⟨by decide, by decide⟩
  obtain ⟨hcopy, herr, -⟩ := repeat_copies_match ((new 1024 : DecodeBuffer RingBuffer).push [3])
    [1, 2] 3 7 hsound (by decide)
  cases hrun : ((new 1024 : DecodeBuffer RingBuffer).push [3]).repeatInner [1, 2] 3 7 with
  | mk res d' =>
    cases res with
    | ok u => exact ⟨d', rfl, (hcopy d' hrun).trans (by decide)⟩
    | error e =>
      have hbad := (herr (by decide)).mp ⟨e, by rw [hrun]⟩
      exact absurd ⟨.inr (by decide), by decide⟩ hbad

/-- A match of no bytes is not refused, however far back it reaches; one that reaches back one byte
is, where the caller's slice is full. -/
theorem repeat_refuses_by_room :
    ((new 1024 : DecodeBuffer FlatBuf).repeatInner [] 5 0).1 = .ok () ∧
      (((fromBackend (UserSliceBackend.fromSlice 4) 1024).push [1, 2, 3]).repeatInner [] 1 3).1 =
        .error (.outputBufferOverflow ⟨3, 3, 4⟩) := by
  constructor <;> rfl

end DecodeBuffer

end Decoding
