import StructuredZstd.Decoding.SequenceDecoder

namespace Encoding

open Decoding (OffsetHist doOffsetHistory wrappingSub)

/-- The code of an offset of its own, the sum taken in 32 bits as a release build takes it. -/
def explicitCode (actualOffset : Nat) : Nat := (actualOffset + 3) % 2 ^ 32

/-- The offset code of an actual offset, searched for among the repeat offsets, and the history
after it. -/
def encodeOffsetWithHistory (actualOffset litLen : Nat) (hist : OffsetHist) : Nat × OffsetHist :=
  let encoded :=
    if 0 < litLen then
      if actualOffset = hist.first then 1
      else if actualOffset = hist.second then 2
      else if actualOffset = hist.third then 3
      else explicitCode actualOffset
    else
      if actualOffset = hist.second then 1
      else if actualOffset = hist.third then 2
      else if actualOffset = wrappingSub hist.first 1 ∧ 1 < hist.first then 3
      else explicitCode actualOffset
  let hist :=
    if 0 < litLen then
      match encoded with
      | 1 => hist
      | 2 => ⟨actualOffset, hist.first, hist.third⟩
      | _ => ⟨actualOffset, hist.first, hist.second⟩
    else
      match encoded with
      | 1 => ⟨actualOffset, hist.first, hist.third⟩
      | 2 => ⟨actualOffset, hist.first, hist.second⟩
      | _ => ⟨actualOffset, hist.first, hist.second⟩
  (encoded, hist)

/-- The same for the fast matcher, which asks after the nearest repeat offset only. -/
def encodeOffsetWithHistoryFast (actualOffset litLen : Nat) (hist : OffsetHist) :
    Nat × OffsetHist :=
  if 0 < litLen ∧ actualOffset = hist.first then (1, hist)
  else if ¬0 < litLen ∧ actualOffset = hist.second then
    (1, ⟨actualOffset, hist.first, hist.third⟩)
  else (explicitCode actualOffset, ⟨actualOffset, hist.first, hist.second⟩)

/-- The offset a code stands for, as the capture of a parse reads it; `none` for the code 0 after
literals, whose index is below zero. -/
def plainOffset (code litLen : Nat) (hist : OffsetHist) : Option (Nat × OffsetHist) :=
  if 3 < code then
    let offset := code - 3
    some (offset, ⟨offset, hist.first, hist.second⟩)
  else if litLen ≠ 0 ∧ code = 0 then none
  else
    let index := if litLen = 0 then code else code - 1
    let offset :=
      match index with
      | 0 => hist.first
      | 1 => hist.second
      | 2 => hist.third
      | _ => wrappingSub hist.first 1
    let hist :=
      if 0 < index then
        ⟨offset, hist.first, if 1 < index then hist.second else hist.third⟩
      else hist
    some (offset, hist)

/-- The two readers of offset codes are one. -/
theorem plainOffset_eq_doOffsetHistory {code : Nat} (hcode : 0 < code) (litLen : Nat)
    (hist : OffsetHist) :
    plainOffset code litLen hist = some (doOffsetHistory code litLen hist) := by
  by_cases hbig : 3 < code
  · simp [plainOffset, doOffsetHistory, hbig, show 4 ≤ code from hbig]
  · have hcases : code = 1 ∨ code = 2 ∨ code = 3 := by omega
    by_cases hlit : litLen = 0
    · rcases hcases with rfl | rfl | rfl <;> simp [plainOffset, doOffsetHistory, hlit]
    · rcases hcases with rfl | rfl | rfl <;> simp [plainOffset, doOffsetHistory, hlit]

/-- Three offsets a 32-bit history can hold, none of them zero. -/
structure ValidHist (hist : OffsetHist) : Prop where
  first : 0 < hist.first ∧ hist.first < 2 ^ 32
  second : 0 < hist.second ∧ hist.second < 2 ^ 32
  third : 0 < hist.third ∧ hist.third < 2 ^ 32

/-- An offset that has a code of its own. -/
def Codable (offset : Nat) : Prop := 0 < offset ∧ offset + 3 < 2 ^ 32

theorem Codable.explicit {offset : Nat} (h : Codable offset) :
    explicitCode offset = offset + 3 := Nat.mod_eq_of_lt h.2

section Steps

variable {hist : OffsetHist} {offset : Nat}

/-- What a coder of offsets does in one step: its code is neither zero nor wrapped, the decoder
reads the offset back and stands at the same history. -/
structure StepOk (offset litLen : Nat) (hist : OffsetHist) (step : Nat × OffsetHist) : Prop where
  pos : 0 < step.1
  own : 3 < step.1 → step.1 = offset + 3
  valid : ValidHist step.2
  decoded : doOffsetHistory step.1 litLen hist = (offset, step.2)

theorem explicit_ok (hvalid : ValidHist hist) (hoff : Codable offset) (litLen : Nat) :
    StepOk offset litLen hist (explicitCode offset, ⟨offset, hist.first, hist.second⟩) := by
  have hpos := hoff.1
  have hfit := hoff.2
  rw [hoff.explicit]
  refine ⟨Nat.succ_pos _, fun _ => rfl, ⟨⟨hpos, ?_⟩, hvalid.first, hvalid.second⟩, ?_⟩
  · dsimp only
    omega
  · simp [doOffsetHistory, show 4 ≤ offset + 3 by omega]

theorem encodeOffsetWithHistory_ok (hvalid : ValidHist hist) (hoff : Codable offset)
    (litLen : Nat) :
    StepOk offset litLen hist (encodeOffsetWithHistory offset litLen hist) := by
  have hown := explicit_ok hvalid hoff litLen
  have hcode : 4 ≤ explicitCode offset := by
    have := hoff.1
    rw [hoff.explicit]
    omega
  by_cases hlit : 0 < litLen
  · have hne : litLen ≠ 0 := Nat.pos_iff_ne_zero.mp hlit
    simp only [encodeOffsetWithHistory, if_pos hlit]
    split_ifs with h1 h2 h3
    · subst h1
      exact ⟨Nat.one_pos, by simp, hvalid, by simp [doOffsetHistory, hne]⟩
    · subst h2
      refine ⟨Nat.two_pos, by simp, ⟨hvalid.second, hvalid.first, hvalid.third⟩, ?_⟩
      simp [doOffsetHistory, hne]
    · subst h3
      refine ⟨Nat.succ_pos _, by simp, ⟨hvalid.third, hvalid.first, hvalid.second⟩, ?_⟩
      simp [doOffsetHistory, hne]
    · split
      · omega
      · omega
      · exact hown
  · have hzero : litLen = 0 := by omega
    simp only [encodeOffsetWithHistory, if_neg hlit]
    split_ifs with h1 h2 h3
    · subst h1
      refine ⟨Nat.one_pos, by simp, ⟨hvalid.second, hvalid.first, hvalid.third⟩, ?_⟩
      simp [doOffsetHistory, hzero]
    · subst h2
      refine ⟨Nat.two_pos, by simp, ⟨hvalid.third, hvalid.first, hvalid.second⟩, ?_⟩
      simp [doOffsetHistory, hzero]
    · -- the first offset less one, which is not zero
      have hfirst := hvalid.first
      have hfit := hoff.2
      refine ⟨Nat.succ_pos _, by simp, ⟨⟨hoff.1, show offset < _ by omega⟩, hvalid.first,
        hvalid.second⟩, ?_⟩
      simp [doOffsetHistory, hzero, h3.1]
    · split
      · omega
      · omega
      · exact hown

theorem encodeOffsetWithHistoryFast_ok (hvalid : ValidHist hist) (hoff : Codable offset)
    (litLen : Nat) :
    StepOk offset litLen hist (encodeOffsetWithHistoryFast offset litLen hist) := by
  simp only [encodeOffsetWithHistoryFast]
  split_ifs with h1 h2
  · obtain ⟨hlit, rfl⟩ := h1
    have hne : litLen ≠ 0 := Nat.pos_iff_ne_zero.mp hlit
    exact ⟨Nat.one_pos, by simp, hvalid, by simp [doOffsetHistory, hne]⟩
  · obtain ⟨hlit, rfl⟩ := h2
    have hzero : litLen = 0 := by omega
    refine ⟨Nat.one_pos, by simp, ⟨hvalid.second, hvalid.first, hvalid.third⟩, ?_⟩
    simp [doOffsetHistory, hzero]
  · exact explicit_ok hvalid hoff litLen

/-- Where the full search finds a deeper repeat, the fast one gives the offset its own code; else
the two agree, in the history too. -/
theorem encodeOffsetWithHistoryFast_eq (hoff : Codable offset) (litLen : Nat) (hist : OffsetHist) :
    encodeOffsetWithHistoryFast offset litLen hist =
      if (encodeOffsetWithHistory offset litLen hist).1 = 2 ∨
          (encodeOffsetWithHistory offset litLen hist).1 = 3 then
        (offset + 3, ⟨offset, hist.first, hist.second⟩)
      else encodeOffsetWithHistory offset litLen hist := by
  have hcode : 4 ≤ explicitCode offset := by
    have := hoff.1
    rw [hoff.explicit]
    omega
  have hexp := hoff.explicit
  by_cases hlit : 0 < litLen
  · simp only [encodeOffsetWithHistoryFast, encodeOffsetWithHistory, hlit, true_and, not_true,
      false_and, if_false]
    split_ifs <;> simp_all
  · simp only [encodeOffsetWithHistoryFast, encodeOffsetWithHistory, hlit, false_and,
      not_false_iff, true_and, if_false]
    split_ifs <;> simp_all

end Steps

section Runs

/-- A list of offsets coded in order: each code with the history after it. -/
def encodeOffsets (encode : Nat → Nat → OffsetHist → Nat × OffsetHist) :
    OffsetHist → List (Nat × Nat) → List (Nat × OffsetHist)
  | _, [] => []
  | hist, (litLen, offset) :: rest =>
    let step := encode offset litLen hist
    step :: encodeOffsets encode step.2 rest

/-- A list of codes read in order: each offset with the history after it. -/
def decodeOffsets (decode : Nat → Nat → OffsetHist → Option (Nat × OffsetHist)) :
    OffsetHist → List (Nat × Nat) → Option (List (Nat × OffsetHist))
  | _, [] => some []
  | hist, (litLen, code) :: rest =>
    (decode code litLen hist).bind fun step =>
      (decodeOffsets decode step.2 rest).map (step :: ·)

variable {encode : Nat → Nat → OffsetHist → Nat × OffsetHist}
  {decode : Nat → Nat → OffsetHist → Option (Nat × OffsetHist)}

/-- Codes that stand are read back along the whole run, history for history. -/
theorem decode_encodeOffsets
    (hencode : ∀ hist offset litLen, ValidHist hist → Codable offset →
      StepOk offset litLen hist (encode offset litLen hist))
    (hdecode : ∀ code litLen hist, 0 < code →
      decode code litLen hist = some (doOffsetHistory code litLen hist))
    {hist : OffsetHist} (hvalid : ValidHist hist) {pairs : List (Nat × Nat)}
    (hpairs : ∀ pair ∈ pairs, Codable pair.2) :
    decodeOffsets decode hist
        ((pairs.map Prod.fst).zip ((encodeOffsets encode hist pairs).map Prod.fst)) =
      some ((pairs.map Prod.snd).zip ((encodeOffsets encode hist pairs).map Prod.snd)) := by
  induction pairs generalizing hist with
  | nil => rfl
  | cons pair rest ih =>
    have hstep := hencode hist pair.2 pair.1 hvalid (hpairs pair List.mem_cons_self)
    have hrest := ih hstep.valid fun p hp => hpairs p (List.mem_cons_of_mem _ hp)
    simp only [encodeOffsets, List.map_cons, List.zip_cons_cons, decodeOffsets]
    rw [hdecode _ _ _ hstep.pos, hstep.decoded, Option.bind_some, hrest]
    rfl

/-- No code of the run is zero, and one past the repeats is its offset and three. -/
theorem encodeOffsets_codes
    (hencode : ∀ hist offset litLen, ValidHist hist → Codable offset →
      StepOk offset litLen hist (encode offset litLen hist))
    {hist : OffsetHist} (hvalid : ValidHist hist) {pairs : List (Nat × Nat)}
    (hpairs : ∀ pair ∈ pairs, Codable pair.2) :
    List.Forall₂ (fun pair step => 0 < step.1 ∧ (3 < step.1 → step.1 = pair.2 + 3)) pairs
      (encodeOffsets encode hist pairs) := by
  induction pairs generalizing hist with
  | nil => exact .nil
  | cons pair rest ih =>
    have hstep := hencode hist pair.2 pair.1 hvalid (hpairs pair List.mem_cons_self)
    exact .cons ⟨hstep.pos, hstep.own⟩
      (ih hstep.valid fun p hp => hpairs p (List.mem_cons_of_mem _ hp))

/-- Both coders against both readers: the offsets come back in order with equal histories after
every step, no code is zero or wrapped, and the fast coder differs from the full one only where
that one has a deeper repeat to name. -/
theorem offset_codes_round_trip {hist : OffsetHist} (hvalid : ValidHist hist)
    {pairs : List (Nat × Nat)} (hpairs : ∀ pair ∈ pairs, Codable pair.2) :
    (∀ encode ∈ [encodeOffsetWithHistory, encodeOffsetWithHistoryFast],
      (∀ decode ∈ [fun code litLen hist => some (doOffsetHistory code litLen hist), plainOffset],
        decodeOffsets decode hist
            ((pairs.map Prod.fst).zip ((encodeOffsets encode hist pairs).map Prod.fst)) =
          some ((pairs.map Prod.snd).zip ((encodeOffsets encode hist pairs).map Prod.snd))) ∧
      List.Forall₂ (fun pair step => 0 < step.1 ∧ (3 < step.1 → step.1 = pair.2 + 3)) pairs
        (encodeOffsets encode hist pairs)) ∧
      ∀ pair ∈ pairs, ∀ hist, encodeOffsetWithHistoryFast pair.2 pair.1 hist =
        if (encodeOffsetWithHistory pair.2 pair.1 hist).1 = 2 ∨
            (encodeOffsetWithHistory pair.2 pair.1 hist).1 = 3 then
          (pair.2 + 3, ⟨pair.2, hist.first, hist.second⟩)
        else encodeOffsetWithHistory pair.2 pair.1 hist := by
  refine ⟨fun encode hencode => ?_, fun pair hpair => ?_⟩
  · have hok : ∀ hist offset litLen, ValidHist hist → Codable offset →
        StepOk offset litLen hist (encode offset litLen hist) := by
      simp only [List.mem_cons, List.not_mem_nil, or_false] at hencode
      rcases hencode with rfl | rfl
      · exact fun _ _ litLen hv ho => encodeOffsetWithHistory_ok hv ho litLen
      · exact fun _ _ litLen hv ho => encodeOffsetWithHistoryFast_ok hv ho litLen
    refine ⟨fun decode hdecode => ?_, encodeOffsets_codes hok hvalid hpairs⟩
    apply decode_encodeOffsets hok ?_ hvalid hpairs
    simp only [List.mem_cons, List.not_mem_nil, or_false] at hdecode
    rcases hdecode with rfl | rfl
    · exact fun _ _ _ _ => rfl
    · exact fun _ litLen hist hcode => plainOffset_eq_doOffsetHistory hcode litLen hist
  · exact encodeOffsetWithHistoryFast_eq (hpairs pair hpair) pair.1

/-- A repeat, a match without literals, the first offset less one, and an offset of its own. -/
theorem offset_codes_round_trip_start :
    decodeOffsets plainOffset .initial [(5, 2), (0, 3), (0, 2), (2, 103)] =
      some [(4, ⟨4, 1, 8⟩), (3, ⟨3, 4, 1⟩), (1, ⟨1, 3, 4⟩), (100, ⟨100, 1, 3⟩)] := by
  have h := ((@offset_codes_round_trip .initial
    ⟨by decide, by decide, by decide⟩ [(5, 4), (0, 3), (0, 1), (2, 100)]
    (by simp [Codable])).1 encodeOffsetWithHistory List.mem_cons_self).1 plainOffset
    (List.mem_cons_of_mem _ List.mem_cons_self)
  have hcodes : encodeOffsets encodeOffsetWithHistory .initial [(5, 4), (0, 3), (0, 1), (2, 100)] =
      [(2, ⟨4, 1, 8⟩), (3, ⟨3, 4, 1⟩), (2, ⟨1, 3, 4⟩), (103, ⟨100, 1, 3⟩)] := by decide +kernel
  rw [hcodes] at h
  exact h

/-- The fast coder does not name the second repeat offset, and an offset near the end of 32 bits
wraps onto a repeat code. -/
theorem fast_code_differs_and_large_offset_wraps :
    (encodeOffsetWithHistory 4 1 .initial).1 = 2 ∧
      (encodeOffsetWithHistoryFast 4 1 .initial).1 = 7 ∧
      (encodeOffsetWithHistory (2 ^ 32 - 1) 1 .initial).1 = 2 ∧
      (doOffsetHistory 2 1 .initial).1 = 4 := by
  decide +kernel

end Runs

end Encoding
