import StructuredZstd.Encoding.WindowSpec

namespace Encoding

namespace MatchGeneratorDriver

/-- With `O` bytes of output: the limit is the announced window and the budget, and what is
budgeted is still in the window, ahead of the output. -/
structure Ledger (W O : Nat) (d : MatchGeneratorDriver) : Prop where
  limit : d.storage.maxWindowSize = W + d.dictionaryRetainedBudget
  budget : d.dictionaryRetainedBudget = 0 ∨
    d.dictionaryRetainedBudget + O ≤ d.storage.live.length

theorem retireDictionaryBudget_eq (d : MatchGeneratorDriver) (e : Nat) :
    d.retireDictionaryBudget e =
      ({ d with
          dictionaryRetainedBudget := d.dictionaryRetainedBudget - min e d.dictionaryRetainedBudget
          storage := d.storage.setMaxWindowSize
            (d.storage.maxWindowSize - min e d.dictionaryRetainedBudget) },
        decide (min e d.dictionaryRetainedBudget ≠ 0)) := by
  unfold retireDictionaryBudget
  dsimp only
  split
  · rename_i h0
    simp [h0]
  · rename_i h0
    simp [h0]

theorem retireDictionaryBudget_none {d : MatchGeneratorDriver} {e : Nat}
    (h : min e d.dictionaryRetainedBudget = 0) : d.retireDictionaryBudget e = (d, false) := by
  rw [retireDictionaryBudget]
  exact if_pos h

/-- Evicted bytes, retired, leave the ledger in order. -/
theorem Ledger.retire {W O O' e : Nat} {d : MatchGeneratorDriver} {s : MatcherStorage}
    (h : Ledger W O d) (hmax : s.maxWindowSize = d.storage.maxWindowSize)
    (hlen : d.storage.live.length + O' = s.live.length + O + e) :
    Ledger W O' ({ d with storage := s }.retireDictionaryBudget e).1 := by
  rw [retireDictionaryBudget_eq]
  have hlimit := h.limit
  refine ⟨?_, ?_⟩
  · simp only [MatcherStorage.setMaxWindowSize_max]
    omega
  · simp only [MatcherStorage.setMaxWindowSize_live]
    rcases h.budget with h0 | hb
    · left
      omega
    · by_cases he : d.dictionaryRetainedBudget ≤ e
      · left
        omega
      · right
        omega

/-- The eviction loop ends with the window at its limit and the ledger in order, whatever the
budget was. -/
theorem trimAfterBudgetRetire_spec {W O : Nat} {d : MatchGeneratorDriver} (h : Ledger W O d)
    (hlast : d.storage.lastBlockLen ≤ W) :
    ∃ d' n, d.trimAfterBudgetRetire = some d' ∧ d.storage.Evicts d'.storage n ∧ Ledger W O d' ∧
      d'.storage.live.length ≤ d'.storage.maxWindowSize ∧
      d'.storage.staged = d.storage.staged ∧ (d.storage.Placed → d'.storage.Placed) ∧
      d'.sliceSize = d.sliceSize := by
  induction hn : d.storage.live.length using Nat.strongRecOn generalizing d with
  | ind n ih =>
    obtain ⟨s, e, hs, hev, hle, hmax, hst, hpl⟩ := d.storage.trimToWindow_spec
    have hlim := h.limit
    by_cases h0 : e = 0
    · subst h0
      refine ⟨{ d with storage := s }, 0, ?_, hev, ⟨hmax.trans hlim, ?_⟩, hmax ▸ hle, hst, hpl, rfl⟩
      · rw [trimAfterBudgetRetire]
        split
        · simp_all
        · simp_all
      · simpa [hev.live] using h.budget
    · have hlen : s.live.length + e = d.storage.live.length := by
        have := hev.le
        rw [hev.live, List.length_drop]
        omega
      have hled := @Ledger.retire W O O e d s h hmax (by omega)
      have hev' : d.storage.Evicts ({ d with storage := s }.retireDictionaryBudget e).1.storage e := by
        rw [retireDictionaryBudget_eq]
        exact hev.setMax _
      have hlast' : ({ d with storage := s }.retireDictionaryBudget e).1.storage.lastBlockLen ≤ W := by
        rw [hev'.lastBlockLen (by omega)]
        exact hlast
      have hlt : ({ d with storage := s }.retireDictionaryBudget e).1.storage.live.length < n := by
        rw [retireDictionaryBudget_live]
        change s.live.length < n
        omega
      obtain ⟨d', m, hd', hev'', hled', hle', hst', hpl', hsl'⟩ := ih _ hlt hled hlast' rfl
      have hfit := hled.limit
      refine ⟨d', e + m, ?_, hev'.trans hev'' (by omega), hled', hle', ?_, ?_, ?_⟩
      · rw [trimAfterBudgetRetire]
        split
        · simp_all
        · rename_i s₁ e₁ heq
          rw [hs] at heq
          cases heq
          rw [dif_neg h0]
          exact hd'
      · rw [hst', retireDictionaryBudget_eq]
        simpa using hst
      · intro hp
        refine hpl' ?_
        rw [retireDictionaryBudget_eq]
        simpa using hpl hp
      · rw [hsl', retireDictionaryBudget_eq]

/-- With `dict` primed and `out` produced: the ledger is in order, the window is the end of
dictionary and output, and the Fast backend's dictionary boundary still lies ahead of the output. -/
structure Accounted (W : Nat) (dict out : List UInt8) (d : MatchGeneratorDriver) : Prop where
  ledger : Ledger W out.length d
  suffix : d.storage.live <:+ dict ++ out
  fits : d.storage.Fits
  placed : d.storage.Placed
  announces : d.storage.Announces W
  dictEnd : d.storage.dictEnd = 0 ∨ d.storage.dictEnd + out.length ≤ d.storage.live.length

section Commit

variable {W : Nat} {dict out : List UInt8} {d : MatchGeneratorDriver} {len : Nat}

theorem Accounted.committed {s : MatcherStorage} {e : Nat} (h : Accounted W dict out d)
    (hs : d.storage.commitBlock len = some (s, e)) :
    s.live <:+ dict ++ (out ++ d.storage.uncommitted.take len) ∧
      Ledger W (out ++ d.storage.uncommitted.take len).length
        ({ d with storage := s }.retireDictionaryBudget e).1 ∧
      (s.dictEnd = 0 ∨
        s.dictEnd + (out ++ d.storage.uncommitted.take len).length ≤ s.live.length) := by
  obtain ⟨hc, -⟩ := MatcherStorage.commitBlock_committed hs
  have hlen := hc.length
  have htake : (d.storage.uncommitted.take len).length = len := by
    rw [List.length_take]
    exact Nat.min_eq_left hc.len_le
  refine ⟨?_, h.ledger.retire hc.maxWindowSize ?_, ?_⟩
  · rw [hc.live, ← List.append_assoc]
    exact List.suffix_append_inj_of_length_eq rfl |>.mpr ⟨(List.drop_suffix e _).trans h.suffix, rfl⟩
  · rw [List.length_append, htake]
    omega
  · rcases hc.dictEnd with h0 | ⟨rfl, h0⟩
    · exact .inl h0
    · rw [h0, List.length_append, htake]
      rcases h.dictEnd with h1 | h1
      · exact .inl h1
      · right
        omega

/-- What one commit does, eviction loop included. -/
theorem commitFilled_spec (h : Accounted W dict out d) (hlen : len ≤ W) {s : MatcherStorage}
    {e : Nat} (hs : d.storage.commitBlock len = some (s, e)) :
    ∃ d', d.commitFilled len = some d' ∧
      Accounted W dict (out ++ d.storage.uncommitted.take len) d' ∧
      d'.storage.uncommitted = d.storage.uncommitted.drop len ∧
      d'.storage.tag = d.storage.tag ∧ (len ≠ 0 → d'.storage.lastBlockLen = len) ∧
      d'.sliceSize = d.sliceSize := by
  obtain ⟨hc, hfull⟩ := MatcherStorage.commitBlock_committed hs
  obtain ⟨hsuf, hled, hdict⟩ := h.committed hs
  have hret := retireDictionaryBudget_eq { d with storage := s } e
  by_cases hr : min e d.dictionaryRetainedBudget = 0
  · have hz := @retireDictionaryBudget_none { d with storage := s } e hr
    refine ⟨{ d with storage := s }, ?_, ⟨?_, hsuf, hc.fits h.fits, hc.placed h.placed,
      hc.announces W h.announces, hdict⟩, hc.uncommitted, hc.tag, hc.lastBlockLen, rfl⟩
    · rw [commitFilled, hs, Option.bind_some]
      dsimp only
      rw [hz]
      rfl
    · rw [hz] at hled
      exact hled
  · have he : e ≠ 0 := by omega
    have h0 : len ≠ 0 := by
      rintro rfl
      exact he (MatcherStorage.commitBlock_zero hs h.fits)
    have hlast : ({ d with storage := s }.retireDictionaryBudget e).1.storage.lastBlockLen ≤ W := by
      rw [hret]
      simpa [hc.lastBlockLen h0] using hlen
    obtain ⟨d', n, hd', hev, hled', hle, -, hpl, hsl⟩ := trimAfterBudgetRetire_spec hled hlast
    have hlim := hled.limit
    rw [hret] at hev hpl hsl
    have hlast' := hev.lastBlockLen (by
      rw [hret] at hlim hlast
      simp only at hlim hlast ⊢
      omega)
    refine ⟨d', ?_, ⟨hled', ?_, MatcherStorage.fits_of_le hle,
      hpl (by simpa using hc.placed h.placed),
      hev.announces W (by simpa using hc.announces W h.announces), ?_⟩, ?_, ?_, ?_, hsl⟩
    · rw [commitFilled, hs, Option.bind_some]
      dsimp only
      rw [hret] at hd' ⊢
      simpa [hr] using hd'
    · rw [hev.live]
      simpa using (List.drop_suffix n _).trans hsuf
    · rcases hev.dictEnd with h1 | ⟨rfl, h1⟩
      · exact .inl h1
      · rw [h1, hev.live]
        simpa using hdict
    · rw [hev.uncommitted]
      simpa using hc.uncommitted
    · rw [hev.tag]
      simpa using hc.tag
    · intro _
      rw [hlast']
      simpa using hc.lastBlockLen h0

/-- A block no larger than the announced window is always committed: the loop ends. -/
theorem commitFilled_total (h : Accounted W dict out d) (hlen : len ≤ W)
    (hu : len ≤ d.storage.uncommitted.length) (hst : d.storage.staged = false) :
    (d.commitFilled len).isSome := by
  have hm : len ≤ d.storage.maxWindowSize := by
    rw [h.ledger.limit]
    omega
  obtain ⟨s, e, hs⟩ := MatcherStorage.commitBlock_total hm hu hst
  obtain ⟨d', hd', -⟩ := commitFilled_spec h hlen hs
  rw [hd']
  rfl

end Commit

theorem primeSliceLen_le {slice minTail left len : Nat} (hs : 2 * minTail ≤ slice)
    (h : primeSliceLen slice minTail left = some len) : len ≤ slice ∧ len ≤ left := by
  unfold primeSliceLen at h
  split at h
  · cases h
    omega
  · split at h
    · split at h
      · cases h
      · split at h
        · cases h
          omega
        · cases h
          omega
    · cases h
      omega

/-- With `done` of the dictionary committed under the limit `M`. -/
structure Priming (W M : Nat) (done : List UInt8) (d : MatchGeneratorDriver) : Prop where
  budget : d.dictionaryRetainedBudget = 0
  limit : d.storage.maxWindowSize = M
  suffix : d.storage.live <:+ done
  kept : d.storage.live.length = done.length ∨ M ≤ d.storage.live.length + d.sliceSize
  fits : d.storage.Fits
  placed : d.storage.Placed
  announces : d.storage.Announces W
  chunks : d.storage.ChunksLe d.sliceSize
  dictEnd : d.storage.dictEnd ≤ d.storage.live.length
  uncommitted : d.storage.uncommitted = []

theorem commitFilled_of_unbudgeted {d d' : MatchGeneratorDriver} {len : Nat}
    (h : d.commitFilled len = some d') (h0 : d.dictionaryRetainedBudget = 0) :
    ∃ s e, d.storage.commitBlock len = some (s, e) ∧ d' = { d with storage := s } := by
  obtain ⟨⟨s, e⟩, hs, hr⟩ := Option.bind_eq_some_iff.mp h
  refine ⟨s, e, hs, ?_⟩
  dsimp only at hr
  rw [@retireDictionaryBudget_none { d with storage := s } e (by simp [h0])] at hr
  cases hr
  rfl

section Prime

variable {W M : Nat} {done : List UInt8} {d d' : MatchGeneratorDriver}

theorem Priming.slice {chunk : List UInt8} (h : Priming W M done d) (hlen : chunk.length ≤ d.sliceSize)
    (hM : d.sliceSize ≤ M) (hd : d.primeSlice chunk = some d') :
    Priming W M (done ++ chunk) d' ∧ d'.sliceSize = d.sliceSize ∧
      d'.storage.minPrimedTail = d.storage.minPrimedTail := by
  obtain ⟨d₁, hfill, hd⟩ := Option.bind_eq_some_iff.mp hd
  rw [fillInPlace, Option.map_eq_some_iff] at hfill
  obtain ⟨s₁, hs₁, rfl⟩ := hfill
  obtain ⟨d₂, hcommit, hd⟩ := Option.bind_eq_some_iff.mp hd
  obtain ⟨s₂, e, hs₂, rfl⟩ := commitFilled_of_unbudgeted hcommit h.budget
  obtain ⟨s₃, hs₃, rfl⟩ := Option.map_eq_some_iff.mp hd
  have hf := MatcherStorage.fillInPlace_spec hs₁
  obtain ⟨hc, -⟩ := MatcherStorage.commitBlock_committed hs₂
  obtain ⟨hi, hie⟩ := MatcherStorage.indexDictionarySlice_spec hs₃
  obtain ⟨hchunks, hkeep⟩ := MatcherStorage.commitBlock_keeps hs₂
    ((hf.chunksLe _).mpr h.chunks) hlen (by
      change chunk.length ≤ s₁.maxWindowSize
      rw [hf.maxWindowSize, h.limit]
      omega)
  have hu : s₁.uncommitted = chunk := by rw [hf.uncommitted, h.uncommitted, List.nil_append]
  have hlive : s₂.live = d.storage.live.drop e ++ chunk := by
    rw [hc.live]
    change s₁.live.drop e ++ s₁.uncommitted.take chunk.length = _
    rw [hu, List.take_length, hf.live]
  have hmax : s₂.maxWindowSize = M := by
    rw [hc.maxWindowSize]
    exact hf.maxWindowSize.trans h.limit
  refine ⟨⟨h.budget, ?_, ?_, ?_, ?_, ?_, ?_, ?_, ?_, ?_⟩, rfl, ?_⟩
  · exact hi.maxWindowSize.trans hmax
  · change s₃.live <:+ done ++ chunk
    rw [hi.live, hlive]
    exact List.suffix_append_inj_of_length_eq rfl |>.mpr ⟨(List.drop_suffix e _).trans h.suffix, rfl⟩
  · change s₃.live.length = _ ∨ M ≤ s₃.live.length + d.sliceSize
    rw [hi.live]
    by_cases he : e = 0
    · rcases h.kept with hk | hk
      · left
        simp [hlive, he, hk]
      · right
        simp only [hlive, he, List.drop_zero, List.length_append]
        omega
    · right
      have := hkeep he
      change s₁.maxWindowSize ≤ s₂.live.length + d.sliceSize at this
      rw [hf.maxWindowSize, h.limit] at this
      exact this
  · exact hi.fits.mpr (hc.fits (hf.fits.mpr h.fits))
  · exact hi.placed.mpr (hc.placed (hf.placed.mpr h.placed))
  · exact (hi.announces W).mpr (hc.announces W ((hf.announces W).mpr h.announces))
  · exact (hi.chunksLe _).mpr hchunks
  · refine hie ?_
    change s₂.dictEnd ≤ s₂.live.length
    rcases hc.dictEnd with h0 | ⟨he, h0⟩
    · rw [h0]
      exact Nat.zero_le _
    · rw [h0, hlive, he]
      change s₁.dictEnd ≤ _
      rw [hf.dictEnd, List.length_append]
      exact Nat.le_trans h.dictEnd (Nat.le_add_right _ _)
  · change s₃.uncommitted = []
    rw [hi.uncommitted, hc.uncommitted]
    change s₁.uncommitted.drop chunk.length = []
    rw [hu, List.drop_length]
  · have ht : s₃.tag = d.storage.tag := hi.tag.trans (hc.tag.trans hf.tag)
    exact MatcherStorage.minPrimedTail_of_tag ht

theorem Priming.slices {rest : List UInt8} (h : Priming W M done d)
    (htail : 2 * d.storage.minPrimedTail ≤ d.sliceSize) (hM : d.sliceSize ≤ M)
    (hd : d.primeSlices rest = some d') :
    Priming W M (done ++ rest) d' ∧ d'.sliceSize = d.sliceSize := by
  induction hn : rest.length using Nat.strongRecOn generalizing d done rest with
  | ind n ih =>
    rw [primeSlices] at hd
    split at hd
    · rename_i hr
      cases hd
      rw [hr, List.append_nil]
      exact ⟨h, rfl⟩
    · rename_i hr
      split at hd
      · cases hd
      · rename_i len hlen
        obtain ⟨hle, hleft⟩ := primeSliceLen_le htail hlen
        split at hd
        · cases hd
        · rename_i hlt
          obtain ⟨d₁, hd₁, hd⟩ := Option.bind_eq_some_iff.mp hd
          have htake : (rest.take len).length ≤ d.sliceSize := by
            rw [List.length_take]
            omega
          obtain ⟨h₁, hsl, htl⟩ := h.slice htake hM hd₁
          have hpos := d.storage.minPrimedTail_pos
          have hrec := ih (rest.drop len).length (by rw [List.length_drop]; omega) h₁
            (by omega) (by omega) hd rfl
          rw [List.append_assoc, List.take_append_drop, hsl] at hrec
          exact hrec

end Prime

end MatchGeneratorDriver

/-- What a reset resolves for a frame: the backend (`none` for Fast), the announced window, the
absolute position the frame starts at, and what decides how a dictionary is indexed. -/
structure FrameShape where
  backend : Option BlockBackend
  windowLog : Nat
  floor : Nat
  sizeLog : Option Nat
  attachOk : Bool
  reachLog : Nat
  windowLog_ge : 10 ≤ windowLog
  windowLog_le : windowLog ≤ 30

namespace FrameShape

def window (f : FrameShape) : Nat := 1 <<< f.windowLog

theorem window_mem (f : FrameShape) : 1024 ≤ f.window ∧ f.window ≤ 2 ^ 30 := by
  rw [window, Nat.one_shiftLeft]
  exact ⟨Nat.pow_le_pow_right Nat.two_pos f.windowLog_ge,
    Nat.pow_le_pow_right Nat.two_pos f.windowLog_le⟩

/-- The driver after a reset that keeps no dictionary. -/
def reset (f : FrameShape) : MatchGeneratorDriver where
  storage :=
    match f.backend with
    | none => .simple (.empty f.windowLog)
    | some b => .blocks b (.empty f.floor f.window)
  dictionaryRetainedBudget := 0
  reportedWindowSize := f.window
  sliceSize := min maxBlockSize f.window
  resetSizeLog := f.sizeLog
  resetDictAttachOk := f.attachOk
  dictReachLog := f.reachLog

/-- A frame starts with a reset and, where it has one, its dictionary. -/
def start (f : FrameShape) : Option (List UInt8) → Option MatchGeneratorDriver
  | none => some f.reset
  | some dict => f.reset.primeWithDictionary dict

end FrameShape

namespace MatchGeneratorDriver

theorem reset_priming (f : FrameShape) (M floor : Nat) :
    Priming f.window M [] { f.reset with
      storage := (f.reset.storage.setDictionaryIndexFloor floor).setMaxWindowSize M } := by
  obtain ⟨backend, _⟩ := f
  cases backend with
  | none =>
    exact ⟨rfl, rfl, List.suffix_refl [], .inl rfl, Nat.zero_le _, Nat.zero_le _, rfl, trivial,
      Nat.zero_le _, rfl⟩
  | some b =>
    exact ⟨rfl, rfl, List.suffix_refl [], .inl rfl, Nat.zero_le _, trivial, trivial,
      fun _ hc => absurd hc List.not_mem_nil, Nat.zero_le _, rfl⟩

theorem reset_accounted (f : FrameShape) (dict : List UInt8) :
    Accounted f.window dict [] f.reset := by
  obtain ⟨backend, _⟩ := f
  cases backend with
  | none =>
    exact ⟨⟨rfl, .inl rfl⟩, List.nil_suffix, Nat.zero_le _, Nat.zero_le _, rfl, .inl rfl⟩
  | some b =>
    exact ⟨⟨rfl, .inl rfl⟩, List.nil_suffix, Nat.zero_le _, trivial, trivial, .inl rfl⟩

@[simp] theorem reset_maxWindowSize (f : FrameShape) :
    f.reset.storage.maxWindowSize = f.window := by
  obtain ⟨backend, _⟩ := f
  cases backend <;> rfl

theorem sliceSize_mem (f : FrameShape) : 10 ≤ f.reset.sliceSize ∧ f.reset.sliceSize ≤ f.window := by
  obtain ⟨hlo, -⟩ := f.window_mem
  change 10 ≤ min maxBlockSize f.window ∧ min maxBlockSize f.window ≤ f.window
  refine ⟨Nat.le_min.mpr ⟨by decide, by omega⟩, Nat.min_le_right _ _⟩

/-- A grant that the window holds makes the ledger. -/
theorem Priming.grant {W M granted : Nat} {done dict : List UInt8} {d : MatchGeneratorDriver}
    (h : Priming W M done d) (hdone : done <:+ dict)
    (hM : W + granted = M ∨ d.storage.live = []) (hkeep : granted ≤ d.storage.live.length) :
    Accounted W dict [] { d with
      storage :=
        ((d.storage.setMaxWindowSize (W + granted)).markDictPrimed).setDictionaryIndexFloor 0
      dictionaryRetainedBudget := d.dictionaryRetainedBudget + granted } := by
  obtain ⟨hi, hie⟩ := MatcherStorage.markDictPrimed_spec
    (d.storage.setMaxWindowSize (W + granted))
  have hb := h.budget
  refine ⟨⟨hi.maxWindowSize.trans (by simp [hb]), .inr ?_⟩, ?_, hi.fits.mpr ?_,
    hi.placed.mpr (by simpa using h.placed), (hi.announces _).mpr (by simpa using h.announces),
    .inr ?_⟩
  · rw [hi.live]
    simpa [hb] using hkeep
  · rw [hi.live, List.append_nil]
    simpa using h.suffix.trans hdone
  · rcases hM with hM | hnil
    · rw [hM, ← h.limit, MatcherStorage.setMaxWindowSize_self]
      exact h.fits
    · exact MatcherStorage.fits_of_le (by simp [hnil])
  · rw [hi.live, hie]
    simpa using h.dictEnd

/-- The grant is what was committed, as far as the limit may be raised; the window holds it. -/
theorem prime_accounted {f : FrameShape} {dict : List UInt8} {d : MatchGeneratorDriver}
    (h : f.reset.primeWithDictionary dict = some d) : Accounted f.window dict [] d := by
  rw [primeWithDictionary] at h
  split at h
  · cases h
    exact reset_accounted f dict
  · rw [reset_maxWindowSize] at h
    dsimp only at h
    obtain ⟨d', hd', rfl⟩ := Option.map_eq_some_iff.mp h
    obtain ⟨-, hhi⟩ := f.window_mem
    obtain ⟨hslo, hshi⟩ := sliceSize_mem f
    have hmax : 2 ^ 30 ≤ maxPrimedWindowSize := by decide
    have hp := reset_priming f (min (f.window + dict.length) maxPrimedWindowSize)
      (dict.length - 1 <<< f.reset.dictReachLog)
    have htail := MatcherStorage.minPrimedTail_le
      ((f.reset.storage.setDictionaryIndexFloor
        (dict.length - 1 <<< f.reset.dictReachLog)).setMaxWindowSize
          (min (f.window + dict.length) maxPrimedWindowSize))
    obtain ⟨hp', hsl⟩ := hp.slices (by simp only; omega) (by simp only; omega) hd'
    have hsl : d'.sliceSize = f.reset.sliceSize := hsl
    have hk := hp'.kept
    by_cases hash : dict.length ≥ ((f.reset.storage.setDictionaryIndexFloor
        (dict.length - 1 <<< f.reset.dictReachLog)).setMaxWindowSize
          (min (f.window + dict.length) maxPrimedWindowSize)).minPrimedTail
    · simp only [hash, decide_true, if_true, List.nil_append] at hp' hk ⊢
      exact hp'.grant (List.suffix_refl dict) (.inl (by omega)) (by omega)
    · simp only [hash, decide_false, Bool.false_eq_true, if_false, List.append_nil] at hp' ⊢
      exact hp'.grant List.nil_suffix (.inr (List.suffix_nil.mp hp'.suffix)) (by omega)

end MatchGeneratorDriver

/-- What is asked of the match generator while a frame is written. -/
inductive FrameStep where
  | fill (bytes : List UInt8)
  | commit (len : Nat)
  | scan
  | scanLongDistance (sequences : List (Nat × Nat))

/-- A frame under way: the driver, and the output the committed blocks stand for. -/
structure FrameState where
  driver : MatchGeneratorDriver
  output : List UInt8

namespace FrameState

def step (t : FrameState) : FrameStep → Option FrameState
  | .fill bytes => (t.driver.fillInPlace bytes).map fun d => { t with driver := d }
  | .commit len =>
    (t.driver.commitFilled len).map fun d =>
      ⟨d, t.output ++ t.driver.storage.uncommitted.take len⟩
  | .scan => t.driver.storage.scanBlock.map fun s => { t with driver := { t.driver with storage := s } }
  | .scanLongDistance sequences =>
    (t.driver.storage.scanLongDistance sequences).map fun s =>
      { t with driver := { t.driver with storage := s } }

def run (t : FrameState) : List FrameStep → Option FrameState
  | [] => some t
  | x :: rest => (t.step x).bind fun t => t.run rest

end FrameState

namespace MatchGeneratorDriver

section Steps

variable {W : Nat} {dict out : List UInt8} {d : MatchGeneratorDriver}

theorem Accounted.fill {d' : MatchGeneratorDriver} {bytes : List UInt8}
    (h : Accounted W dict out d) (hd : d.fillInPlace bytes = some d') :
    Accounted W dict out d' ∧ d'.storage.tag = d.storage.tag := by
  rw [fillInPlace, Option.map_eq_some_iff] at hd
  obtain ⟨s, hs, rfl⟩ := hd
  have hf := MatcherStorage.fillInPlace_spec hs
  refine ⟨⟨⟨hf.maxWindowSize.trans h.ledger.limit, ?_⟩, ?_, hf.fits.mpr h.fits,
    hf.placed.mpr h.placed, (hf.announces W).mpr h.announces, ?_⟩, hf.tag⟩
  · rw [hf.live]
    exact h.ledger.budget
  · rw [hf.live]
    exact h.suffix
  · rw [hf.live, hf.dictEnd]
    exact h.dictEnd

theorem Accounted.commit {d' : MatchGeneratorDriver} {len : Nat} (h : Accounted W dict out d)
    (hlen : len ≤ W) (hd : d.commitFilled len = some d') :
    Accounted W dict (out ++ d.storage.uncommitted.take len) d' ∧
      d'.storage.tag = d.storage.tag := by
  obtain ⟨⟨s, e⟩, hs, -⟩ := Option.bind_eq_some_iff.mp hd
  obtain ⟨d₁, hd₁, ha, -, ht, -⟩ := commitFilled_spec h hlen hs
  rw [hd] at hd₁
  cases hd₁
  exact ⟨ha, ht⟩

/-- A window with the same bytes under the same limit keeps the accounts. -/
theorem Accounted.of_live {s : MatcherStorage} (h : Accounted W dict out d)
    (hl : s.live = d.storage.live) (hm : s.maxWindowSize = d.storage.maxWindowSize)
    (hf : s.Fits) (hp : s.Placed) (ha : s.Announces W)
    (hd : s.dictEnd = 0 ∨ s.dictEnd = d.storage.dictEnd) :
    Accounted W dict out { d with storage := s } := by
  refine ⟨⟨hm.trans h.ledger.limit, ?_⟩, ?_, hf, hp, ha, ?_⟩
  · rw [hl]
    exact h.ledger.budget
  · rw [hl]
    exact h.suffix
  · rw [hl]
    rcases hd with h0 | h0
    · exact .inl h0
    · rw [h0]
      exact h.dictEnd

theorem Accounted.scan {s : MatcherStorage} (h : Accounted W dict out d)
    (hs : d.storage.scanBlock = some s) :
    Accounted W dict out { d with storage := s } ∧ s.tag = d.storage.tag := by
  obtain ⟨hi, hie⟩ := MatcherStorage.scanBlock_spec hs
  exact ⟨h.of_live hi.live hi.maxWindowSize (hi.fits.mpr h.fits) (hi.placed.mpr h.placed)
    ((hi.announces W).mpr h.announces) (.inr hie), hi.tag⟩

/-- The pieces of a block handed back come to the window the block left. -/
theorem Accounted.scanLongDistance {s : MatcherStorage} {sequences : List (Nat × Nat)}
    (h : Accounted W dict out d) (ht : d.storage.tag ≠ some .row)
    (hs : d.storage.scanLongDistance sequences = some s) :
    Accounted W dict out { d with storage := s } ∧ s.tag = d.storage.tag := by
  rw [MatcherStorage.scanLongDistance] at hs
  split at hs
  · exact h.scan hs
  · obtain ⟨s₁, hs₁, hs⟩ := Option.bind_eq_some_iff.mp hs
    obtain ⟨hle, hl, hu, htag, hm, ha, hp, hd⟩ := MatcherStorage.uncommitBlock_spec h.placed hs₁
    have hfit := (MatcherStorage.fits_iff ht).mp h.fits
    have hroom : s₁.room = d.storage.room := MatcherStorage.room_of_max htag hm
    have hlen : s₁.live.length + d.storage.lastBlockLen = d.storage.live.length := by
      rw [hl, List.length_take]
      omega
    have hx := MatcherStorage.scanPieces_extends (htag ▸ ht) (by omega) hs
    have hdl : (d.storage.live.drop (d.storage.live.length - d.storage.lastBlockLen)).length =
        d.storage.lastBlockLen := by
      rw [List.length_drop]
      omega
    have hlive : s.live = d.storage.live := by
      rw [hx.live, hl, hu, List.take_append_of_le_length (Nat.le_of_eq hdl.symm),
        List.take_of_length_le (Nat.le_of_eq hdl), List.take_append_drop]
    have htag' : s.tag = d.storage.tag := hx.tag.trans htag
    have hm' : s.maxWindowSize = d.storage.maxWindowSize := hx.maxWindowSize.trans hm
    refine ⟨h.of_live hlive hm' ?_ (hx.placed hp) (hx.announces W (ha W h.announces)) ?_, htag'⟩
    · rw [MatcherStorage.fits_iff (htag' ▸ ht), hlive, MatcherStorage.room_of_max htag' hm']
      exact hfit
    · rw [← hd]
      exact hx.dictEnd

end Steps

def LimitIs (W : Nat) (d : MatchGeneratorDriver) : Prop :=
  d.storage.maxWindowSize = W + d.dictionaryRetainedBudget

theorem LimitIs.retire {W e : Nat} {d : MatchGeneratorDriver} (h : LimitIs W d) :
    LimitIs W (d.retireDictionaryBudget e).1 := by
  unfold LimitIs at h ⊢
  rw [retireDictionaryBudget_eq]
  simp only [MatcherStorage.setMaxWindowSize_max]
  omega

theorem LimitIs.trim {W : Nat} {d d' : MatchGeneratorDriver} (h : LimitIs W d)
    (hd : d.trimAfterBudgetRetire = some d') : LimitIs W d' := by
  induction hn : d.storage.live.length using Nat.strongRecOn generalizing d with
  | ind n ih =>
    rw [trimAfterBudgetRetire] at hd
    split at hd
    · cases hd
    · rename_i s e hs
      obtain ⟨s₁, e₁, hs₁, -, -, hmax, -⟩ := d.storage.trimToWindow_spec
      rw [hs] at hs₁
      cases hs₁
      have hl : LimitIs W { d with storage := s } := hmax.trans h
      split at hd
      · cases hd
        exact hl
      · rename_i h0
        have hlt := MatcherStorage.trimToWindow_length hs h0
        refine ih _ ?_ hl.retire hd rfl
        rw [retireDictionaryBudget_live]
        change s.live.length < n
        omega

theorem LimitIs.commit {W len : Nat} {d d' : MatchGeneratorDriver} (h : LimitIs W d)
    (hd : d.commitFilled len = some d') : LimitIs W d' := by
  obtain ⟨⟨s, e⟩, hs, hd⟩ := Option.bind_eq_some_iff.mp hd
  have hl : LimitIs W { d with storage := s } :=
    (MatcherStorage.commitBlock_committed hs).1.maxWindowSize.trans h
  dsimp only at hd
  split at hd
  · exact hl.retire.trim hd
  · cases hd
    exact hl.retire

end MatchGeneratorDriver

namespace FrameState

open MatchGeneratorDriver

theorem run_limit {W : Nat} {steps : List FrameStep} {t t' : FrameState} (h : LimitIs W t.driver)
    (ht : t.run steps = some t') : LimitIs W t'.driver := by
  induction steps generalizing t with
  | nil =>
    cases ht
    exact h
  | cons x rest ih =>
    obtain ⟨t₁, ht₁, ht⟩ := Option.bind_eq_some_iff.mp ht
    refine ih ?_ ht
    cases x with
    | fill bytes =>
      obtain ⟨d, hd, rfl⟩ := Option.map_eq_some_iff.mp ht₁
      rw [fillInPlace, Option.map_eq_some_iff] at hd
      obtain ⟨s, hs, rfl⟩ := hd
      exact (MatcherStorage.fillInPlace_spec hs).maxWindowSize.trans h
    | commit len =>
      obtain ⟨d, hd, rfl⟩ := Option.map_eq_some_iff.mp ht₁
      exact h.commit hd
    | scan =>
      obtain ⟨s, hs, rfl⟩ := Option.map_eq_some_iff.mp ht₁
      exact (MatcherStorage.scanBlock_spec hs).1.maxWindowSize.trans h
    | scanLongDistance sequences =>
      obtain ⟨s, hs, rfl⟩ := Option.map_eq_some_iff.mp ht₁
      exact (MatcherStorage.scanLongDistance_max hs).trans h

/-- The accounts are kept over every run that splits no block of the row backend. -/
theorem run_accounted {W : Nat} {dict : List UInt8} {steps : List FrameStep} {t t' : FrameState}
    (h : Accounted W dict t.output t.driver) (ht : t.run steps = some t')
    (hblocks : ∀ len, .commit len ∈ steps → len ≤ W)
    (hrow : ∀ q, .scanLongDistance q ∈ steps → t.driver.storage.tag ≠ some .row) :
    Accounted W dict t'.output t'.driver ∧ t'.driver.storage.tag = t.driver.storage.tag := by
  induction steps generalizing t with
  | nil =>
    cases ht
    exact ⟨h, rfl⟩
  | cons x rest ih =>
    obtain ⟨t₁, ht₁, ht⟩ := Option.bind_eq_some_iff.mp ht
    have hx : Accounted W dict t₁.output t₁.driver ∧
        t₁.driver.storage.tag = t.driver.storage.tag := by
      cases x with
      | fill bytes =>
        obtain ⟨d, hd, rfl⟩ := Option.map_eq_some_iff.mp ht₁
        exact h.fill hd
      | commit len =>
        obtain ⟨d, hd, rfl⟩ := Option.map_eq_some_iff.mp ht₁
        exact h.commit (hblocks len List.mem_cons_self) hd
      | scan =>
        obtain ⟨s, hs, rfl⟩ := Option.map_eq_some_iff.mp ht₁
        exact h.scan hs
      | scanLongDistance sequences =>
        obtain ⟨s, hs, rfl⟩ := Option.map_eq_some_iff.mp ht₁
        exact h.scanLongDistance (hrow sequences List.mem_cons_self) hs
    have hrest := ih hx.1 ht (fun len hm => hblocks len (List.mem_cons_of_mem x hm))
      (fun q hm => hx.2 ▸ hrow q (List.mem_cons_of_mem x hm))
    exact ⟨hrest.1, hrest.2.trans hx.2⟩

end FrameState

/-- An offset the decoder resolves with `produced` bytes of output behind it: into that output as
far as the window, and into the dictionary while the output is within the window. -/
def Resolvable (W dictLen produced offset : Nat) : Prop :=
  offset ≤ W ∧ offset ≤ produced ∨ produced ≤ W ∧ offset ≤ produced + dictLen

/-- The output ahead of the newest block. -/
def FrameState.produced (t : FrameState) : Nat :=
  t.output.length - t.driver.storage.lastBlockLen

/-- What holds when the newest block is searched. Once the output ahead of it exceeds the window,
a block-evicting backend holds no dictionary byte and is back at the window, and no backend
searches farther than the window. -/
structure WindowContract (W : Nat) (dict : List UInt8) (t : FrameState) : Prop where
  suffix : t.driver.storage.live <:+ dict ++ t.output
  evicted : t.driver.storage.tag ≠ none → W < t.produced →
    t.driver.storage.live <:+ t.output ∧ t.driver.dictionaryRetainedBudget = 0 ∧
      t.driver.storage.maxWindowSize = W
  searched : W < t.produced → t.driver.storage.reach ≤ W
  resolvable : ∀ offset, offset ≤ t.driver.storage.reach →
    Resolvable W dict.length t.produced offset
  commits : ∀ len, len ≤ W → len ≤ t.driver.storage.uncommitted.length →
    t.driver.storage.staged = false → (t.driver.commitFilled len).isSome

namespace MatchGeneratorDriver

section Contract

variable {W : Nat} {dict : List UInt8} {t : FrameState}

theorem Accounted.length_le (h : Accounted W dict t.output t.driver) :
    t.driver.storage.live.length ≤ dict.length + t.output.length := by
  simpa using h.suffix.length_le

theorem Accounted.evicted (h : Accounted W dict t.output t.driver)
    (hb : t.driver.storage.tag ≠ none) (hW : W < t.produced) :
    t.driver.dictionaryRetainedBudget = 0 ∧
      t.driver.storage.live.length ≤ W + t.driver.storage.lastBlockLen := by
  have hlim := h.ledger.limit
  have hbud := h.ledger.budget
  have hfit := h.fits
  unfold FrameState.produced at hW
  cases hs : t.driver.storage with
  | simple m => simp [hs, MatcherStorage.tag] at hb
  | blocks b w =>
    rw [hs] at hlim hbud hfit hW
    have hlen : (MatcherStorage.blocks b w).live.length = w.windowSize := w.length_live
    have hfit : w.windowSize ≤ w.maxWindowSize + b.slack w.lastBlockLen := hfit
    have hslack : b.slack w.lastBlockLen ≤ w.lastBlockLen := by
      cases b <;> simp [BlockBackend.slack]
    have hmax : (MatcherStorage.blocks b w).maxWindowSize = w.maxWindowSize := rfl
    have hlast : (MatcherStorage.blocks b w).lastBlockLen = w.lastBlockLen := rfl
    omega

/-- How far a search may reach: not beyond what the window holds, and only as far as the announced
window once the output exceeds it. -/
theorem Accounted.reach (h : Accounted W dict t.output t.driver) :
    t.driver.storage.reach ≤ dict.length + t.produced ∧
      (W < t.produced → t.driver.storage.reach ≤ W) := by
  have hle := h.length_le
  have hev := h.evicted
  have hpl := h.placed
  have han := h.announces
  have hde := h.dictEnd
  unfold FrameState.produced at hev ⊢
  cases hs : t.driver.storage with
  | blocks b w =>
    rw [hs] at hle hev
    have hlen : (MatcherStorage.blocks b w).live.length = w.windowSize := w.length_live
    have hlast : (MatcherStorage.blocks b w).lastBlockLen = w.lastBlockLen := rfl
    have hreach : (MatcherStorage.blocks b w).reach = w.windowSize - w.lastBlockLen := rfl
    refine ⟨by omega, ?_⟩
    intro hW
    have := (hev (by simp [MatcherStorage.tag]) hW).2
    omega
  | simple m =>
    rw [hs] at hle hpl han hde
    have hlen : (MatcherStorage.simple m).live.length = m.committedLen := m.length_live
    have hlast : (MatcherStorage.simple m).lastBlockLen = m.committedLen - m.lastBlockStart := rfl
    have hpl : m.lastBlockStart ≤ m.committedLen := hpl
    have han : 1 <<< m.windowLog = W := han
    have hde : m.effectiveDictEnd = 0 ∨
        m.effectiveDictEnd + t.output.length ≤ m.committedLen := by rwa [hlen] at hde
    have hreach : (MatcherStorage.simple m).reach = m.lastBlockStart - m.windowLow := rfl
    refine ⟨by omega, ?_⟩
    intro hW
    rw [hreach, FastWindow.windowLow, han]
    split
    · rename_i hin
      omega
    · omega

theorem Accounted.contract (h : Accounted W dict t.output t.driver) :
    WindowContract W dict t := by
  obtain ⟨hr, hrw⟩ := h.reach
  refine ⟨h.suffix, ?_, hrw, ?_, fun len hlen hu hst => commitFilled_total h hlen hu hst⟩
  · intro hb hW
    obtain ⟨h0, hl⟩ := h.evicted hb hW
    have hlim := h.ledger.limit
    refine ⟨?_, h0, by omega⟩
    refine List.suffix_of_suffix_length_le h.suffix (List.suffix_append dict t.output) ?_
    unfold FrameState.produced at hW
    omega
  · intro offset hoff
    by_cases hW : W < t.produced
    · left
      have := hrw hW
      omega
    · right
      omega

end Contract

theorem start_accounted {f : FrameShape} {dict : Option (List UInt8)} {d : MatchGeneratorDriver}
    (h : f.start dict = some d) : Accounted f.window (dict.getD []) [] d := by
  cases dict with
  | none =>
    cases h
    exact reset_accounted f []
  | some dict => exact prime_accounted h

/-- Over every frame: the limit beyond the announced window is the dictionary's budget, at every
step; and the window keeps its contract wherever no block of the row backend was split. -/
theorem dictionary_window_budget (f : FrameShape) (dict : Option (List UInt8))
    (d : MatchGeneratorDriver) (hstart : f.start dict = some d) (steps : List FrameStep)
    (t : FrameState) (hrun : FrameState.run ⟨d, []⟩ steps = some t)
    (hblocks : ∀ len, .commit len ∈ steps → len ≤ f.window) :
    t.driver.storage.maxWindowSize = f.window + t.driver.dictionaryRetainedBudget ∧
      ((∀ q, .scanLongDistance q ∈ steps → d.storage.tag ≠ some .row) →
        WindowContract f.window (dict.getD []) t) := by
  have h := start_accounted hstart
  refine ⟨@FrameState.run_limit f.window steps ⟨d, []⟩ t h.ledger.limit hrun, ?_⟩
  intro hrow
  exact (FrameState.run_accounted h hrun hblocks hrow).1.contract

/-- A frame with a window of 1 KiB. -/
def smallFrame (backend : Option BlockBackend) : FrameShape where
  backend := backend
  windowLog := 10
  floor := 0
  sizeLog := none
  attachOk := true
  reachLog := 20
  windowLog_ge := by decide
  windowLog_le := by decide

/-- Two windows of output and one byte more, block by block. -/
def twoWindows : List FrameStep :=
  [.fill (List.replicate 2049 0), .commit 1024, .scan, .commit 1024, .scan, .commit 1]

theorem commit_twoWindows {len : Nat} (h : .commit len ∈ twoWindows) : len ≤ 1024 := by
  simp only [twoWindows, List.mem_cons, FrameStep.commit.injEq, reduceCtorEq, false_or,
    List.not_mem_nil, or_false] at h
  omega

theorem dictionary_window_budget_two_windows :
    ∃ d t, (smallFrame (some .dfast)).start (some (List.replicate 100 7)) = some d ∧
      FrameState.run ⟨d, []⟩ twoWindows = some t ∧ t.produced = 2048 ∧
      t.driver.storage.maxWindowSize = 1024 + t.driver.dictionaryRetainedBudget ∧
      WindowContract 1024 (List.replicate 100 7) t := by
  have hsome : (((smallFrame (some .dfast)).start (some (List.replicate 100 7))).bind fun d =>
      FrameState.run ⟨d, []⟩ twoWindows).any (fun t => decide (t.produced = 2048)) = true := by
    decide +kernel
  obtain ⟨t, ht, hp⟩ := (Option.any_eq_true _ _).mp hsome
  obtain ⟨d, hd, hrun⟩ := Option.bind_eq_some_iff.mp ht
  obtain ⟨hlim, hc⟩ := dictionary_window_budget (smallFrame (some .dfast)) _ d hd twoWindows t hrun
    (fun len hm => commit_twoWindows hm)
  exact ⟨d, t, hd, hrun, of_decide_eq_true hp, hlim, 
    hc (fun q hm => absurd hm (by simp [twoWindows, -List.reduceReplicate]))⟩

/-- The Fast backend trims only at twice its limit: two windows on, the dictionary is still in its
history and its limit still holds the dictionary's budget. -/
theorem fast_retains_dictionary :
    ¬ ∀ (f : FrameShape) (dict : List UInt8) (d : MatchGeneratorDriver) (steps : List FrameStep)
      (t : FrameState), f.start (some dict) = some d → FrameState.run ⟨d, []⟩ steps = some t →
      (∀ len, .commit len ∈ steps → len ≤ f.window) → f.window < t.produced →
      t.driver.storage.live <:+ t.output ∧ t.driver.storage.maxWindowSize = f.window := by
  intro hall
  have hsome : (((smallFrame none).start (some (List.replicate 100 7))).bind fun d =>
      FrameState.run ⟨d, []⟩ twoWindows).any (fun t =>
        decide (1024 < t.produced ∧ t.driver.storage.maxWindowSize = 1124)) = true := by
    decide +kernel
  obtain ⟨t, ht, hp⟩ := (Option.any_eq_true _ _).mp hsome
  obtain ⟨d, hd, hrun⟩ := Option.bind_eq_some_iff.mp ht
  obtain ⟨hW, hmax⟩ := of_decide_eq_true hp
  have h := hall (smallFrame none) _ d twoWindows t hd hrun (fun len hm => commit_twoWindows hm) hW
  rw [hmax] at h
  exact absurd h.2 (by decide)

end MatchGeneratorDriver

end Encoding
