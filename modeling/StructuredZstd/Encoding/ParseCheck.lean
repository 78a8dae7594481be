import StructuredZstd.Encoding.Sequences

namespace Encoding.Sequences

open Lz

/-- Every sequence with the position its match starts at. -/
def placed : Nat → List ExternalSequence → List (Nat × ExternalSequence)
  | _, [] => []
  | position, s :: rest => (position + s.litLen, s) :: placed (position + s.len) rest

def covered (sequences : List ExternalSequence) : Nat :=
  (sequences.map ExternalSequence.len).sum

/-- The lengths of the regions that end with a delimiter; the first has `opened` bytes already. -/
def regions : Nat → List ExternalSequence → List Nat
  | _, [] => []
  | opened, s :: rest =>
    if s.isDelimiter then (opened + s.litLen) :: regions 0 rest else regions (opened + s.len) rest

/-- The output after the match of a sequence, copied byte by byte from dictionary and output. -/
def extendBy (dict : List UInt8) (s : ExternalSequence) (out : List UInt8) : List UInt8 :=
  (copyMatch s.offset s.matchLen (dict ++ out)).drop dict.length

/-- The parse carried out, with its literals taken from where they lie in `src`. -/
def execute (dict src : List UInt8) : List UInt8 → List ExternalSequence → List UInt8
  | out, [] => out ++ src.drop out.length
  | out, s :: rest =>
    execute dict src (extendBy dict s (out ++ (src.drop out.length).take s.litLen)) rest

section Layout

variable {seqs : List ExternalSequence} {s : ExternalSequence}

theorem covered_cons (s : ExternalSequence) (rest : List ExternalSequence) :
    covered (s :: rest) = s.len + covered rest := by
  simp [covered]

theorem isDelimiter_iff : s.isDelimiter = true ↔ s.offset = 0 ∧ s.matchLen = 0 := by
  simp [ExternalSequence.isDelimiter]

theorem placed_le {p q : Nat} (h : (q, s) ∈ placed p seqs) :
    p + s.litLen ≤ q ∧ q + s.matchLen ≤ p + covered seqs := by
  induction seqs generalizing p with
  | nil => cases h
  | cons t rest ih =>
    rw [covered_cons, ExternalSequence.len]
    rw [placed, List.mem_cons] at h
    rcases h with heq | h
    · cases heq
      omega
    · have := ih h
      simp only [ExternalSequence.len] at this
      omega

theorem forall_placed_cons {P : Nat → ExternalSequence → Prop} {p : Nat} :
    (∀ q t, (q, t) ∈ placed p (s :: seqs) → P q t) ↔
      P (p + s.litLen) s ∧ ∀ q t, (q, t) ∈ placed (p + s.len) seqs → P q t := by
  constructor
  · intro h
    exact ⟨h _ _ List.mem_cons_self, fun q t ht => h q t (List.mem_cons_of_mem _ ht)⟩
  · rintro ⟨hs, hrest⟩ q t ht
    rw [placed, List.mem_cons] at ht
    rcases ht with heq | ht
    · cases heq
      exact hs
    · exact hrest q t ht

end Layout

/-- A match a decoder can follow, that ends within the input. -/
structure Followable (srcLen window dictLen position : Nat) (s : ExternalSequence) : Prop where
  long : minMatch ≤ s.matchLen
  reach : Reaches window dictLen position s.offset
  fits : position + s.matchLen ≤ srcLen

section Validation

variable {srcLen window dictLen maxBlock : Nat} {explicitDelimiters : Bool}

/-- A match passes when it can be followed, and stops the loop when it cannot. -/
theorem validateLoop_match {s : ExternalSequence} {rest : List ExternalSequence} {index p b : Nat}
    (hspace : srcLen + dictLen + 2 ^ 33 ≤ 2 ^ 64) (hs : s.InU32)
    (hp : p + s.litLen < srcLen + 2 ^ 32) (hmatch : s.isDelimiter = false) :
    (Followable srcLen window dictLen (p + s.litLen) s →
      validateLoop srcLen window dictLen explicitDelimiters maxBlock index p b (s :: rest) =
        validateLoop srcLen window dictLen explicitDelimiters maxBlock (index + 1) (p + s.len) b
          rest) ∧
      (¬Followable srcLen window dictLen (p + s.litLen) s →
        ∃ e, validateLoop srcLen window dictLen explicitDelimiters maxBlock index p b (s :: rest) =
          some (.error e)) := by
  have hmatchLen := hs.matchLen
  have hadd : u64Add p s.litLen = some (p + s.litLen) := if_pos (by omega)
  obtain ⟨reach, hreach, hreaches⟩ : ∃ reach,
      (if window < p + s.litLen then some window else u64Add (p + s.litLen) dictLen) =
        some reach ∧
      (Reaches window dictLen (p + s.litLen) s.offset ↔ s.offset ≠ 0 ∧ s.offset ≤ reach) := by
    rw [Reaches]
    split
    · exact ⟨_, rfl, Iff.rfl⟩
    · exact ⟨_, if_pos (by omega), Iff.rfl⟩
  have hend : u64Add (p + s.litLen) s.matchLen = some (p + s.litLen + s.matchLen) :=
    if_pos (by omega)
  rw [validateLoop, hadd]
  dsimp only
  rw [if_neg (by simp [hmatch]), hreach]
  dsimp only
  rw [hend]
  dsimp only
  constructor
  · rintro ⟨hlong, hable, hfits⟩
    obtain ⟨hoff, hle⟩ := hreaches.mp hable
    rw [if_neg hoff, if_neg (by omega), if_neg (by omega), if_neg (by omega), Nat.add_assoc]
    rfl
  · intro hnot
    split_ifs with hoff hshort hfar hpast
    · exact ⟨_, rfl⟩
    · exact ⟨_, rfl⟩
    · exact ⟨_, rfl⟩
    · exact ⟨_, rfl⟩
    · exact absurd ⟨by omega, hreaches.mpr ⟨hoff, by omega⟩, by omega⟩ hnot

/-- No sum overflows, and the loop gets through exactly the parses whose matches can be followed
and whose delimited regions are short enough. -/
theorem validateLoop_iff {seqs : List ExternalSequence}
    (hspace : srcLen + dictLen + 2 ^ 33 ≤ 2 ^ 64) (hu32 : ∀ s ∈ seqs, s.InU32)
    {index p b : Nat} (hb : b ≤ p)
    (hlits : (seqs.map ExternalSequence.litLen).sum < 2 ^ 32)
    (hp : p + (seqs.map ExternalSequence.litLen).sum < srcLen + 2 ^ 32) :
    ∃ v, validateLoop srcLen window dictLen explicitDelimiters maxBlock index p b seqs = some v ∧
      ∀ q, v = .ok q ↔ q = p + covered seqs ∧
        (∀ q s, (q, s) ∈ placed p seqs → s.isDelimiter = false →
          Followable srcLen window dictLen q s) ∧
        (explicitDelimiters = true → ∀ len ∈ regions (p - b) seqs, len ≤ maxBlock) := by
  induction seqs generalizing index p b with
  | nil =>
    refine ⟨_, rfl, fun q => ?_⟩
    constructor
    · intro h
      cases h
      exact ⟨rfl, nofun, nofun⟩
    · rintro ⟨rfl, -⟩
      rfl
  | cons s rest ih =>
    have hs := hu32 s List.mem_cons_self
    have hrest : ∀ t ∈ rest, t.InU32 := fun t ht => hu32 t (List.mem_cons_of_mem _ ht)
    simp only [List.map_cons, List.sum_cons] at hlits hp
    have hlen : s.len = s.litLen + s.matchLen := rfl
    cases hdelim : s.isDelimiter with
    | true =>
      have hzero := (isDelimiter_iff.mp hdelim).2
      have hadd : u64Add p s.litLen = some (p + s.litLen) := if_pos (by omega)
      rw [validateLoop, hadd]
      simp only [forall_placed_cons, covered_cons, regions, hdelim, if_true, hlen, hzero,
        Nat.add_zero, Bool.true_eq_false, false_imp_iff, true_and]
      cases explicitDelimiters with
      | true =>
        by_cases hbig : maxBlock < p + s.litLen - b
        · simp only [if_true, if_pos hbig]
          refine ⟨_, rfl, fun q => ⟨nofun, ?_⟩⟩
          rintro ⟨-, -, hregions⟩
          have := hregions trivial _ List.mem_cons_self
          omega
        · simp only [if_true, if_neg hbig]
          obtain ⟨v, hv, hiff⟩ := @ih hrest (index + 1) (p + s.litLen) (p + s.litLen)
            (Nat.le_refl _) (by omega) (by omega)
          refine ⟨v, hv, fun q => ?_⟩
          have hfirst : p - b + s.litLen ≤ maxBlock := by omega
          rw [hiff, Nat.sub_self, Nat.add_assoc]
          simp [hfirst]
      | false =>
        obtain ⟨v, hv, hiff⟩ := @ih hrest (index + 1) (p + s.litLen) b
          (by omega) (by omega) (by omega)
        refine ⟨v, by simpa using hv, fun q => ?_⟩
        rw [hiff, Nat.add_assoc]
        simp
    | false =>
      obtain ⟨hpass, hstop⟩ := @validateLoop_match srcLen window dictLen maxBlock
        explicitDelimiters s rest index p b hspace hs (by omega) hdelim
      have hregions : p - b + s.len = p + s.len - b := by omega
      simp only [forall_placed_cons, covered_cons, regions, hdelim, Bool.false_eq_true, if_false,
        true_imp_iff, hregions]
      by_cases hfollow : Followable srcLen window dictLen (p + s.litLen) s
      · have hfits := hfollow.fits
        obtain ⟨v, hv, hiff⟩ := @ih hrest (index + 1) (p + s.len) b
          (by omega) (by omega) (by omega)
        refine ⟨v, (hpass hfollow).trans hv, fun q => ?_⟩
        rw [hiff, Nat.add_assoc]
        simp [hfollow]
      · obtain ⟨e, he⟩ := hstop hfollow
        refine ⟨_, he, fun q => ⟨nofun, ?_⟩⟩
        rintro ⟨-, ⟨hthis, -⟩, -⟩
        exact absurd hthis hfollow

theorem u64Add_eq_some {a b c : Nat} (h : u64Add a b = some c) : c = a + b ∧ c < 2 ^ 64 := by
  rw [u64Add] at h
  split_ifs at h with hfit
  cases h
  exact ⟨rfl, hfit⟩

/-- A round the loop gets through moves the position by the sequence, a match in it can be
followed. -/
theorem validateLoop_cons {s : ExternalSequence} {rest : List ExternalSequence} {index p b q : Nat}
    (h : validateLoop srcLen window dictLen explicitDelimiters maxBlock index p b (s :: rest) =
      some (.ok q)) :
    p + s.len < 2 ^ 64 ∧
      (s.isDelimiter = false → Followable srcLen window dictLen (p + s.litLen) s) ∧
      ∃ b', validateLoop srcLen window dictLen explicitDelimiters maxBlock (index + 1) (p + s.len)
        b' rest = some (.ok q) := by
  have hlen : s.len = s.litLen + s.matchLen := rfl
  rw [validateLoop] at h
  split at h
  · cases h
  · rename_i p1 hadd
    obtain ⟨rfl, hfit⟩ := u64Add_eq_some hadd
    cases hdelim : s.isDelimiter with
    | true =>
      rw [hlen, (isDelimiter_iff.mp hdelim).2, Nat.add_zero]
      rw [if_pos hdelim] at h
      refine ⟨hfit, nofun, ?_⟩
      split at h
      · split at h
        · cases h
        · exact ⟨_, h⟩
      · exact ⟨_, h⟩
    | false =>
      rw [if_neg (by simp [hdelim])] at h
      split at h
      · cases h
      · rename_i hoff
        split at h
        · cases h
        · rename_i hlong
          split at h
          · cases h
          · rename_i reach hreach
            split at h
            · cases h
            · rename_i hnear
              split at h
              · cases h
              · rename_i p2 hend
                obtain ⟨rfl, hfit2⟩ := u64Add_eq_some hend
                split at h
                · cases h
                · rename_i hinside
                  rw [hlen, ← Nat.add_assoc]
                  refine ⟨hfit2, fun _ => ⟨by omega, ⟨hoff, ?_⟩, by omega⟩, _, h⟩
                  by_cases hwin : window < p + s.litLen
                  · rw [if_pos hwin] at hreach ⊢
                    cases hreach
                    exact Nat.not_lt.mp hnear
                  · rw [if_neg hwin] at hreach ⊢
                    obtain ⟨rfl, -⟩ := u64Add_eq_some hreach
                    exact Nat.not_lt.mp hnear

/-- What got through the loop can be followed, wherever its sums may lie. -/
theorem followable_of_validateLoop {seqs : List ExternalSequence} {index p b q : Nat}
    (hp : p < 2 ^ 64) (h : validateLoop srcLen window dictLen explicitDelimiters maxBlock index p b
      seqs = some (.ok q)) :
    q = p + covered seqs ∧ q < 2 ^ 64 ∧ ∀ q s, (q, s) ∈ placed p seqs → s.isDelimiter = false →
      Followable srcLen window dictLen q s := by
  induction seqs generalizing index p b with
  | nil =>
    cases h
    exact ⟨rfl, hp, nofun⟩
  | cons s rest ih =>
    obtain ⟨hfit, hthis, b', hrest⟩ := validateLoop_cons h
    obtain ⟨hq, hlt, hfollow⟩ := ih hfit hrest
    rw [forall_placed_cons, covered_cons]
    exact ⟨by omega, hlt, hthis, hfollow⟩

end Validation

section Comparison

variable {src dict : List UInt8}

theorem slice_eq {α : Type} {xs : List α} {start stop : Nat} (hle : start ≤ stop)
    (hstop : stop ≤ xs.length) :
    slice xs start stop = some ((xs.drop start).take (stop - start)) := if_pos ⟨hle, hstop⟩

theorem append_eq_iff_parts {α : Type} {xs ys target : List α} :
    xs ++ ys = target ↔ xs = target.take xs.length ∧ ys = target.drop xs.length := by
  constructor
  · rintro rfl
    simp
  · rintro ⟨hx, hy⟩
    rw [hx, hy]
    exact List.take_append_drop _ _

/-- Neither comparison reads past an end, and within the reach of the dictionary they tell whether
there is a match. -/
theorem compareMatch_iff {index position offset len : Nat} (hfit : position + len ≤ src.length) :
    ∃ r, compareMatch src dict index position offset ((src.drop position).take len) = some r ∧
      (0 < offset → offset ≤ dict.length + position →
        (r = .ok () ↔ MatchAt (dict ++ src) (dict.length + position) offset len)) := by
  have hlen : ((src.drop position).take len).length = len := by
    rw [List.length_take, List.length_drop]
    omega
  have htarget : ((dict ++ src).drop (dict.length + position)).take len =
      (src.drop position).take len := by
    rw [List.drop_append, List.drop_of_length_le (by omega), List.nil_append,
      Nat.add_sub_cancel_left]
  have hmatchAt := fun hpos hreach => @matchAt_iff _ (dict ++ src) (dict.length + position) offset
    len hpos hreach (by rw [List.length_append]; omega)
  rw [htarget] at hmatchAt
  generalize (src.drop position).take len = target at *
  simp only [compareMatch, hlen]
  by_cases hdict : position < offset
  · rw [if_pos hdict]
    rcases Nat.eq_zero_or_pos len with hzero | hsome
    · refine ⟨.ok (), by simp [hzero], fun hpos hreach => ?_⟩
      have hnil : target = [] := List.eq_nil_of_length_eq_zero (by omega)
      rw [hmatchAt hpos hreach, hzero, hnil]
      simp
    · rw [if_pos (show 0 < min (offset - position) len by omega)]
      by_cases hfar : dict.length < offset - position
      · rw [if_pos hfar]
        exact ⟨_, rfl, fun _ hreach => by omega⟩
      · -- what the match copies: the tail of the dictionary, then the front of the input
        have hcopied : ((dict ++ src).drop (dict.length + position - offset)).take len =
            (dict.drop (dict.length - (offset - position))).take (min (offset - position) len) ++
              src.take (len - (offset - position)) := by
          have hlast : (dict.drop (dict.length - (offset - position))).length =
              offset - position := by
            rw [List.length_drop]
            omega
          rw [show dict.length + position - offset = dict.length - (offset - position) by omega,
            List.drop_append, show dict.length - (offset - position) - dict.length = 0 by omega,
            List.drop_zero, List.take_append, hlast, List.take_eq_take_min, hlast, Nat.min_comm]
        have hfront : ((dict.drop (dict.length - (offset - position))).take
            (min (offset - position) len)).length = min (offset - position) len := by
          rw [List.length_take, List.length_drop]
          omega
        rw [hcopied, append_eq_iff_parts, hfront] at hmatchAt
        rw [if_neg hfar, slice_eq (by omega) (by omega), Nat.add_sub_cancel_left, Option.map_some]
        by_cases hsame : (dict.drop (dict.length - (offset - position))).take
            (min (offset - position) len) = target.take (min (offset - position) len)
        · rw [if_pos hsame]
          dsimp only
          by_cases hruns : min (offset - position) len < len
          · have hmin : min (offset - position) len = offset - position := by omega
            rw [if_pos hruns, hmin, if_neg (by omega), slice_eq (by omega) (by omega)]
            refine ⟨_, rfl, fun hpos hreach => ?_⟩
            rw [hmin] at hsame
            rw [hmatchAt hpos hreach, hmin,
              show position + (offset - position) - offset = 0 by omega, List.drop_zero,
              Nat.zero_add, Nat.sub_zero]
            simp [hsame]
          · have hmin : min (offset - position) len = len := by omega
            have hrest : target.drop len = [] := List.drop_of_length_le (by omega)
            rw [if_neg hruns]
            refine ⟨_, rfl, fun hpos hreach => ?_⟩
            rw [hmin] at hsame
            rw [hmatchAt hpos hreach, show len - (offset - position) = 0 by omega, hmin,
              List.take_zero, hrest]
            simp [hsame]
        · rw [if_neg hsame]
          refine ⟨_, rfl, fun hpos hreach => ?_⟩
          rw [hmatchAt hpos hreach]
          simp [hsame]
  · have hback : dict.length + position - offset = dict.length + (position - offset) := by omega
    have hsource : ((dict ++ src).drop (dict.length + position - offset)).take len =
        (src.drop (position - offset)).take len := by
      rw [hback, List.drop_append, List.drop_of_length_le (by omega), List.nil_append,
        Nat.add_sub_cancel_left]
    rw [hsource] at hmatchAt
    rw [if_neg hdict, if_neg (Nat.lt_irrefl 0)]
    dsimp only
    by_cases hzero : 0 < len
    · rw [if_pos hzero, if_neg (by omega), slice_eq (by omega) (by omega)]
      refine ⟨_, rfl, fun hpos hreach => ?_⟩
      rw [hmatchAt hpos hreach]
      simp
    · rw [if_neg hzero]
      refine ⟨_, rfl, fun hpos hreach => ?_⟩
      rw [hmatchAt hpos hreach]
      have hnil : target = [] := List.eq_nil_of_length_eq_zero (by omega)
      simp [hnil, show len = 0 by omega]

/-- No comparison panics, whatever the parse. -/
theorem reproducesLoop_total (seqs : List ExternalSequence) (index p : Nat) :
    ∃ r, reproducesLoop src dict index p seqs = some r := by
  induction seqs generalizing index p with
  | nil => exact ⟨_, rfl⟩
  | cons s rest ih =>
    rw [reproducesLoop]
    cases hadd : u64Add p s.litLen with
    | none => exact ⟨_, rfl⟩
    | some q =>
      dsimp only
      split_ifs with hdelim
      · exact ih (index + 1) q
      · cases hend : (u64Add q s.matchLen).filter (· ≤ src.length) with
        | none => exact ⟨_, rfl⟩
        | some stop =>
          obtain ⟨hsum, hfit⟩ := Option.filter_eq_some_iff.mp hend
          have hstop : stop = q + s.matchLen := by
            rw [u64Add] at hsum
            split_ifs at hsum
            cases hsum
            rfl
          subst hstop
          have hfit : q + s.matchLen ≤ src.length := by simpa using hfit
          obtain ⟨r, hr, -⟩ := @compareMatch_iff src dict index q s.offset s.matchLen hfit
          dsimp only
          rw [slice_eq (by omega) hfit, Nat.add_sub_cancel_left]
          dsimp only
          rw [hr]
          cases r with
          | error e => exact ⟨_, rfl⟩
          | ok _ => exact ih (index + 1) _

/-- For a parse that can be followed the comparisons tell whether every match is one. -/
theorem reproducesLoop_iff {window : Nat} {seqs : List ExternalSequence} {index p : Nat}
    (hsum : p + covered seqs < 2 ^ 64)
    (hfollow : ∀ q s, (q, s) ∈ placed p seqs → s.isDelimiter = false →
      Followable src.length window dict.length q s) :
    reproducesLoop src dict index p seqs = some (.ok ()) ↔
      ∀ q s, (q, s) ∈ placed p seqs → s.isDelimiter = false →
        MatchAt (dict ++ src) (dict.length + q) s.offset s.matchLen := by
  induction seqs generalizing index p with
  | nil => simp [reproducesLoop, placed]
  | cons s rest ih =>
    rw [covered_cons] at hsum
    rw [forall_placed_cons] at hfollow
    have hlen : s.len = s.litLen + s.matchLen := rfl
    have hadd : u64Add p s.litLen = some (p + s.litLen) := if_pos (by omega)
    have hrest := @ih (index + 1) (p + s.len) (by omega) hfollow.2
    rw [reproducesLoop, hadd, forall_placed_cons, ← hrest]
    dsimp only
    cases hdelim : s.isDelimiter with
    | true =>
      have hzero := (isDelimiter_iff.mp hdelim).2
      simp [hlen, hzero]
    | false =>
      have hable := hfollow.1 hdelim
      have hend : (u64Add (p + s.litLen) s.matchLen).filter (· ≤ src.length) =
          some (p + s.litLen + s.matchLen) := by
        rw [u64Add, if_pos (by omega), Option.filter_some, if_pos]
        simpa using hable.fits
      have hreach := hable.reach.le
      obtain ⟨r, hr, hiff⟩ := @compareMatch_iff src dict index (p + s.litLen) s.offset s.matchLen
        hable.fits
      have hiff := hiff (Nat.pos_of_ne_zero hable.reach.1) hreach
      rw [if_neg (by simp), hend]
      dsimp only
      rw [slice_eq (by omega) hable.fits, Nat.add_sub_cancel_left]
      dsimp only
      rw [hr, ← hiff, Nat.add_assoc]
      cases r with
      | error e => simp
      | ok u => simp [hlen]

end Comparison

section Execution

variable {src dict : List UInt8}

theorem prefix_extendBy (s : ExternalSequence) (out : List UInt8) :
    out <+: extendBy dict s out := by
  obtain ⟨more, hmore⟩ := prefix_copyMatch s.offset s.matchLen (dict ++ out)
  refine ⟨more, ?_⟩
  rw [extendBy, ← hmore, List.append_assoc, List.drop_left]

theorem prefix_execute (seqs : List ExternalSequence) (out : List UInt8) :
    out <+: execute dict src out seqs := by
  induction seqs generalizing out with
  | nil => exact List.prefix_append _ _
  | cons s rest ih =>
    exact (List.prefix_append _ _).trans ((prefix_extendBy s _).trans (ih _))

theorem extendBy_delimiter {s : ExternalSequence} (h : s.isDelimiter = true) (out : List UInt8) :
    extendBy dict s out = out := by
  rw [extendBy, (isDelimiter_iff.mp h).2, copyMatch, List.drop_left]

/-- A match of the text extends the output along the input. -/
theorem extendBy_take {s : ExternalSequence} {q : Nat}
    (h : MatchAt (dict ++ src) (dict.length + q) s.offset s.matchLen) :
    extendBy dict s (src.take q) = src.take (q + s.matchLen) := by
  have hcopy := h.copyMatch
  rw [List.take_length_add_append, Nat.add_assoc, List.take_length_add_append] at hcopy
  rw [extendBy, hcopy, List.drop_left]

theorem matchAt_of_extendBy {window : Nat} {s : ExternalSequence} {q : Nat}
    (hable : Followable src.length window dict.length q s)
    (h : extendBy dict s (src.take q) <+: src) :
    MatchAt (dict ++ src) (dict.length + q) s.offset s.matchLen := by
  have hpos := Nat.pos_of_ne_zero hable.reach.1
  have hreach := hable.reach.le
  have hfits := hable.fits
  have htext : (dict ++ src).take (dict.length + q) = dict ++ src.take q :=
    List.take_length_add_append ..
  have hlen : (dict ++ src.take q).length = dict.length + q := by
    rw [List.length_append, List.length_take]
    omega
  have hcopied : copyMatch s.offset s.matchLen (dict ++ src.take q) =
      dict ++ extendBy dict s (src.take q) := by
    obtain ⟨more, hmore⟩ := prefix_copyMatch s.offset s.matchLen (dict ++ src.take q)
    rw [extendBy, ← hmore, List.append_assoc, List.drop_left]
  have hsize := @length_copyMatch _ s.offset s.matchLen (dict ++ src.take q) hpos (by omega)
  rw [hcopied, hlen, List.length_append] at hsize
  apply MatchAt.of_copyMatch hpos hreach
  · rw [List.length_append]
    omega
  · rw [htext, hcopied, Nat.add_assoc, List.take_length_add_append]
    congr 1
    rw [List.prefix_iff_eq_take.mp h]
    congr 1
    omega

/-- The parse carried out gives the input back exactly where every match of it is one. -/
theorem execute_iff {window : Nat} {seqs : List ExternalSequence} {p : Nat}
    (hp : p + covered seqs ≤ src.length)
    (hfollow : ∀ q s, (q, s) ∈ placed p seqs → s.isDelimiter = false →
      Followable src.length window dict.length q s) :
    execute dict src (src.take p) seqs = src ↔
      ∀ q s, (q, s) ∈ placed p seqs → s.isDelimiter = false →
        MatchAt (dict ++ src) (dict.length + q) s.offset s.matchLen := by
  induction seqs generalizing p with
  | nil =>
    have hlen : (src.take p).length = p := by
      rw [List.length_take]
      omega
    simp [execute, placed, hlen]
  | cons s rest ih =>
    rw [covered_cons] at hp
    rw [forall_placed_cons] at hfollow
    have hlen : s.len = s.litLen + s.matchLen := rfl
    have htake : (src.take p).length = p := by
      rw [List.length_take]
      omega
    have hlits : src.take p ++ (src.drop (src.take p).length).take s.litLen =
        src.take (p + s.litLen) := by
      rw [htake, ← List.take_add]
    have hrest := @ih (p + s.len) (by omega) hfollow.2
    rw [execute, hlits, forall_placed_cons, ← hrest]
    cases hdelim : s.isDelimiter with
    | true =>
      have hzero := (isDelimiter_iff.mp hdelim).2
      simp [extendBy_delimiter hdelim, hlen, hzero]
    | false =>
      have hable := hfollow.1 hdelim
      constructor
      · intro h
        have hpre := @prefix_execute src dict rest (extendBy dict s (src.take (p + s.litLen)))
        rw [h] at hpre
        have hmatch := matchAt_of_extendBy hable hpre
        rw [extendBy_take hmatch, Nat.add_assoc] at h
        exact ⟨fun _ => hmatch, h⟩
      · rintro ⟨hmatch, h⟩
        rw [extendBy_take (hmatch rfl), Nat.add_assoc]
        exact h

end Execution

section Merge

/-- A delimiter's literals handed to the sequence after it. -/
def handOn (litLen : Nat) : List ExternalSequence → List ExternalSequence
  | [] => []
  | next :: rest => { next with litLen := (next.litLen + litLen) % 2 ^ 32 } :: rest

theorem length_handOn (litLen : Nat) (seqs : List ExternalSequence) :
    (handOn litLen seqs).length = seqs.length := by
  cases seqs <;> rfl

/-- What the merge leaves at the front of the array. -/
def mergedFront : List ExternalSequence → List ExternalSequence
  | [] => []
  | s :: rest =>
    if s.isDelimiter then mergedFront (handOn s.litLen rest) else s :: mergedFront rest
termination_by seqs => seqs.length
decreasing_by
  · rw [length_handOn]
    exact Nat.lt_succ_self _
  · exact Nat.lt_succ_self _

theorem drop_eq_cons_of_getElem? {α : Type} {xs : List α} {i : Nat} {x : α} (h : xs[i]? = some x) :
    xs.drop i = x :: xs.drop (i + 1) := by
  obtain ⟨hi, rfl⟩ := List.getElem?_eq_some_iff.mp h
  exact List.drop_eq_getElem_cons hi

/-- One round keeps the front kept so far and the front the rest will leave. -/
theorem mergeStep_front {arr : List ExternalSequence} {kept index : Nat} (hkept : kept ≤ index)
    (hindex : index < arr.length) :
    let (arr', kept') := mergeStep (arr, kept) index
    kept' ≤ index + 1 ∧ arr'.length = arr.length ∧
      arr'.take kept' ++ mergedFront (arr'.drop (index + 1)) =
        arr.take kept ++ mergedFront (arr.drop index) := by
  have hget := List.getElem?_eq_getElem hindex
  simp only [mergeStep, hget]
  rw [drop_eq_cons_of_getElem? hget, mergedFront]
  generalize arr[index] = s at hget ⊢
  cases hdelim : s.isDelimiter with
  | true =>
    simp only [if_true]
    cases hnext : arr[index + 1]? with
    | none =>
      have hend : arr.drop (index + 1) = [] :=
        List.drop_of_length_le (List.getElem?_eq_none_iff.mp hnext)
      refine ⟨Nat.le_succ_of_le hkept, rfl, ?_⟩
      rw [hend]
      rfl
    | some next =>
      have hlt : index + 1 < arr.length := (List.getElem?_eq_some_iff.mp hnext).1
      refine ⟨Nat.le_succ_of_le hkept, List.length_set .., ?_⟩
      dsimp only
      rw [List.take_set_of_le (by omega), drop_eq_cons_of_getElem? hnext, handOn,
        List.drop_set, if_neg (by omega), Nat.sub_self, drop_eq_cons_of_getElem? hnext,
        List.set_cons_zero]
  | false =>
    simp only [Bool.false_eq_true, if_false]
    refine ⟨by omega, List.length_set .., ?_⟩
    rw [List.drop_set_of_lt (by omega), List.take_succ_eq_append_getElem (by simp; omega)]
    simp only [List.getElem_set_self, List.append_assoc, List.singleton_append]
    rw [List.take_set_of_le (Nat.le_refl _)]

theorem mergeBlockDelimiters_eq (seqs : List ExternalSequence) :
    (mergeBlockDelimiters seqs).1.take (mergeBlockDelimiters seqs).2 = mergedFront seqs := by
  have hrun : ∀ n ≤ seqs.length,
      ∃ arr kept, (List.range n).foldl mergeStep (seqs, 0) = (arr, kept) ∧ kept ≤ n ∧
        arr.length = seqs.length ∧ arr.take kept ++ mergedFront (arr.drop n) = mergedFront seqs := by
    intro n
    induction n with
    | zero =>
      intro _
      exact ⟨seqs, 0, rfl, Nat.le_refl _, rfl, rfl⟩
    | succ n ih =>
      intro hn
      obtain ⟨arr, kept, hfold, hkept, hlen, hfront⟩ := ih (by omega)
      have hstep := @mergeStep_front arr kept n hkept (by omega)
      refine ⟨_, _, ?_, hstep.1, hstep.2.1.trans hlen, hstep.2.2.trans hfront⟩
      rw [List.range_succ, List.foldl_append, hfold]
      rfl
  obtain ⟨arr, kept, hfold, -, hlen, hfront⟩ := hrun seqs.length (Nat.le_refl _)
  rw [mergeBlockDelimiters, hfold, ← hfront, List.drop_of_length_le (by omega), mergedFront,
    List.append_nil]

variable {src dict : List UInt8}

/-- Literals taken with the next sequence or before it are the same literals. -/
theorem execute_handOn {litLen : Nat} {seqs : List ExternalSequence} (out : List UInt8)
    (hsum : litLen + (seqs.map ExternalSequence.litLen).sum < 2 ^ 32) :
    execute dict src out (handOn litLen seqs) =
      execute dict src (out ++ (src.drop out.length).take litLen) seqs := by
  have hsplit : ∀ more, out ++ (src.drop out.length).take litLen ++
      (src.drop (out ++ (src.drop out.length).take litLen).length).take more =
        out ++ (src.drop out.length).take (litLen + more) := by
    intro more
    rw [List.append_assoc]
    congr 1
    rw [List.take_add, List.drop_drop]
    congr 1
    rcases Nat.le_total litLen (src.drop out.length).length with hle | hge
    · rw [List.length_append, List.length_take, Nat.min_eq_left hle]
    · rw [List.length_append, List.length_take, Nat.min_eq_right hge,
        List.drop_of_length_le (by rw [List.length_drop]; omega),
        List.drop_of_length_le (by rw [List.length_drop] at hge; omega)]
  cases seqs with
  | nil =>
    have hall : ∀ (xs : List UInt8) more, src.length ≤ more →
        (src.drop xs.length).take more = src.drop xs.length := fun xs more hmore =>
      List.take_of_length_le (by rw [List.length_drop]; omega)
    have hrest := hsplit src.length
    rw [hall _ _ (Nat.le_refl _), hall _ _ (Nat.le_add_left _ _)] at hrest
    exact hrest.symm
  | cons next rest =>
    simp only [List.map_cons, List.sum_cons] at hsum
    rw [handOn, execute, execute, hsplit, Nat.mod_eq_of_lt (by omega), Nat.add_comm next.litLen]
    rfl

theorem execute_mergedFront (seqs : List ExternalSequence) (out : List UInt8)
    (hsum : (seqs.map ExternalSequence.litLen).sum < 2 ^ 32) :
    execute dict src out (mergedFront seqs) = execute dict src out seqs := by
  induction seqs using mergedFront.induct generalizing out with
  | case1 => rw [mergedFront]
  | case2 s rest hdelim ih =>
    simp only [List.map_cons, List.sum_cons] at hsum
    rw [mergedFront, if_pos hdelim, ih, execute_handOn out hsum, execute,
      extendBy_delimiter hdelim]
    cases rest with
    | nil => simp [handOn]
    | cons next rest =>
      simp only [List.map_cons, List.sum_cons, handOn] at hsum ⊢
      rw [Nat.mod_eq_of_lt (by omega)]
      omega
  | case3 s rest hmatch ih =>
    simp only [List.map_cons, List.sum_cons] at hsum
    rw [mergedFront, if_neg hmatch, execute, execute]
    exact ih _ (by omega)

end Merge

/-- A parse that decodes to `src` under the decoder's rules. -/
structure Decodes (dict src : List UInt8) (window : Nat) (explicitDelimiters : Bool)
    (maxBlock : Nat) (seqs : List ExternalSequence) : Prop where
  long : ∀ q s, (q, s) ∈ placed 0 seqs → s.isDelimiter = false → minMatch ≤ s.matchLen
  reach : ∀ q s, (q, s) ∈ placed 0 seqs → s.isDelimiter = false →
    Reaches window dict.length q s.offset
  regions : explicitDelimiters = true → ∀ len ∈ regions 0 seqs, len ≤ maxBlock
  covers : if explicitDelimiters then covered seqs = src.length else covered seqs ≤ src.length
  reproduces : execute dict src [] seqs = src

section Acceptance

variable {dict src : List UInt8} {window maxBlock : Nat} {explicitDelimiters : Bool}
  {seqs : List ExternalSequence}

theorem validateParse_iff (hspace : src.length + dict.length + 2 ^ 33 ≤ 2 ^ 64)
    (hu32 : ∀ s ∈ seqs, s.InU32) (hlits : (seqs.map ExternalSequence.litLen).sum < 2 ^ 32) :
    ∃ v, validateParse src.length window dict.length explicitDelimiters maxBlock seqs = some v ∧
      (v = .ok () ↔
        (∀ q s, (q, s) ∈ placed 0 seqs → s.isDelimiter = false →
          Followable src.length window dict.length q s) ∧
        (explicitDelimiters = true → ∀ len ∈ regions 0 seqs, len ≤ maxBlock) ∧
        if explicitDelimiters then covered seqs = src.length else covered seqs ≤ src.length) := by
  obtain ⟨v, hv, hiff⟩ := @validateLoop_iff src.length window dict.length maxBlock
    explicitDelimiters seqs hspace hu32 0 0 0 (Nat.le_refl _) hlits (by omega)
  rw [validateParse, hv]
  cases v with
  | error e =>
    refine ⟨_, rfl, ⟨nofun, ?_⟩⟩
    rintro ⟨hfollow, hregions, -⟩
    have := (hiff (0 + covered seqs)).mpr ⟨rfl, hfollow, hregions⟩
    cases this
  | ok q =>
    obtain ⟨rfl, hfollow, hregions⟩ := (hiff q).mp rfl
    refine ⟨_, rfl, ?_⟩
    rw [Nat.zero_add]
    cases explicitDelimiters with
    | true => by_cases h : covered seqs = src.length <;> simp_all
    | false => by_cases h : covered seqs ≤ src.length <;> simp_all

/-- The two checks never panic and together let through exactly the parses that decode to the
input, and merging the delimiters changes nothing a parse does. -/
theorem checks_iff_decodes (hspace : src.length + dict.length + 2 ^ 33 ≤ 2 ^ 64)
    (hu32 : ∀ s ∈ seqs, s.InU32) (hlits : (seqs.map ExternalSequence.litLen).sum < 2 ^ 32) :
    (∃ v r, validateParse src.length window dict.length explicitDelimiters maxBlock seqs = some v ∧
      parseReproduces src dict seqs = some r ∧
      (v = .ok () ∧ r = .ok () ↔ Decodes dict src window explicitDelimiters maxBlock seqs)) ∧
      ∀ out, execute dict src out
          ((mergeBlockDelimiters seqs).1.take (mergeBlockDelimiters seqs).2) =
        execute dict src out seqs := by
  refine ⟨?_, fun out => ?_⟩
  · obtain ⟨v, hv, hvalid⟩ := @validateParse_iff dict src window maxBlock explicitDelimiters seqs
      hspace hu32 hlits
    obtain ⟨r, hr⟩ := @reproducesLoop_total src dict seqs 0 0
    refine ⟨v, r, hv, hr, ?_⟩
    have hbelow : (if explicitDelimiters then covered seqs = src.length
        else covered seqs ≤ src.length) → 0 + covered seqs ≤ src.length := by
      split <;> omega
    have hr_iff : r = .ok () ↔ reproducesLoop src dict 0 0 seqs = some (.ok ()) := by
      rw [hr, Option.some.injEq]
    rw [hvalid, hr_iff]
    constructor
    · rintro ⟨⟨hfollow, hregions, hcovers⟩, hsame⟩
      have := hbelow hcovers
      rw [reproducesLoop_iff (by omega) hfollow,
        ← execute_iff (hbelow hcovers) hfollow] at hsame
      exact ⟨fun q s hm hd => (hfollow q s hm hd).long, fun q s hm hd => (hfollow q s hm hd).reach,
        hregions, hcovers, hsame⟩
    · intro h
      have hfollow : ∀ q s, (q, s) ∈ placed 0 seqs → s.isDelimiter = false →
          Followable src.length window dict.length q s := by
        intro q s hm hd
        have := (placed_le hm).2
        have := hbelow h.covers
        exact ⟨h.long q s hm hd, h.reach q s hm hd, by omega⟩
      refine ⟨⟨hfollow, h.regions, h.covers⟩, ?_⟩
      have := hbelow h.covers
      rw [reproducesLoop_iff (by omega) hfollow,
        ← execute_iff (hbelow h.covers) hfollow]
      exact h.reproduces
  · rw [mergeBlockDelimiters_eq]
    exact execute_mergedFront seqs out hlits

/-- Two delimited regions, with a match out of the dictionary that runs on into the output. -/
theorem checks_iff_decodes_dictionary :
    Decodes [120, 121, 122] [121, 122, 121, 122, 113, 121, 122, 113] 16 true 5
      [⟨2, 0, 4⟩, ⟨0, 1, 0⟩, ⟨3, 0, 3⟩] := by
  obtain ⟨⟨v, r, hv, hr, hiff⟩, -⟩ := @checks_iff_decodes [120, 121, 122]
    [121, 122, 121, 122, 113, 121, 122, 113] 16 5 true [⟨2, 0, 4⟩, ⟨0, 1, 0⟩, ⟨3, 0, 3⟩]
    (by decide) (by simp only [List.forall_mem_cons]; exact ⟨⟨by decide, by decide, by decide⟩,
      ⟨by decide, by decide, by decide⟩, ⟨by decide, by decide, by decide⟩, nofun⟩) (by decide)
  have hv' : v = .ok () := Option.some.inj (hv.symm.trans (by decide +kernel))
  have hr' : r = .ok () := Option.some.inj (hr.symm.trans (by decide +kernel))
  exact hiff.mp ⟨hv', hr'⟩

/-- What follows the last delimiter of an explicit parse may be longer than a block. -/
theorem last_region_past_max_block :
    validateParse 6 16 0 true 4 [⟨1, 1, 5⟩] = some (.ok ()) ∧
      parseReproduces [97, 97, 97, 97, 97, 97] [] [⟨1, 1, 5⟩] = some (.ok ()) ∧
      4 < covered [⟨1, 1, 5⟩] := by
  decide +kernel

end Acceptance

end Encoding.Sequences
