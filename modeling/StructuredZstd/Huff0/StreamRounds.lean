import StructuredZstd.Huff0.HufCStream

namespace Huff0.Encoder.HufCStream

/-- The dual-container rounds over any flush. -/
def pairRoundsWith (flush : HufCStream → Option HufCStream) (unroll : Nat) (lastFast : Bool) :
    Nat → HufCStream → List Nat → Option HufCStream
  | 0, s, _ => some s
  | n + 1, s, elts => do
    let s ← flush { s with container := s.container.addGroup lastFast (elts.take unroll) }
    let second := Container.addGroup lastFast {} ((elts.drop unroll).take unroll)
    let s ← flush { s with container := s.container.merge second }
    pairRoundsWith flush unroll lastFast n s (elts.drop (2 * unroll))

def groupRoundsWith (flush : HufCStream → Option HufCStream) (unroll : Nat) (lastFast : Bool)
    (s : HufCStream) (elts : List Nat) : Option HufCStream :=
  if elts.length % (2 * unroll) ≠ 0 then do
    let s ← flush { s with container := s.container.addGroup lastFast (elts.take unroll) }
    let elts := elts.drop unroll
    pairRoundsWith flush unroll lastFast (elts.length / (2 * unroll)) s elts
  else pairRoundsWith flush unroll lastFast (elts.length / (2 * unroll)) s elts

/-- An unrolled run over any flush. -/
def encodeUnrolledWith (flush : HufCStream → Option HufCStream) (unroll : Nat) (lastFast : Bool)
    (s : HufCStream) (elts : List Nat) : Option HufCStream := do
  let rem := elts.length % unroll
  let s ←
    if 0 < rem then flush { s with container := s.container.addSlow (elts.take rem) } else some s
  groupRoundsWith flush unroll lastFast s (elts.drop rem)

/-- A flush whose store of eight bytes must end within the destination. -/
def flushWithin (dst : Nat) (fast : Bool) (s : HufCStream) : Option HufCStream :=
  if s.committed.length + 8 ≤ dst then some (s.flushBits fast) else none

/-- `encodeOneStream` with every store checked against the destination. -/
def encodeOneStreamWithin (dst tableLog : Nat) (s : HufCStream) (elts : List Nat) :
    Option HufCStream :=
  match tableLog with
  | 11 => encodeUnrolledWith (flushWithin dst true) 5 false s elts
  | 10 => encodeUnrolledWith (flushWithin dst true) 5 true s elts
  | 9 => encodeUnrolledWith (flushWithin dst true) 6 false s elts
  | 8 => encodeUnrolledWith (flushWithin dst true) 7 false s elts
  | 7 => encodeUnrolledWith (flushWithin dst true) 8 false s elts
  | _ => encodeUnrolledWith (flushWithin dst false) 4 false s elts

def closeWithin (dst : Nat) (s : HufCStream) : Option (List UInt8) :=
  if s.committed.length + 8 ≤ dst then some s.close else none

variable {flush : HufCStream → Option HufCStream} {unroll : Nat} {fast lastFast : Bool}
  {s : HufCStream} {elts : List Nat}

section Plain

/-- A flush that stops the run or does what `flushBits` does. -/
def Refines (flush : HufCStream → Option HufCStream) (fast : Bool) : Prop :=
  ∀ s s', flush s = some s' → s' = s.flushBits fast

theorem pairRoundsWith_refines (h : Refines flush fast) (n : Nat) {s' : HufCStream}
    (hrun : pairRoundsWith flush unroll lastFast n s elts = some s') :
    s' = pairRounds unroll fast lastFast n s elts := by
  induction n generalizing s elts with
  | zero => exact (Option.some.inj hrun).symm
  | succ n ih =>
    obtain ⟨s₁, h₁, hrun⟩ := Option.bind_eq_some_iff.mp hrun
    obtain ⟨s₂, h₂, hrun⟩ := Option.bind_eq_some_iff.mp hrun
    cases h _ _ h₁
    cases h _ _ h₂
    exact ih hrun

theorem groupRoundsWith_refines (h : Refines flush fast) {s' : HufCStream}
    (hrun : groupRoundsWith flush unroll lastFast s elts = some s') :
    s' = groupRounds unroll fast lastFast s elts := by
  unfold groupRoundsWith at hrun
  unfold groupRounds
  split at hrun
  · rename_i hodd
    obtain ⟨s₁, h₁, hrun⟩ := Option.bind_eq_some_iff.mp hrun
    cases h _ _ h₁
    rw [if_pos hodd]
    exact pairRoundsWith_refines h _ hrun
  · rename_i heven
    rw [if_neg heven]
    exact pairRoundsWith_refines h _ hrun

/-- A run whose flushes all go through is the plain run. -/
theorem encodeUnrolledWith_refines (h : Refines flush fast) {s' : HufCStream}
    (hrun : encodeUnrolledWith flush unroll lastFast s elts = some s') :
    s' = encodeUnrolled unroll fast lastFast s elts := by
  simp only [encodeUnrolledWith] at hrun
  simp only [encodeUnrolled]
  split at hrun
  · rename_i hrem
    obtain ⟨s₁, h₁, hrun⟩ := Option.bind_eq_some_iff.mp hrun
    cases h _ _ h₁
    rw [if_pos hrem]
    exact groupRoundsWith_refines h hrun
  · rename_i hrem
    rw [if_neg hrem]
    exact groupRoundsWith_refines h hrun

theorem flushWithin_refines (dst : Nat) (fast : Bool) : Refines (flushWithin dst fast) fast := by
  intro s s' h
  unfold flushWithin at h
  split at h
  · exact (Option.some.inj h).symm
  · cases h

theorem encodeOneStreamWithin_refines {dst tableLog : Nat} {s' : HufCStream}
    (hrun : encodeOneStreamWithin dst tableLog s elts = some s') :
    s' = s.encodeOneStream tableLog elts := by
  unfold encodeOneStreamWithin at hrun
  unfold encodeOneStream
  -- the last branch meets the first five again in the other match
  split
  all_goals split at hrun
  all_goals first
    | contradiction
    | exact encodeUnrolledWith_refines (flushWithin_refines dst _) hrun

end Plain

section Rule

variable {P : HufCStream → List Nat → Prop}

/-- A round gathers a group of codes and flushes; it keeps an invariant on the stream and the codes
left to write. -/
def Keeps (flush : HufCStream → Option HufCStream) (unroll : Nat)
    (P : HufCStream → List Nat → Prop) (gather : Container → List Nat → Container) : Prop :=
  ∀ s elts rest, elts.length ≤ unroll → P s (elts ++ rest) →
    ∃ s', flush { s with container := gather s.container elts } = some s' ∧ P s' rest

/-- A round over the next group. -/
theorem Keeps.next {gather : Container → List Nat → Container} (h : Keeps flush unroll P gather)
    {k : Nat} (hk : k ≤ unroll) (hs : P s elts) :
    ∃ s', flush { s with container := gather s.container (elts.take k) } = some s' ∧
      P s' (elts.drop k) := by
  apply h s (elts.take k) (elts.drop k)
  · exact (List.length_take_le k elts).trans hk
  · rwa [List.take_append_drop]

variable (hgroup : Keeps flush unroll P (Container.addGroup lastFast))
  (hmerge : Keeps flush unroll P fun c elts => c.merge (Container.addGroup lastFast {} elts))

include hgroup hmerge

theorem pairRoundsWith_run (n : Nat) (hs : P s elts) :
    ∃ s', pairRoundsWith flush unroll lastFast n s elts = some s' ∧
      P s' (elts.drop (n * (2 * unroll))) := by
  induction n generalizing s elts with
  | zero =>
    refine ⟨s, rfl, ?_⟩
    rwa [Nat.zero_mul, List.drop_zero]
  | succ n ih =>
    obtain ⟨s₁, h₁, hs₁⟩ := hgroup.next (Nat.le_refl _) hs
    obtain ⟨s₂, h₂, hs₂⟩ := hmerge.next (Nat.le_refl _) hs₁
    rw [List.drop_drop, ← Nat.two_mul] at hs₂
    obtain ⟨s', h', hs'⟩ := ih hs₂
    refine ⟨s', ?_, ?_⟩
    · simp only [pairRoundsWith, h₁, h₂, h', Option.bind_eq_bind, Option.bind_some]
    · rwa [List.drop_drop, Nat.add_comm, ← Nat.add_one_mul] at hs'

theorem groupRoundsWith_run (hdvd : unroll ∣ elts.length) (hs : P s elts) :
    ∃ s', groupRoundsWith flush unroll lastFast s elts = some s' ∧ P s' [] := by
  have hpairs : ∀ {s elts}, 2 * unroll ∣ elts.length → P s elts →
      ∃ s', pairRoundsWith flush unroll lastFast (elts.length / (2 * unroll)) s elts = some s' ∧
        P s' [] := by
    intro s elts heven hs
    obtain ⟨s', h', hs'⟩ := pairRoundsWith_run hgroup hmerge (elts.length / (2 * unroll)) hs
    rw [Nat.div_mul_cancel heven, List.drop_length] at hs'
    exact ⟨s', h', hs'⟩
  unfold groupRoundsWith
  split
  · rename_i hodd
    have hrest : 2 * unroll ∣ (elts.drop unroll).length := by
      obtain ⟨q, hq⟩ := hdvd
      have hq2 : q % 2 = 1 := by
        by_contra heven
        apply hodd
        rw [hq, Nat.mul_comm 2, Nat.mul_mod_mul_left, show q % 2 = 0 by omega, Nat.mul_zero]
      refine ⟨q / 2, ?_⟩
      rw [List.length_drop, hq, Nat.mul_comm 2, Nat.mul_assoc]
      conv_lhs => rw [← Nat.div_add_mod q 2, hq2, Nat.mul_add, Nat.mul_one, Nat.add_sub_cancel]
    obtain ⟨s₁, h₁, hs₁⟩ := hgroup.next (Nat.le_refl _) hs
    obtain ⟨s', h', hs'⟩ := hpairs hrest hs₁
    refine ⟨s', ?_, hs'⟩
    simp only [h₁, h', Option.bind_eq_bind, Option.bind_some]
  · rename_i heven
    exact hpairs (Nat.dvd_of_mod_eq_zero (not_not.mp heven)) hs

/-- What every round keeps, an unrolled run keeps to its last code. -/
theorem encodeUnrolledWith_run (hslow : Keeps flush unroll P Container.addSlow) (hpos : 0 < unroll)
    (hs : P s elts) :
    ∃ s', encodeUnrolledWith flush unroll lastFast s elts = some s' ∧ P s' [] := by
  have hrem := (Nat.mod_lt elts.length hpos).le
  have hdvd : unroll ∣ (elts.drop (elts.length % unroll)).length := by
    rw [List.length_drop]
    exact Nat.dvd_sub_mod _
  simp only [encodeUnrolledWith]
  split
  · obtain ⟨s₁, h₁, hs₁⟩ := hslow.next hrem hs
    obtain ⟨s', h', hs'⟩ := groupRoundsWith_run hgroup hmerge hdvd hs₁
    refine ⟨s', ?_, hs'⟩
    simp only [h₁, h', Option.bind_eq_bind, Option.bind_some]
  · rename_i h0
    apply groupRoundsWith_run hgroup hmerge hdvd
    rwa [Nat.eq_zero_of_not_pos h0, List.drop_zero]

end Rule

end Huff0.Encoder.HufCStream
