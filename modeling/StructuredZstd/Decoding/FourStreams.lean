import StructuredZstd.Decoding.BurstLanes

namespace Decoding

open Bits BitIo Huff0.Decoder

variable {t : HuffmanTable}

/-- The lanes of the burst loop between two rounds, all `n` symbols into their streams. -/
def Lockstep (t : HuffmanTable) (n : Nat) (os : List Opened) (ls : List BurstLane) : Prop :=
  List.Forall₂ (fun o l => ∃ c ≤ 8, l.After t o n c) os ls

section Rounds

variable {n : Nat} {os : List Opened} {ls : List BurstLane}

/-- A burst and a reload, in every lane. -/
theorem Lockstep.round (ht : t.WellFormed) (h : Lockstep t n os ls) {k : Nat}
    (hk : k * t.maxNumBits ≤ 55)
    (hinput : (ls.all fun l => (8 + k * t.maxNumBits) / 8 ≤ l.ip) = true) :
    Lockstep t (n + k) os
      (ls.map fun l => (l.burst t.packedDecode (64 - t.maxNumBits) k).reload1) := by
  induction h with
  | nil => exact .nil
  | @cons o l os ls hlane hrest ih =>
    rw [List.all_cons, Bool.and_eq_true, decide_eq_true_eq] at hinput
    obtain ⟨c, hc, hafter⟩ := hlane
    obtain ⟨c', hc', hburst⟩ := hafter.burst ht (k := k) (by omega)
    refine .cons ⟨c' % 8, by omega, hburst.reload1 (by omega) ?_⟩ (ih hinput.2)
    rw [BurstLane.burst_ip]
    omega

/-- The lanes write as many bytes each. -/
theorem Lockstep.head (h : Lockstep t n os ls) (hos : os ≠ []) :
    (ls.head?.map (·.out.length)).getD 0 = n := by
  cases h with
  | nil => contradiction
  | cons hlane _ =>
    obtain ⟨c, -, hafter⟩ := hlane
    simp only [List.head?_cons, Option.map_some, Option.getD_some, hafter.out, symbolsAt_length]

/-- The constants of the loop. -/
def loopBounds (t : HuffmanTable) (minSegLen : Nat) : LoopBounds where
  symbolsPerBurst := (63 - 8) / t.maxNumBits
  tableShift := 64 - t.maxNumBits
  minSegLen := minSegLen
  bytesPerIterUpper := (8 + (63 - 8) / t.maxNumBits * t.maxNumBits) / 8

/-- No lane leaves the shortest segment, however many rounds there are. -/
theorem Lockstep.rounds (ht : t.WellFormed) (hos : os ≠ []) {minSegLen : Nat} (fuel : Nat)
    (any : Bool) (h : Lockstep t n os ls) (hn : n ≤ minSegLen) :
    ∃ k ≤ minSegLen, Lockstep t k os
      (burstRounds t.packedDecode (loopBounds t minSegLen) fuel any ls).2 := by
  induction fuel generalizing n ls any with
  | zero => exact ⟨n, hn, h⟩
  | succ fuel ih =>
    simp only [burstRounds, h.head hos]
    split
    · rename_i hgo
      obtain ⟨hroom, hinput⟩ := hgo
      exact ih _ (h.round ht (Nat.div_mul_le_self 55 _) hinput) hroom
    · exact ⟨n, hn, h⟩

end Rounds

section Lists

variable {os : List Opened} {lanes : List Lane}

/-- Lanes as they are started. -/
def Started (t : HuffmanTable) (os : List Opened) (lanes : List Lane) : Prop :=
  List.Forall₂ (fun o lane => lane.After t o 0 ∧ lane.Fresh t o) os lanes

/-- Lanes that are all `n` symbols into their streams. -/
def Together (t : HuffmanTable) (n : Nat) (os : List Opened) (lanes : List Lane) : Prop :=
  List.Forall₂ (fun o lane => lane.After t o n) os lanes

theorem Started.together (h : Started t os lanes) : Together t 0 os lanes :=
  h.imp fun _ _ hlane => hlane.1

/-- Lanes with input for a round can be loaded. -/
theorem Started.load (h : Started t os lanes) {need : Nat} (hneed : 0 < need)
    (hinput : ((lanes.map (BurstLane.load · t.maxNumBits)).all fun l => need ≤ l.ip) = true) :
    Lockstep t 0 os (lanes.map (BurstLane.load · t.maxNumBits)) ∧
      ∀ lane ∈ lanes, 0 < lane.br.index := by
  induction h with
  | nil => exact ⟨.nil, fun lane hlane => by cases hlane⟩
  | @cons o lane os lanes hlane hrest ih =>
    rw [List.map_cons, List.all_cons, Bool.and_eq_true, decide_eq_true_eq] at hinput
    obtain ⟨hload, hindex⟩ := ih hinput.2
    have hpos : 0 < lane.br.index := hneed.trans_le hinput.1
    refine ⟨.cons ⟨o.skipped, hlane.2.skipped_le, hlane.2.load hlane.1.out hpos⟩ hload, ?_⟩
    intro lane' hlane'
    rcases List.mem_cons.mp hlane' with rfl | hlane'
    · exact hpos
    · exact hindex lane' hlane'

theorem Started.writeback (ht : t.WellFormed) (h : Started t os lanes)
    (hindex : ∀ lane ∈ lanes, 0 < lane.br.index) {n : Nat} {ls : List BurstLane}
    (hls : Lockstep t n os ls) :
    Together t n os (List.zipWith
      (fun lane l => BurstLane.writeback lane l t.maxNumBits (64 - t.maxNumBits)) lanes ls) := by
  induction h generalizing ls with
  | nil => cases hls; exact .nil
  | @cons o lane os lanes hlane hrest ih =>
    cases hls with
    | @cons _ l _ ls hl hls =>
      obtain ⟨c, hc, hafter⟩ := hl
      obtain ⟨-, hextra, -⟩ := hlane.2.container (hindex lane List.mem_cons_self)
      refine .cons (hafter.writeback ht hc hlane.2.source hextra) (ih ?_ hls)
      exact fun lane' hlane' => hindex lane' (List.mem_cons_of_mem _ hlane')

theorem run4streamBurstLoop_eq (t : HuffmanTable) (minSegLen : Nat) (lanes : List Lane) :
    run4streamBurstLoop t minSegLen lanes =
      if 1 ≤ (loopBounds t minSegLen).symbolsPerBurst ∧
          (loopBounds t minSegLen).symbolsPerBurst ≤ minSegLen then
        if (burstRounds t.packedDecode (loopBounds t minSegLen) (minSegLen + 1) false
            (lanes.map (BurstLane.load · t.maxNumBits))).1 then
          List.zipWith
            (fun lane l => BurstLane.writeback lane l t.maxNumBits (64 - t.maxNumBits)) lanes
            (burstRounds t.packedDecode (loopBounds t minSegLen) (minSegLen + 1) false
              (lanes.map (BurstLane.load · t.maxNumBits))).2
        else lanes
      else lanes := rfl

/-- The burst loop decodes as many symbols in every lane, no more than the shortest segment has. -/
theorem Started.burstLoop (ht : t.WellFormed) (h : Started t os lanes) (hos : os ≠ [])
    (minSegLen : Nat) :
    ∃ k ≤ minSegLen, Together t k os (run4streamBurstLoop t minSegLen lanes) := by
  have hnone : ∃ k ≤ minSegLen, Together t k os lanes := ⟨0, Nat.zero_le _, h.together⟩
  rw [run4streamBurstLoop_eq]
  split
  · by_cases hinput : ((lanes.map (BurstLane.load · t.maxNumBits)).all fun l =>
        (loopBounds t minSegLen).bytesPerIterUpper ≤ l.ip) = true
    · have hneed : 0 < (loopBounds t minSegLen).bytesPerIterUpper :=
        Nat.div_pos (Nat.le_add_right 8 _) (by decide)
      obtain ⟨hload, hindex⟩ := h.load hneed hinput
      obtain ⟨k, hk, hrounds⟩ :=
        Lockstep.rounds ht hos (minSegLen + 1) false hload (Nat.zero_le minSegLen)
      split
      · exact ⟨k, hk, h.writeback ht hindex hrounds⟩
      · exact hnone
    · have hstop : burstRounds t.packedDecode (loopBounds t minSegLen) (minSegLen + 1) false
          (lanes.map (BurstLane.load · t.maxNumBits)) =
            (false, lanes.map (BurstLane.load · t.maxNumBits)) := if_neg fun hgo => hinput hgo.2
      rw [hstop]
      exact hnone
  · exact hnone

end Lists

section Verdict

/-- What a run of streams comes to: the symbols of each, if each ends where its reader does. -/
def verdict (t : HuffmanTable) : List (Opened × Nat) → Option (List UInt8)
  | [] => some []
  | (o, n) :: rest =>
    if o.left t n = -(t.maxNumBits : Int) then
      (verdict t rest).map (symbolsAt t n o.bits ++ ·)
    else none

theorem verdict_length {ps : List (Opened × Nat)} {out : List UInt8} (h : verdict t ps = some out) :
    out.length = (ps.map Prod.snd).sum := by
  induction ps generalizing out with
  | nil => cases h; rfl
  | cons p ps ih =>
    obtain ⟨o, n⟩ := p
    rw [verdict] at h
    split at h
    · obtain ⟨tail, htail, rfl⟩ := Option.map_eq_some_iff.mp h
      rw [List.length_append, symbolsAt_length, ih htail, List.map_cons, List.sum_cons]
    · cases h

/-- The lanes as the drain leaves them. -/
def drainedLanes (t : HuffmanTable) (lanes : List Lane) (segments : List Nat) : List Lane :=
  List.zipWith (fun lane segLen =>
    drainLane t (4 * t.maxNumBits) (segLen + 1) (segLen - lane.out.length) lane) lanes segments

variable {os : List Opened} {lanes : List Lane} {n : Nat}

theorem Lane.After.drained {o : Opened} {lane : Lane} (ht : t.WellFormed) (h : lane.After t o n)
    {segLen : Nat} (hn : n ≤ segLen) :
    (drainLane t (4 * t.maxNumBits) (segLen + 1) (segLen - lane.out.length) lane).After t o segLen
      := by
  have hlen : lane.out.length = n := by rw [h.out, symbolsAt_length]
  have hdrained := h.drain ht (show segLen - n < segLen + 1 by omega)
  rwa [Nat.add_sub_cancel' hn, ← hlen] at hdrained

/-- The drain finishes every lane. -/
theorem Together.drain (ht : t.WellFormed) (h : Together t n os lanes) {segments : List Nat}
    (hsegments : ∀ segLen ∈ segments, n ≤ segLen) :
    (drainLanes t (lanes.zip segments)).toOption = verdict t (os.zip segments) := by
  induction h generalizing segments with
  | nil => rfl
  | @cons o lane os lanes hlane hrest ih =>
    cases segments with
    | nil => rfl
    | cons segLen segments =>
      have hdrained := hlane.drained ht (hsegments segLen List.mem_cons_self)
      have htail := ih fun k hk => hsegments k (List.mem_cons_of_mem _ hk)
      rw [List.zip_cons_cons, List.zip_cons_cons, drainLanes, verdict, ← htail]
      simp only [hdrained.tracks.remaining, hdrained.out]
      by_cases hends : o.left t segLen = -(t.maxNumBits : Int)
      · simp only [hends, ne_eq, not_true_eq_false, if_false, if_true]
        cases drainLanes t (lanes.zip segments) with
        | error e => rfl
        | ok tail => rfl
      · simp only [hends, ne_eq, not_false_eq_true, if_true, if_false]
        rfl

end Verdict

section Sequential

/-- A stream on its own, symbol by symbol, into a segment. -/
def decodeAlone (t : HuffmanTable) (segLen : Nat) (stream : List UInt8) :
    Except DecompressLiteralsError (List UInt8) := do
  let lane ← Lane.start t stream
  let lane := Lane.steps t segLen lane
  if lane.br.bitsRemaining ≠ -(t.maxNumBits : Int) then
    throw (.bitstreamReadMismatch lane.br.bitsRemaining (-(t.maxNumBits : Int)))
  return lane.out

/-- One stream after the other. -/
def decodeEach (t : HuffmanTable) :
    List (List UInt8 × Nat) → Except DecompressLiteralsError (List UInt8)
  | [] => .ok []
  | (stream, segLen) :: rest => do
    let out ← decodeAlone t segLen stream
    let tail ← decodeEach t rest
    return out ++ tail

/-- The four streams the jump table tells apart. -/
def fourStreams (source : List UInt8) : Except DecompressLiteralsError (List (List UInt8)) :=
  if source.length < 6 then .error (.missingBytesForJumpHeader source.length)
  else
    let byte (i : Nat) : Nat := (source.getD i 0).toNat
    let jump1 := byte 0 + byte 1 <<< 8
    let jump2 := jump1 + byte 2 + byte 3 <<< 8
    let jump3 := jump2 + byte 4 + byte 5 <<< 8
    let body := source.drop 6
    if body.length < jump3 then .error (.missingBytesForLiterals body.length jump3)
    else .ok [body.take jump1, (body.take jump2).drop jump1, (body.take jump3).drop jump2,
      body.drop jump3]

/-- The four streams, each on its own into its quarter of the output. -/
def decodeSequentially (t : HuffmanTable) (regen : Nat) (source : List UInt8) :
    Except DecompressLiteralsError (List UInt8) := do
  let streams ← fourStreams source
  decodeEach t (streams.zip (segmentLengths regen))

theorem decodeAlone_spec (ht : t.WellFormed) {stream : List UInt8} {lane : Lane} {o : Opened}
    (hstart : Lane.start t stream = .ok lane) (h : lane.After t o 0) (segLen : Nat) :
    (decodeAlone t segLen stream).toOption =
      if o.left t segLen = -(t.maxNumBits : Int) then some (symbolsAt t segLen o.bits) else none := by
  have hsteps := h.steps ht segLen
  rw [Nat.zero_add] at hsteps
  rw [decodeAlone, hstart]
  simp only [bind, Except.bind, hsteps.tracks.remaining, hsteps.out]
  by_cases hends : o.left t segLen = -(t.maxNumBits : Int)
  · simp only [hends, ne_eq, not_true_eq_false, if_false, if_true]
    rfl
  · simp only [hends, ne_eq, not_false_eq_true, if_true, if_false]
    rfl

/-- Both ways start the same lanes; a stream that cannot be started stops both. -/
theorem startLanes_spec (ht : t.WellFormed) (streams : List (List UInt8)) (segments : List Nat)
    (hlen : segments.length = streams.length) :
    (∃ e, startLanes t streams = .error e ∧
      (decodeEach t (streams.zip segments)).toOption = none) ∨
    ∃ os lanes, startLanes t streams = .ok lanes ∧ Started t os lanes ∧
      os.length = streams.length ∧
      (decodeEach t (streams.zip segments)).toOption = verdict t (os.zip segments) := by
  induction streams generalizing segments with
  | nil => exact .inr ⟨[], [], rfl, .nil, rfl, rfl⟩
  | cons stream streams ih =>
    obtain ⟨segLen, segments, rfl⟩ := List.exists_cons_of_length_eq_add_one hlen
    rw [List.zip_cons_cons, startLanes, decodeEach]
    cases hstart : Lane.start t stream with
    | error e =>
      refine .inl ⟨e, rfl, ?_⟩
      rw [decodeAlone, hstart]
      rfl
    | ok lane =>
      obtain ⟨o, -, hafter, hfresh⟩ := Lane.start_spec ht hstart
      have halone := decodeAlone_spec ht hstart hafter segLen
      rcases ih _ (Nat.succ.inj hlen) with ⟨e, hlanes, hrest⟩ | ⟨os, lanes, hlanes, hstarted, hos, hrest⟩
      · refine .inl ⟨e, by rw [hlanes]; rfl, ?_⟩
        cases decodeAlone t segLen stream with
        | error e' => rfl
        | ok out =>
          cases hd : decodeEach t (streams.zip segments) with
          | error e' => rfl
          | ok tail =>
            rw [hd] at hrest
            cases hrest
      · refine .inr ⟨o :: os, lane :: lanes, by rw [hlanes]; rfl, .cons ⟨hafter, hfresh⟩ hstarted,
          congrArg (· + 1) hos, ?_⟩
        rw [List.zip_cons_cons, verdict, ← hrest]
        split
        · rename_i hends
          rw [if_pos hends] at halone
          cases hd : decodeAlone t segLen stream with
          | error e =>
            rw [hd] at halone
            cases halone
          | ok out =>
            rw [hd] at halone
            cases halone
            cases decodeEach t (streams.zip segments) with
            | error e => rfl
            | ok tail => rfl
        · rename_i hends
          rw [if_neg hends] at halone
          cases hd : decodeAlone t segLen stream with
          | error e => rfl
          | ok out =>
            rw [hd] at halone
            cases halone

theorem decodeFourStreams_eq (t : HuffmanTable) (regen : Nat) (source : List UInt8) :
    decodeFourStreams t regen source = (do
      let streams ← fourStreams source
      let lanes ← startLanes t streams
      let segments := segmentLengths regen
      let out ← drainLanes t
        ((run4streamBurstLoop t (segments.foldl min regen) lanes).zip segments)
      if out.length ≠ regen then throw (.decodedLiteralCountMismatch out.length regen)
      return out) := by
  unfold decodeFourStreams fourStreams
  split
  · simp only [bind, Except.bind]
  · simp only
    split
    · simp only [bind, Except.bind]
    · simp only [bind, Except.bind]

theorem segmentLengths_sum (regen : Nat) : (segmentLengths regen).sum = regen := by
  simp only [segmentLengths, List.sum_cons, List.sum_nil]
  omega

theorem foldl_min_le (ns : List Nat) (a : Nat) :
    ns.foldl min a ≤ a ∧ ∀ n ∈ ns, ns.foldl min a ≤ n := by
  induction ns generalizing a with
  | nil => exact ⟨Nat.le_refl a, fun n hn => by cases hn⟩
  | cons m ns ih =>
    obtain ⟨hle, hall⟩ := ih (min a m)
    refine ⟨hle.trans (Nat.min_le_left a m), fun n hn => ?_⟩
    rcases List.mem_cons.mp hn with rfl | hn
    · exact hle.trans (Nat.min_le_right a n)
    · exact hall n hn

theorem fourStreams_length {source : List UInt8} {streams : List (List UInt8)}
    (h : fourStreams source = .ok streams) : streams.length = 4 := by
  simp only [fourStreams] at h
  split_ifs at h
  cases h
  rfl

/-- The lanes behind the burst loop, short of every segment's end. -/
theorem Started.bursts (ht : t.WellFormed) {os : List Opened} {lanes : List Lane}
    (h : Started t os lanes) (hos : os.length = 4) (regen : Nat) :
    ∃ k, (∀ segLen ∈ segmentLengths regen, k ≤ segLen) ∧ Together t k os
      (run4streamBurstLoop t ((segmentLengths regen).foldl min regen) lanes) := by
  have hne : os ≠ [] := by
    rintro rfl
    cases hos
  obtain ⟨k, hk, htogether⟩ := h.burstLoop ht hne ((segmentLengths regen).foldl min regen)
  exact ⟨k, fun n hn => hk.trans ((foldl_min_le _ regen).2 n hn), htogether⟩

/-- Both ways succeed on the same streams, with the same output. -/
theorem decodeFourStreams_toOption (ht : t.WellFormed) (regen : Nat) (source : List UInt8) :
    (decodeFourStreams t regen source).toOption = (decodeSequentially t regen source).toOption := by
  rw [decodeFourStreams_eq, decodeSequentially]
  cases hstreams : fourStreams source with
  | error e => rfl
  | ok streams =>
    have hlen := fourStreams_length hstreams
    change (startLanes t streams >>= _).toOption =
      (decodeEach t (streams.zip (segmentLengths regen))).toOption
    rcases startLanes_spec ht streams (segmentLengths regen) hlen.symm with
      ⟨e, hlanes, heach⟩ | ⟨os, lanes, hlanes, hstarted, hos, heach⟩
    · rw [hlanes, heach]
      rfl
    · obtain ⟨k, hk, htogether⟩ := hstarted.bursts ht (hos.trans hlen) regen
      have hdrain := htogether.drain ht hk
      rw [hlanes, heach, ← hdrain]
      simp only [bind, Except.bind]
      cases hd : drainLanes t ((run4streamBurstLoop t ((segmentLengths regen).foldl min regen)
          lanes).zip (segmentLengths regen)) with
      | error e => rfl
      | ok out =>
        rw [hd] at hdrain
        have hout := verdict_length hdrain.symm
        rw [List.map_snd_zip (by rw [hos, hlen]; rfl), segmentLengths_sum] at hout
        simp only [hout, ne_eq, not_true_eq_false, if_false]
        rfl

end Sequential

section Writes

/-- Where the segments start in the output. -/
def segmentStarts (regen : Nat) : List Nat :=
  let seg := (regen + 3) / 4
  [0, min seg regen, min (2 * seg) regen, min (3 * seg) regen]

/-- The places the lanes have written to. -/
def written (regen : Nat) (lanes : List Lane) : List Nat :=
  (List.zipWith (fun start (lane : Lane) => List.range' start lane.out.length)
    (segmentStarts regen) lanes).flatten

/-- Lanes inside their segments are inside the output. -/
theorem written_lt {regen : Nat} {lanes : List Lane}
    (h : List.Forall₂ (fun segLen (lane : Lane) => lane.out.length ≤ segLen)
      (segmentLengths regen) lanes) : ∀ p ∈ written regen lanes, p < regen := by
  rw [segmentLengths] at h
  obtain _ | ⟨h₀, _ | ⟨h₁, _ | ⟨h₂, _ | ⟨h₃, _ | _⟩⟩⟩⟩ := h
  simp only [Nat.zero_mul, Nat.one_mul, Nat.zero_min] at h₀ h₁ h₂ h₃
  intro p hp
  simp only [written, segmentStarts, List.zipWith_cons_cons, List.zipWith_nil_left,
    List.flatten_cons, List.flatten_nil, List.append_nil, List.mem_append, List.mem_range'_1] at hp
  rcases hp with hp | hp | hp | hp
  · omega
  · omega
  · omega
  · omega

variable {os : List Opened} {lanes : List Lane} {n : Nat} {segments : List Nat}

theorem Together.within (h : Together t n os lanes) (hlen : segments.length = os.length)
    (hn : ∀ segLen ∈ segments, n ≤ segLen) :
    List.Forall₂ (fun segLen (lane : Lane) => lane.out.length ≤ segLen) segments lanes := by
  induction h generalizing segments with
  | nil =>
    rw [List.eq_nil_of_length_eq_zero hlen]
    exact .nil
  | @cons o lane os lanes hlane hrest ih =>
    obtain ⟨segLen, segments, rfl⟩ := List.exists_cons_of_length_eq_add_one hlen
    refine .cons ?_ (ih (Nat.succ.inj hlen) fun k hk => hn k (List.mem_cons_of_mem _ hk))
    rw [hlane.out, symbolsAt_length]
    exact hn segLen List.mem_cons_self

theorem Together.drained_within (ht : t.WellFormed) (h : Together t n os lanes)
    (hlen : segments.length = os.length) (hn : ∀ segLen ∈ segments, n ≤ segLen) :
    List.Forall₂ (fun segLen (lane : Lane) => lane.out.length ≤ segLen) segments
      (drainedLanes t lanes segments) := by
  induction h generalizing segments with
  | nil =>
    rw [List.eq_nil_of_length_eq_zero hlen]
    exact .nil
  | @cons o lane os lanes hlane hrest ih =>
    obtain ⟨segLen, segments, rfl⟩ := List.exists_cons_of_length_eq_add_one hlen
    refine .cons ?_ (ih (Nat.succ.inj hlen) fun k hk => hn k (List.mem_cons_of_mem _ hk))
    rw [(hlane.drained ht (hn segLen List.mem_cons_self)).out, symbolsAt_length]

end Writes

/-- The burst loop and the drain decode what the streams give one after the other: the same bytes,
or an error for the same streams. Nothing is written past the regenerated size. -/
theorem four_streams_sequential (t : HuffmanTable) (ht : t.WellFormed) (regen : Nat)
    (source : List UInt8) :
    (decodeFourStreams t regen source).toOption = (decodeSequentially t regen source).toOption ∧
      ∀ streams lanes, fourStreams source = .ok streams → startLanes t streams = .ok lanes →
        let bursts := run4streamBurstLoop t ((segmentLengths regen).foldl min regen) lanes
        (∀ p ∈ written regen bursts, p < regen) ∧
          ∀ p ∈ written regen (drainedLanes t bursts (segmentLengths regen)), p < regen := by
  refine ⟨decodeFourStreams_toOption ht regen source, ?_⟩
  intro streams lanes hstreams hlanes
  have hlen := fourStreams_length hstreams
  rcases startLanes_spec ht streams (segmentLengths regen) hlen.symm with
    ⟨e, herror, -⟩ | ⟨os, lanes', hok, hstarted, hos, -⟩
  · rw [herror] at hlanes
    cases hlanes
  · rw [hok] at hlanes
    cases hlanes
    obtain ⟨k, hk, htogether⟩ := hstarted.bursts ht (hos.trans hlen) regen
    have hfour : (segmentLengths regen).length = os.length := (hos.trans hlen).symm
    exact ⟨written_lt (htogether.within hfour hk),
      written_lt (htogether.drained_within ht hfour hk)⟩

/-- The table of two symbols of one bit each. -/
def pairTable : HuffmanTable := (HuffmanTable.new.buildDecoder [128, 0x10]).2

/-- Four streams of sixty-four symbols: a burst of fifty-five in each lane, and the drain. -/
def pairStreams : List UInt8 :=
  [9, 0, 9, 0, 9, 0] ++ (List.replicate 4 (List.replicate 8 0x55 ++ [1])).flatten

theorem four_streams_sequential_pair :
    decodeFourStreams pairTable 256 pairStreams = .ok (List.replicate 128 [0, 1]).flatten ∧
      (decodeFourStreams pairTable 256 pairStreams).toOption =
        (decodeSequentially pairTable 256 pairStreams).toOption := by
  have hbuilt : HuffmanTable.new.buildDecoder [128, 0x10] = (.ok 2, pairTable) :=
    Prod.ext (by decide +kernel) rfl
  have hrun : decodeFourStreams pairTable 256 pairStreams =
      .ok (List.replicate 128 [0, 1]).flatten := by
    decide +kernel
  exact ⟨hrun, (four_streams_sequential pairTable (HuffmanTable.buildDecoder_wellFormed hbuilt) 256
    pairStreams).1⟩

/-- So does the section they are part of, whatever table it uses. -/
theorem decompressLiterals_sequential (ls : LiteralsSection) (scratch : HuffmanScratch)
    (dict : Option Dictionary) {source : List UInt8} {n : Nat} (hstreams : ls.numStreams = some 4)
    (hsize : ls.compressedSize = some n) (hn : n ≤ source.length) {used : Nat}
    {scratch' : HuffmanScratch}
    (hprepare : prepareTable ls scratch dict (source.take n) = (.ok used, scratch'))
    (ht : (scratch'.hufTable dict).WellFormed) :
    (decompressLiterals ls scratch dict source).1.toOption =
      ((decodeSequentially (scratch'.hufTable dict) ls.regeneratedSize
        ((source.take n).drop used)).toOption.map (·, n)) := by
  rw [← decodeFourStreams_toOption ht]
  unfold decompressLiterals
  simp only [hsize, hstreams, if_neg (Nat.not_lt.mpr hn), hprepare, if_true]
  cases decodeFourStreams (scratch'.hufTable dict) ls.regeneratedSize ((source.take n).drop used) with
  | error e => rfl
  | ok literals => rfl

end Decoding
