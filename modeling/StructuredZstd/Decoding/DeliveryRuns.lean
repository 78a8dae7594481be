import StructuredZstd.Decoding.BlockAppends

namespace Decoding

open BufferBackend LawfulBackend

/-- `write_all_bytes` into a sink that answers its calls in turn: `none` fails, a number is how
many bytes it takes at most. -/
def writeAllBytes : List (Option Nat) → List UInt8 → Nat × Bool × List (Option Nat)
  | sink, [] => (0, true, sink)
  | [], _ => (0, false, [])
  | none :: sink, _ => (0, false, sink)
  | some w :: sink, buf =>
    let w := min w buf.length
    if w = 0 then (0, true, sink)
    else
      let (written, ok, sink) := writeAllBytes sink (buf.drop w)
      (w + written, ok, sink)

/-- The closure of a delivery into a `Vec` or a slice with the room for it. -/
def copyBytes (_ : Unit) (buf : List UInt8) : Nat × Bool × Unit := (buf.length, true, ())

namespace DecodeBuffer

variable {B : Type} [BufferBackend B] [SlicedBackend B]

def feedHash (d : DecodeBuffer B) (text : List UInt8) : DecodeBuffer B :=
  if d.computeHash then { d with hash := d.hash ++ text, hashDirty := true } else d

/-- What is left of two slices from `start` on. -/
def slicesFrom (slices : List UInt8 × List UInt8) (start : Nat) : List UInt8 × List UInt8 :=
  if slices.1.length ≤ start then (slices.2.drop (start - slices.1.length), [])
  else (slices.1.drop start, slices.2)

/-- `deliver_to` through `write`, one half of the storage after the other. -/
def deliverThrough {σ : Type} (write : σ → List UInt8 → Nat × Bool × σ) (sink : σ)
    (d : DecodeBuffer B) (amount : Nat) (keepWindow : Bool) :
    List UInt8 × Bool × DecodeBuffer B :=
  let amount := min amount d.undelivered
  if amount ≠ 0 then
    let head := (slicesFrom (SlicedBackend.asSlices d.buffer) d.delivered).1
    let tail := (slicesFrom (SlicedBackend.asSlices d.buffer) d.delivered).2
    let n1 := min head.length amount
    let n2 := min tail.length (amount - n1)
    let first := write sink (head.take n1)
    let d := d.feedHash (head.take first.1)
    if first.2.1 ∧ first.1 = n1 ∧ n2 ≠ 0 then
      let second := write first.2.2 (tail.take n2)
      let d := d.feedHash (tail.take second.1)
      (head.take first.1 ++ tail.take second.1, second.2.1,
        { d with delivered := d.delivered + (first.1 + second.1) }.releaseDelivered keepWindow)
    else
      (head.take first.1, first.2.1,
        { d with delivered := d.delivered + first.1 }.releaseDelivered keepWindow)
  else ([], true, d.releaseDelivered keepWindow)

def drainToWindowSizeWriter (d : DecodeBuffer B) (sink : List (Option Nat)) :
    List UInt8 × Bool × DecodeBuffer B :=
  d.deliverThrough writeAllBytes sink d.undelivered true

def drainToWriter (d : DecodeBuffer B) (sink : List (Option Nat)) :
    List UInt8 × Bool × DecodeBuffer B :=
  d.deliverThrough writeAllBytes sink d.undelivered false

/-- Hand out the newest `n` bytes, and count all of the buffer as handed out. -/
def deliverNewest (d : DecodeBuffer B) (n : Nat) : List UInt8 × DecodeBuffer B :=
  let slices := SlicedBackend.asSlices d.buffer
  let total := slices.1.length + slices.2.length
  let newest := slicesFrom slices (total - n)
  let d := (d.feedHash newest.1).feedHash newest.2
  (newest.1 ++ newest.2, { d with delivered := total }.releaseDelivered true)

/-- `taken` was handed out: hashed if that is on, counted, and let go of past the window. -/
def handOut (d : DecodeBuffer B) (taken : List UInt8) (dirty keepWindow : Bool) : DecodeBuffer B :=
  { d with
    hash := if d.computeHash then d.hash ++ taken else d.hash
    hashDirty := dirty
    delivered := d.delivered + taken.length }.releaseDelivered keepWindow

section Slices

variable [LawfulBackend B] {d : DecodeBuffer B}

theorem length_slices :
    (SlicedBackend.asSlices d.buffer).1.length + (SlicedBackend.asSlices d.buffer).2.length =
      d.len := by
  rw [← List.length_append, asSlices_eq]
  rfl

/-- The two parts of the slices from `start` on, put together. -/
theorem slicesFrom_append (start : Nat) :
    (slicesFrom (SlicedBackend.asSlices d.buffer) start).1 ++
      (slicesFrom (SlicedBackend.asSlices d.buffer) start).2 = d.content.drop start := by
  rw [content, ← asSlices_eq, List.drop_append, slicesFrom]
  split_ifs with hle
  · rw [List.append_nil, List.drop_of_length_le hle, List.nil_append]
  · rw [Nat.sub_eq_zero_of_le (by omega), List.drop_zero]

omit [BufferBackend B] [SlicedBackend B] [LawfulBackend B] in
theorem feedHash_eq (text : List UInt8) :
    d.feedHash text = { d with
      hash := if d.computeHash then d.hash ++ text else d.hash
      hashDirty := d.computeHash || d.hashDirty } := by
  rw [feedHash]
  cases hc : d.computeHash with
  | false => cases d; cases hc; rfl
  | true => cases d; cases hc; rfl

omit [BufferBackend B] [SlicedBackend B] [LawfulBackend B] in
@[simp] theorem feedHash_delivered (text : List UInt8) :
    (d.feedHash text).delivered = d.delivered := by
  rw [feedHash_eq]

omit [SlicedBackend B] [LawfulBackend B] in
theorem handOut_one {x : List UInt8} {n : Nat} (hn : n = d.delivered + x.length)
    (keepWindow : Bool) :
    { d.feedHash x with delivered := n }.releaseDelivered keepWindow =
      d.handOut x (d.computeHash || d.hashDirty) keepWindow := by
  rw [handOut, feedHash_eq, hn]

omit [SlicedBackend B] [LawfulBackend B] in
theorem handOut_two {x y : List UInt8} {n : Nat} (hn : n = d.delivered + (x.length + y.length))
    (keepWindow : Bool) :
    { (d.feedHash x).feedHash y with delivered := n }.releaseDelivered keepWindow =
      d.handOut (x ++ y) (d.computeHash || d.hashDirty) keepWindow := by
  rw [handOut, feedHash_eq, feedHash_eq, hn, List.length_append]
  cases d.computeHash with
  | false => rfl
  | true =>
    dsimp only
    rw [if_pos rfl, if_pos rfl, if_pos rfl, List.append_assoc]
    rfl

/-- A delivery hands out the next bytes, as many as the sink took. -/
theorem deliverThrough_spec {σ : Type} {write : σ → List UInt8 → Nat × Bool × σ}
    (hwrite : ∀ s buf, (write s buf).1 ≤ buf.length) (sink : σ) (amount : Nat)
    (keepWindow : Bool) :
    ∃ n ≤ d.undelivered, ∃ dirty,
      (d.deliverThrough write sink amount keepWindow).1 = (d.content.drop d.delivered).take n ∧
      (d.deliverThrough write sink amount keepWindow).2.2 =
        d.handOut ((d.content.drop d.delivered).take n) dirty keepWindow := by
  have hjoin := slicesFrom_append (d := d) d.delivered
  simp only [deliverThrough]
  generalize slicesFrom (SlicedBackend.asSlices d.buffer) d.delivered = parts at hjoin ⊢
  obtain ⟨head, tail⟩ := parts
  dsimp only at hjoin ⊢
  have hlen : head.length + tail.length = d.undelivered := by
    rw [← List.length_append, hjoin, List.length_drop, undelivered, len]
  rw [← hjoin]
  generalize hm : min amount d.undelivered = m
  have hfirst := hwrite sink (head.take (min head.length m))
  rw [List.length_take] at hfirst
  generalize write sink (head.take (min head.length m)) = first at hfirst ⊢
  split
  · split
    · -- the first half was taken whole, so the second follows it
      rename_i hboth
      have hsecond := hwrite first.2.2 (tail.take (min tail.length (m - min head.length m)))
      rw [List.length_take] at hsecond
      generalize write first.2.2 (tail.take (min tail.length (m - min head.length m))) = second
        at hsecond ⊢
      have hwhole : first.1 = head.length := by omega
      have htaken : head.take first.1 ++ tail.take second.1 =
          (head ++ tail).take (first.1 + second.1) := by
        rw [hwhole, List.take_length, List.take_length_add_append]
      refine ⟨first.1 + second.1, by omega, d.computeHash || d.hashDirty, htaken, ?_⟩
      rw [← htaken]
      apply handOut_two
      rw [feedHash_delivered, feedHash_delivered, List.length_take, List.length_take]
      omega
    · have htaken : head.take first.1 = (head ++ tail).take first.1 :=
        (List.take_append_of_le_length (by omega)).symm
      refine ⟨first.1, by omega, d.computeHash || d.hashDirty, htaken, ?_⟩
      rw [← htaken]
      apply handOut_one
      rw [feedHash_delivered, List.length_take]
      omega
  · refine ⟨0, Nat.zero_le _, d.hashDirty, rfl, ?_⟩
    simp [handOut]

omit [SlicedBackend B] [LawfulBackend B] in
theorem deliverTo_handOut (amount : Nat) (keepWindow : Bool) :
    d.deliverTo amount keepWindow =
      ((d.content.drop d.delivered).take (min amount d.undelivered),
        d.handOut ((d.content.drop d.delivered).take (min amount d.undelivered))
          (min amount d.undelivered ≠ 0 && d.computeHash || d.hashDirty) keepWindow) := by
  have hlen : ((d.content.drop d.delivered).take (min amount d.undelivered)).length =
      min amount d.undelivered := by
    rw [List.length_take, List.length_drop, undelivered, len]
    omega
  simp only [deliverTo, handOut, hlen]
  by_cases hzero : min amount d.undelivered = 0
  · simp [hzero]
  · by_cases hc : d.computeHash = true
    · simp [hzero, hc]
    · simp [hzero, hc]

theorem writeAllBytes_le (sink : List (Option Nat)) (buf : List UInt8) :
    (writeAllBytes sink buf).1 ≤ buf.length := by
  fun_induction writeAllBytes sink buf with
  | case1 sink => exact Nat.le_refl _
  | case2 buf h => exact Nat.zero_le _
  | case3 sink buf h => exact Nat.zero_le _
  | case4 sink buf w' h w hzero => exact Nat.zero_le _
  | case5 sink buf w' h w hpos written ok rest heq ih =>
    rw [heq, List.length_drop] at ih
    dsimp only at ih ⊢
    omega

/-- Into a slice or a `Vec` a delivery takes all it asks for. -/
theorem deliverTo_eq (amount : Nat) (keepWindow : Bool) :
    d.deliverThrough copyBytes () amount keepWindow =
      ((d.deliverTo amount keepWindow).1, true, (d.deliverTo amount keepWindow).2) := by
  have hjoin := slicesFrom_append (d := d) d.delivered
  simp only [deliverTo_handOut, deliverThrough, copyBytes]
  generalize slicesFrom (SlicedBackend.asSlices d.buffer) d.delivered = parts at hjoin ⊢
  obtain ⟨head, tail⟩ := parts
  dsimp only at hjoin ⊢
  have hlen : head.length + tail.length = d.undelivered := by
    rw [← List.length_append, hjoin, List.length_drop, undelivered, len]
  rw [← hjoin]
  generalize hm : min amount d.undelivered = m
  have hfirst : (head.take (min head.length m)).length = min head.length m := by
    rw [List.length_take]
    omega
  have hsecond : (tail.take (min tail.length (m - min head.length m))).length =
      min tail.length (m - min head.length m) := by
    rw [List.length_take]
    omega
  simp only [hfirst, hsecond]
  by_cases hzero : m = 0
  · simp [hzero, handOut]
  · have hdirty : (decide (m ≠ 0) && d.computeHash || d.hashDirty) =
        (d.computeHash || d.hashDirty) := by
      rw [decide_eq_true hzero, Bool.true_and]
    rw [if_pos hzero, hdirty]
    split
    · rename_i hboth
      have hhead : min head.length m = head.length := by omega
      have htail : min tail.length (m - head.length) = m - head.length := by omega
      have htaken : head.take (min head.length m) ++
          tail.take (min tail.length (m - min head.length m)) = (head ++ tail).take m := by
        have hall : head.take m = head := List.take_of_length_le (by omega)
        rw [hhead, htail, List.take_length, List.take_append, hall]
      rw [handOut_two (by rw [feedHash_delivered, feedHash_delivered, hfirst, hsecond]), htaken]
    · rename_i hfirstOnly
      have hnone : min tail.length (m - min head.length m) = 0 := by
        by_contra hsome
        exact hfirstOnly ⟨trivial, trivial, hsome⟩
      have htaken : head.take (min head.length m) = (head ++ tail).take m := by
        rw [List.take_append_of_le_length (by omega)]
        congr 1
        omega
      rw [handOut_one (by rw [feedHash_delivered, hfirst]), htaken]

end Slices

end DecodeBuffer

/-- A frame being decoded, with what was written into its buffer, what was handed out of it and
what of that was copied out. -/
structure Delivery (B : Type) where
  w : Workspace B
  finished : Bool
  produced : List UInt8
  handed : List UInt8
  copied : List UInt8

namespace Delivery

/-- Everything that writes into the buffer, reads out of it or ends the frame. -/
inductive Op where
  | push (data : List UInt8)
  | repeatMatch (dictContent : List UInt8) (offset matchLength : Nat)
  | decodeBlock (header : BlockHeader) (dict : Option Dictionary) (source : Reader)
  | decodeBlockFromSlice (header : BlockHeader) (dict : Option Dictionary) (source : List UInt8)
  | finish
  | read (targetLen : Nat)
  | readAll (targetLen : Nat)
  | drainToWindowSize
  | drain
  | drainToWindowSizeWriter (sink : List (Option Nat))
  | drainToWriter (sink : List (Option Nat))
  | deliverNewest (n : Nat)
  | markDelivered

variable {B : Type} [BufferBackend B] [SlicedBackend B]

def start (windowSize : Nat) (computeHash : Bool) : Delivery B where
  w := { (Workspace.new windowSize : Workspace B) with
    buffer := { (DecodeBuffer.new windowSize : DecodeBuffer B) with computeHash := computeHash } }
  finished := false
  produced := []
  handed := []
  copied := []

/-- What was appended to the buffer counts as produced. -/
def produce (s : Delivery B) (w : Workspace B) : Delivery B :=
  { s with w := w, produced := s.produced ++ w.buffer.content.drop s.w.buffer.len }

/-- `taken` was copied out of the buffer. -/
def handOver (s : Delivery B) (taken : List UInt8) (buffer : DecodeBuffer B) : Delivery B :=
  { s with
    w := { s.w with buffer := buffer }
    handed := s.handed ++ taken
    copied := s.copied ++ taken }

def apply (s : Delivery B) : Op → Delivery B
  | .push data =>
    { s with
      w := { s.w with buffer := s.w.buffer.push data }
      produced := s.produced ++ data }
  | .repeatMatch dictContent offset matchLength =>
    s.produce { s.w with
      buffer := (s.w.buffer.repeatInner dictContent offset matchLength).2 }
  | .decodeBlock header dict source => s.produce (decodeBlockContent header s.w dict source).2.1
  | .decodeBlockFromSlice header dict source =>
    s.produce (decodeBlockContentFromSlice header s.w dict source).2.1
  | .finish => { s with finished := true }
  | .read targetLen =>
    s.handOver (s.w.buffer.read targetLen).1 (s.w.buffer.read targetLen).2
  | .readAll targetLen =>
    s.handOver (s.w.buffer.readAll targetLen).1 (s.w.buffer.readAll targetLen).2
  | .drainToWindowSize =>
    s.handOver (s.w.buffer.drainToWindowSize.1.getD []) s.w.buffer.drainToWindowSize.2
  | .drain => s.handOver s.w.buffer.drain.1 s.w.buffer.drain.2
  | .drainToWindowSizeWriter sink =>
    s.handOver (s.w.buffer.drainToWindowSizeWriter sink).1
      (s.w.buffer.drainToWindowSizeWriter sink).2.2
  | .drainToWriter sink =>
    s.handOver (s.w.buffer.drainToWriter sink).1 (s.w.buffer.drainToWriter sink).2.2
  | .deliverNewest n =>
    s.handOver (s.w.buffer.deliverNewest n).1 (s.w.buffer.deliverNewest n).2
  | .markDelivered =>
    { s with
      w := { s.w with buffer := s.w.buffer.markDelivered }
      handed := s.handed ++ s.w.buffer.content.drop s.w.buffer.delivered }

def run (s : Delivery B) (ops : List Op) : Delivery B := ops.foldl apply s

variable [LawfulBackend B]

/-- What the operation is called with: writes the storage can take, the newest bytes only when they
are all that waits, an emptying drain only once the frame is finished. -/
def Allowed (s : Delivery B) : Op → Prop
  | .push data => Fits s.w.buffer.buffer data.length
  | .deliverNewest n => s.w.buffer.undelivered = n
  | .readAll _ | .drain | .drainToWriter _ => s.finished = true
  | _ => True

def AllowedRun (s : Delivery B) : List Op → Prop
  | [] => True
  | op :: ops => s.Allowed op ∧ (s.apply op).AllowedRun ops

/-- The content is the newest part of what was produced, and what was handed out is all that came
before its undelivered part. -/
structure Accounted (window : Nat) (hashing : Bool) (s : Delivery B) : Prop where
  wf : Wf s.w.buffer.buffer
  windowSize : s.w.buffer.windowSize = window
  computeHash : s.w.buffer.computeHash = hashing
  produced : ∃ released, s.produced = released ++ s.w.buffer.content ∧
    s.handed = released ++ s.w.buffer.content.take s.w.buffer.delivered
  delivered : s.w.buffer.delivered ≤ s.w.buffer.len
  history : s.finished = false → min window s.produced.length ≤ s.w.buffer.len
  hash : hashing = true → s.w.buffer.hash = s.copied

variable {window : Nat} {hashing : Bool}

/-- Letting go drops handed-out bytes only, and none the window needs. -/
theorem releaseDelivered_spec {d : DecodeBuffer B} (h : Wf d.buffer) (hle : d.delivered ≤ d.len)
    (keepWindow : Bool) :
    ∃ k ≤ d.delivered, (d.releaseDelivered keepWindow).content = d.content.drop k ∧
      (d.releaseDelivered keepWindow).delivered = d.delivered - k ∧
      Wf (d.releaseDelivered keepWindow).buffer ∧
      (d.releaseDelivered keepWindow).windowSize = d.windowSize ∧
      (d.releaseDelivered keepWindow).computeHash = d.computeHash ∧
      (d.releaseDelivered keepWindow).hash = d.hash ∧
      (keepWindow = true → min d.windowSize d.len ≤ d.len - k) := by
  generalize hkeep : (if keepWindow then d.windowSize else 0) = keep
  have hwindow : keepWindow = true → d.windowSize = keep := by
    rintro rfl
    exact hkeep
  have hnone : ∃ k ≤ d.delivered, d.content = d.content.drop k ∧ d.delivered = d.delivered - k ∧
      Wf d.buffer ∧ d.windowSize = d.windowSize ∧ d.computeHash = d.computeHash ∧ d.hash = d.hash ∧
      (keepWindow = true → min d.windowSize d.len ≤ d.len - k) :=
    ⟨0, Nat.zero_le _, rfl, rfl, h, rfl, rfl, rfl, fun _ => Nat.min_le_right _ _⟩
  simp only [DecodeBuffer.releaseDelivered, hkeep]
  split
  · exact hnone
  · split
    · rename_i hlen hrelease
      have hdrop : min (d.len - keep) d.delivered ≤ (bytes d.buffer).length :=
        (Nat.min_le_right _ _).trans hle
      obtain ⟨hwf, hbytes⟩ := dropFirstN_spec h hdrop
      refine ⟨min (d.len - keep) d.delivered, Nat.min_le_right _ _, hbytes, rfl, hwf, rfl, rfl, rfl,
        fun hk => ?_⟩
      have := hwindow hk
      omega
    · exact hnone

theorem handOut_spec {d : DecodeBuffer B} (h : Wf d.buffer) {taken : List UInt8}
    (hle : d.delivered + taken.length ≤ d.len) (dirty keepWindow : Bool) :
    ∃ k ≤ d.delivered + taken.length,
      (d.handOut taken dirty keepWindow).content = d.content.drop k ∧
      (d.handOut taken dirty keepWindow).delivered = d.delivered + taken.length - k ∧
      Wf (d.handOut taken dirty keepWindow).buffer ∧
      (d.handOut taken dirty keepWindow).windowSize = d.windowSize ∧
      (d.handOut taken dirty keepWindow).computeHash = d.computeHash ∧
      (d.handOut taken dirty keepWindow).hash =
        (if d.computeHash then d.hash ++ taken else d.hash) ∧
      (keepWindow = true → min d.windowSize d.len ≤ d.len - k) :=
  releaseDelivered_spec (d := { d with
    hash := if d.computeHash then d.hash ++ taken else d.hash
    hashDirty := dirty
    delivered := d.delivered + taken.length }) h hle keepWindow

/-- Handing out the next bytes keeps the books straight. -/
theorem Accounted.handOver {s : Delivery B} (h : s.Accounted window hashing) {n : Nat} {taken : List UInt8}
    (hn : n ≤ s.w.buffer.undelivered)
    (htaken : taken = (s.w.buffer.content.drop s.w.buffer.delivered).take n) (dirty : Bool)
    {keepWindow : Bool} (hkeep : keepWindow = true ∨ s.finished = true) :
    (s.handOver taken (s.w.buffer.handOut taken dirty keepWindow)).Accounted window hashing := by
  obtain ⟨released, hproduced, hhanded⟩ := h.produced
  have hdelivered := h.delivered
  have hund : s.w.buffer.undelivered = s.w.buffer.len - s.w.buffer.delivered := rfl
  have hlen : taken.length = n := by
    rw [htaken, List.length_take, List.length_drop]
    exact Nat.min_eq_left hn
  have hfit : s.w.buffer.delivered + taken.length ≤ s.w.buffer.len := by omega
  obtain ⟨k, hk, hcontent, hleft, hwf, hwin, hcompute, hhash, hroom⟩ :=
    handOut_spec h.wf hfit dirty keepWindow
  have hlen' : (s.w.buffer.handOut taken dirty keepWindow).len = s.w.buffer.len - k := by
    rw [DecodeBuffer.len, hcontent, List.length_drop]
    rfl
  refine ⟨hwf, hwin.trans h.windowSize, hcompute.trans h.computeHash,
    ⟨released ++ s.w.buffer.content.take k, ?_, ?_⟩, ?_, fun hrunning => ?_, fun hc => ?_⟩
  · change s.produced = _ ++ (s.w.buffer.handOut taken dirty keepWindow).content
    rw [hcontent, List.append_assoc, List.take_append_drop, hproduced]
  · change s.handed ++ taken = _ ++ (s.w.buffer.handOut taken dirty keepWindow).content.take
      (s.w.buffer.handOut taken dirty keepWindow).delivered
    rw [hcontent, hleft, hhanded, htaken, List.append_assoc, ← List.take_add, List.append_assoc,
      ← List.take_add, ← htaken, hlen, Nat.add_sub_cancel' (hlen ▸ hk)]
  · change (s.w.buffer.handOut taken dirty keepWindow).delivered ≤
      (s.w.buffer.handOut taken dirty keepWindow).len
    omega
  · have hfin : s.finished = false := hrunning
    rcases hkeep with hk' | hk'
    · have hrest := hroom hk'
      have hmin := h.history hfin
      rw [h.windowSize] at hrest
      change min window s.produced.length ≤ (s.w.buffer.handOut taken dirty keepWindow).len
      omega
    · rw [hfin] at hk'
      cases hk'
  · change (s.w.buffer.handOut taken dirty keepWindow).hash = s.copied ++ taken
    rw [hhash, if_pos (h.computeHash.trans hc), h.hash hc]

/-- What a writing operation appends is produced. -/
theorem Accounted.produce {s : Delivery B} (h : s.Accounted window hashing) {w : Workspace B}
    (ha : s.w.buffer.Appended w.buffer) : (s.produce w).Accounted window hashing := by
  obtain ⟨released, hproduced, hhanded⟩ := h.produced
  obtain ⟨x, hx⟩ := ha.content
  have hnew : w.buffer.content.drop s.w.buffer.len = x := by
    rw [← hx]
    exact List.drop_left
  have hdelivered := h.delivered
  have hlen : w.buffer.len = s.w.buffer.len + x.length := by
    rw [DecodeBuffer.len, ← hx, List.length_append]
    rfl
  refine ⟨ha.wf, ha.books.windowSize.trans h.windowSize,
    ha.books.computeHash.trans h.computeHash, ⟨released, ?_, ?_⟩, ?_, fun hrunning => ?_,
    fun hc => ?_⟩
  · change s.produced ++ w.buffer.content.drop s.w.buffer.len = released ++ w.buffer.content
    rw [hnew, hproduced, List.append_assoc, hx]
  · change s.handed = released ++ w.buffer.content.take w.buffer.delivered
    rw [ha.books.delivered, ← hx, List.take_append_of_le_length hdelivered]
    exact hhanded
  · change w.buffer.delivered ≤ w.buffer.len
    rw [ha.books.delivered]
    omega
  · have hmin := h.history hrunning
    have hlong : (s.produced ++ w.buffer.content.drop s.w.buffer.len).length =
        s.produced.length + x.length := by
      rw [hnew, List.length_append]
    change min window (s.produced ++ w.buffer.content.drop s.w.buffer.len).length ≤ w.buffer.len
    rw [hlong]
    omega
  · change w.buffer.hash = s.copied
    rw [ha.books.hash]
    exact h.hash hc

theorem Accounted.deliverTo {s : Delivery B} (h : s.Accounted window hashing) (amount : Nat) {keepWindow : Bool}
    (hkeep : keepWindow = true ∨ s.finished = true) :
    (s.handOver (s.w.buffer.deliverTo amount keepWindow).1
      (s.w.buffer.deliverTo amount keepWindow).2).Accounted window hashing := by
  rw [DecodeBuffer.deliverTo_handOut]
  exact h.handOver (Nat.min_le_right _ _) rfl _ hkeep

theorem Accounted.writer {s : Delivery B} (h : s.Accounted window hashing) (sink : List (Option Nat))
    {keepWindow : Bool} (hkeep : keepWindow = true ∨ s.finished = true) :
    (s.handOver
      (s.w.buffer.deliverThrough writeAllBytes sink s.w.buffer.undelivered keepWindow).1
      (s.w.buffer.deliverThrough writeAllBytes sink s.w.buffer.undelivered
        keepWindow).2.2).Accounted window hashing := by
  obtain ⟨n, hn, dirty, htaken, hbuffer⟩ := DecodeBuffer.deliverThrough_spec (d := s.w.buffer)
    DecodeBuffer.writeAllBytes_le sink s.w.buffer.undelivered keepWindow
  rw [hbuffer, htaken]
  exact h.handOver hn rfl dirty hkeep

/-- When the newest bytes are all that waits, they are the next bytes. -/
theorem deliverNewest_eq {d : DecodeBuffer B} (hle : d.delivered ≤ d.len) :
    d.deliverNewest d.undelivered =
      ((d.content.drop d.delivered).take d.undelivered,
        d.handOut ((d.content.drop d.delivered).take d.undelivered)
          (d.computeHash || d.hashDirty) true) := by
  have htotal := DecodeBuffer.length_slices (d := d)
  have hstart : d.len - d.undelivered = d.delivered := by
    rw [DecodeBuffer.undelivered]
    omega
  have hjoin := DecodeBuffer.slicesFrom_append (d := d) d.delivered
  have hall : (d.content.drop d.delivered).take d.undelivered = d.content.drop d.delivered := by
    apply List.take_of_length_le
    rw [List.length_drop]
    rfl
  have hcount : d.len = d.delivered + ((DecodeBuffer.slicesFrom (SlicedBackend.asSlices d.buffer)
      d.delivered).1.length + (DecodeBuffer.slicesFrom (SlicedBackend.asSlices d.buffer)
      d.delivered).2.length) := by
    rw [← List.length_append, hjoin, List.length_drop]
    exact (Nat.add_sub_cancel' hle).symm
  simp only [DecodeBuffer.deliverNewest, htotal, hstart]
  rw [DecodeBuffer.handOut_two hcount, hjoin, hall]

theorem Accounted.handOver_nil {s : Delivery B} (h : s.Accounted window hashing) :
    (s.handOver [] s.w.buffer).Accounted window hashing := by
  obtain ⟨released, hproduced, hhanded⟩ := h.produced
  exact ⟨h.wf, h.windowSize, h.computeHash,
    ⟨released, hproduced, (List.append_nil _).trans hhanded⟩, h.delivered, h.history,
    fun hc => (h.hash hc).trans (List.append_nil _).symm⟩

theorem Accounted.markDelivered {s : Delivery B} (h : s.Accounted window hashing) :
    (s.apply .markDelivered).Accounted window hashing := by
  obtain ⟨released, hproduced, hhanded⟩ := h.produced
  refine ⟨h.wf, h.windowSize, h.computeHash, ⟨released, hproduced, ?_⟩,
    Nat.le_refl _, h.history, h.hash⟩
  change s.handed ++ s.w.buffer.content.drop s.w.buffer.delivered =
    released ++ s.w.buffer.content.take s.w.buffer.content.length
  rw [hhanded, List.append_assoc, List.take_append_drop, List.take_length]

theorem Accounted.apply {s : Delivery B} (h : s.Accounted window hashing) {op : Op} (hop : s.Allowed op) :
    (s.apply op).Accounted window hashing := by
  cases op with
  | push data =>
    have hbytes : bytes (extend s.w.buffer.buffer data) = bytes s.w.buffer.buffer ++ data :=
      (extend_spec data h.wf).2.2.1.resolve_right fun hlost => hlost.1 hop
    have hpush : s.apply (.push data) =
        s.produce { s.w with buffer := s.w.buffer.push data } := by
      have hnew : (s.w.buffer.push data).content.drop s.w.buffer.len = data := by
        change (bytes (extend s.w.buffer.buffer data)).drop _ = data
        rw [hbytes]
        exact List.drop_left
      simp only [Delivery.apply, Delivery.produce, hnew]
    rw [hpush]
    exact h.produce (push_appended h.wf data)
  | repeatMatch dictContent offset matchLength =>
    exact h.produce (DecodeBuffer.repeatInner_grows h.wf).appended
  | decodeBlock header dict source => exact h.produce (decodeBlockContent_appended h.wf)
  | decodeBlockFromSlice header dict source =>
    exact h.produce (decodeBlockContentFromSlice_appended h.wf)
  | finish =>
    exact ⟨h.wf, h.windowSize, h.computeHash, h.produced, h.delivered, nofun, h.hash⟩
  | read targetLen => exact h.deliverTo _ (.inl rfl)
  | readAll targetLen => exact h.deliverTo _ (.inr hop)
  | drainToWindowSize =>
    simp only [Delivery.apply, DecodeBuffer.drainToWindowSize]
    split
    · exact h.handOver_nil
    · exact h.deliverTo _ (.inl rfl)
  | drain => exact h.deliverTo _ (.inr hop)
  | drainToWindowSizeWriter sink => exact h.writer sink (.inl rfl)
  | drainToWriter sink => exact h.writer sink (.inr hop)
  | deliverNewest n =>
    have hn : s.w.buffer.undelivered = n := hop
    subst hn
    simp only [Delivery.apply, deliverNewest_eq h.delivered]
    exact h.handOver (Nat.le_refl _) rfl _ (.inl rfl)
  | markDelivered => exact h.markDelivered

theorem Accounted.run {ops : List Op} {s : Delivery B} (h : s.Accounted window hashing)
    (hops : s.AllowedRun ops) : (s.run ops).Accounted window hashing := by
  induction ops generalizing s with
  | nil => exact h
  | cons op ops ih => exact ih (h.apply hops.1) hops.2

theorem start_accounted (windowSize : UInt64) (computeHash : Bool) :
    (start windowSize.toNat computeHash : Delivery B).Accounted windowSize.toNat computeHash where
  windowSize := rfl
  computeHash := rfl
  wf := wf_setGrowthLimit _ _ wf_new
  produced := by
    refine ⟨[], ?_, ?_⟩
    all_goals
      have hempty : (start windowSize.toNat computeHash : Delivery B).w.buffer.content = [] :=
        (bytes_setGrowthLimit _ _).trans bytes_new
      rw [hempty]
      rfl
  delivered := Nat.zero_le _
  history _ := by
    change min _ 0 ≤ _
    omega
  hash _ := rfl

omit [LawfulBackend B] in
/-- Only marking bytes hands them out without copying them. -/
theorem run_copied {ops : List Op} {s : Delivery B} (h : s.copied = s.handed)
    (hops : .markDelivered ∉ ops) : (s.run ops).copied = (s.run ops).handed := by
  induction ops generalizing s with
  | nil => exact h
  | cons op ops ih =>
    rw [List.mem_cons, not_or] at hops
    refine ih ?_ hops.2
    cases op with
    | markDelivered => exact absurd rfl hops.1
    | push | repeatMatch | decodeBlock | decodeBlockFromSlice | finish => exact h
    | _ => exact congrArg (· ++ _) h

/-- Every byte of a frame is handed out at most once and in order, the window stays, and the
checksum is of what was copied out. -/
theorem delivered_exactly_once (windowSize : UInt64) (computeHash : Bool) {ops : List Op}
    (hops : (start windowSize.toNat computeHash : Delivery B).AllowedRun ops) :
    let s := (start windowSize.toNat computeHash : Delivery B).run ops
    s.handed <+: s.produced ∧ s.w.buffer.delivered ≤ s.w.buffer.len ∧
      (s.finished = false → s.w.buffer.content <:+ s.produced ∧
        min windowSize.toNat s.produced.length ≤ s.w.buffer.len) ∧
      (computeHash = true → s.w.buffer.hash = s.copied) ∧
      (.markDelivered ∉ ops → s.copied = s.handed) := by
  intro s
  have h : s.Accounted windowSize.toNat computeHash :=
    (start_accounted windowSize computeHash).run hops
  obtain ⟨released, hproduced, hhanded⟩ := h.produced
  refine ⟨?_, h.delivered, fun hrunning => ⟨?_, h.history hrunning⟩, h.hash, run_copied rfl⟩
  · rw [hproduced, hhanded]
    exact (List.prefix_append_right_inj released).mpr (List.take_prefix ..)
  · rw [hproduced]
    exact List.suffix_append ..

end Delivery

/-- A sink that fails half way, a read, the newest byte and a drain of the finished frame. -/
theorem delivered_exactly_once_ring :
    let s := (Delivery.start 2 true : Delivery RingBuffer).run [.push [1, 2, 3],
      .drainToWindowSizeWriter [some 1, none], .read 5, .push [4], .deliverNewest 1, .push [5],
      .finish, .drain]
    s.handed <+: [1, 2, 3, 4, 5] ∧ s.w.buffer.hash = s.handed := by
  have hops : (Delivery.start (2 : UInt64).toNat true : Delivery RingBuffer).AllowedRun
      [.push [1, 2, 3], .drainToWindowSizeWriter [some 1, none], .read 5, .push [4],
        .deliverNewest 1, .push [5], .finish, .drain] := by
    refine ⟨fun _ => by decide, trivial, trivial, fun _ => by decide, ?_, fun _ => by decide,
      trivial, rfl, trivial⟩
    change DecodeBuffer.undelivered _ = 1
    decide +kernel
  obtain ⟨hkept, -, -, hhash, hcopied⟩ := Delivery.delivered_exactly_once 2 true hops
  exact ⟨hkept, (hhash rfl).trans (hcopied (by simp))⟩

/-- Marked bytes are handed out unhashed, and the newest byte skips an older one that waits. -/
theorem marked_unhashed_newest_skips :
    ((Delivery.start 2 true : Delivery RingBuffer).run [.push [1], .markDelivered]).handed = [1] ∧
    ((Delivery.start 2 true : Delivery RingBuffer).run [.push [1], .markDelivered]).w.buffer.hash =
      [] ∧
    ((Delivery.start 2 true : Delivery RingBuffer).run
      [.push [1], .push [2], .deliverNewest 1]).produced = [1, 2] ∧
    ((Delivery.start 2 true : Delivery RingBuffer).run
      [.push [1], .push [2], .deliverNewest 1]).handed = [2] := by
  decide +kernel

end Decoding
