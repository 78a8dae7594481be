import StructuredZstd.Fse.TrimmedTables
import StructuredZstd.Huff0.HuffmanDecoder

namespace Huff0.Decoder

open Bits BitIo Fse Fse.Decoder
open Fse.Encoder (FSETable encodeInterleaved)

section Turns

variable {d : Distribution} {enc : FSETable} {dec : FSETableImpl Entry 64}

def WeightAcc.pushAll (acc : WeightAcc) (weights : List Nat) : WeightAcc :=
  weights.foldl WeightAcc.push acc

@[simp] theorem WeightAcc.pushAll_cons (acc : WeightAcc) (w : Nat) (weights : List Nat) :
    acc.pushAll (w :: weights) = (acc.push w).pushAll weights := rfl

@[simp] theorem WeightAcc.pushAll_nil (acc : WeightAcc) : acc.pushAll [] = acc := rfl

theorem WeightAcc.push_length (acc : WeightAcc) (w : Nat) :
    (acc.push w).weights.length = acc.weights.length + 1 := by
  simp [WeightAcc.push]

theorem WeightAcc.pushAll_weights (acc : WeightAcc) (weights : List Nat) :
    (acc.pushAll weights).weights = acc.weights ++ weights := by
  induction weights generalizing acc with
  | nil => exact (List.append_nil _).symm
  | cons w weights ih =>
    rw [pushAll_cons, ih]
    simp [push]

theorem pushWeightLimited_ok (acc : WeightAcc) {w : Nat} (hw : w ≤ 12)
    (hlen : acc.weights.length < 255) : pushWeightLimited acc w = .ok (acc.push w) := by
  have h12 : ¬maxMaxNumBits < w := Nat.not_lt.mpr hw
  rw [pushWeightLimited, if_neg h12, if_neg (Nat.not_le.mpr hlen)]

/-- No entry is wider than the table's log. -/
theorem readEntry_numBits_le (hd : Fse.Decoder.TableOf d .none dec) (u : Nat) :
    (readEntry dec u).numBits ≤ d.accLog := by
  rw [readEntry, List.getD_eq_getElem?_getD]
  cases hs : d.slots[u]? with
  | none =>
    have hout : dec.decode[u]? = none := by
      rw [List.getElem?_eq_none_iff] at hs ⊢
      rwa [hd.length_eq, ← d.slots_length]
    rw [hout]
    exact Nat.zero_le _
  | some s =>
    rw [hd.entry u s hs, Option.getD_some]
    exact Nat.sub_le _ _

/-- A start state is left by a bit at least, unless its symbol fills the table. -/
theorem startState_numBits (he : Fse.Encoder.TableOf d enc) (hd : Fse.Decoder.TableOf d .none dec) {x u : Nat}
    (hu : enc.startState x = some ⟨0, u⟩) (hx : d.Present x)
    (hmixed : weight (d.probs.getD x 0) < d.size) : 0 < (readEntry dec u).numBits := by
  obtain ⟨p, hp, h0⟩ := hx
  have hr := d.range p (List.mem_of_getElem? hp)
  obtain ⟨u', hstart, hslot, hrank⟩ := he.startState_spec hp h0 hr
  cases hu.symm.trans hstart
  rw [readEntry_of_getElem? (hd.entry u x hslot), hrank, Nat.add_zero]
  have hpos : weight (d.probs.getD x 0) ≠ 0 := by
    rw [List.getD_eq_getElem?_getD, hp, Option.getD_some, weight]
    split_ifs <;> omega
  have hlog : Nat.log2 (weight (d.probs.getD x 0)) < d.accLog := (Nat.log2_lt hpos).mpr hmixed
  exact Nat.sub_pos_of_lt hlog

variable {u v i x b nb : Nat} {s : Stack} {br : BitReaderReversed} {m : Int}

/-- An update whose bits are in the container. -/
theorem updateStateFast_lead (h : LeadsTo dec u x b nb i) (hbr : br.Tracks (s.push b nb) m)
    (hroom : br.bitsConsumed + (readEntry dec u).numBits ≤ 64) :
    ∃ br', updateStateFast dec (readEntry dec u) br = (readEntry dec i, br') ∧
      br'.Tracks s (m - nb) ∧ br'.bitsConsumed = br.bitsConsumed + (readEntry dec u).numBits := by
  obtain ⟨base, he, hi, hnb⟩ := h
  rw [he] at hroom ⊢
  obtain ⟨hv, ht⟩ := hbr.getBitsUnchecked hroom
  rw [Stack.top_push] at hv
  rw [Stack.rest_push] at ht
  refine ⟨_, ?_, ht, rfl⟩
  change (readEntry dec (base + (br.getBitsUnchecked nb).1), (br.getBitsUnchecked nb).2) = _
  rw [hv, hi]

/-- The update out of a start state reads past the front. -/
theorem updateStateFast_past (hbr : br.Tracks Stack.empty 0)
    (hroom : br.bitsConsumed + (readEntry dec u).numBits ≤ 64)
    (hpos : 0 < (readEntry dec u).numBits) :
    (updateStateFast dec (readEntry dec u) br).2.bitsRemaining ≤ -1 := by
  obtain ⟨-, ht⟩ := hbr.getBitsUnchecked hroom
  have hremaining : (updateStateFast dec (readEntry dec u) br).2.bitsRemaining =
      0 - ((readEntry dec u).numBits : Int) := ht.remaining
  omega

/-- The weight loop takes the turns back, and stops behind the last of them. -/
theorem decodeWeights_turns (he : Fse.Encoder.TableOf d enc) (hd : Fse.Decoder.TableOf d .none dec)
    (hlog : d.accLog ≤ 6) (hmixed : ∀ x, d.Present x → weight (d.probs.getD x 0) < d.size)
    {xs : List Nat} (h : Turns d enc dec u v s xs) {fuel : Nat} (hfuel : xs.length ≤ 2 * fuel)
    (hbr : br.Tracks s s.len) (acc : WeightAcc) (hlen : acc.weights.length + xs.length ≤ 255)
    (hle : ∀ x ∈ xs, x ≤ 12) :
    decodeWeights dec fuel (readEntry dec u) (readEntry dec v) br acc = (.ok (), acc.pushAll xs) := by
  induction fuel generalizing u v s xs br acc with
  | zero =>
    have := h.two_le
    omega
  | succ fuel ih =>
    obtain ⟨hready, hroom⟩ := hbr.ensureBits (n := 12) (by decide)
    have hu := (readEntry_numBits_le hd u).trans hlog
    have hv := (readEntry_numBits_le hd v).trans hlog
    rw [decodeWeights]
    cases h with
    | @last x y _ _ hstart hx sym_u sym_v =>
      have hpast := updateStateFast_past hready (u := u) (by omega)
        (startState_numBits he hd hstart hx (hmixed x hx))
      have hfirst := pushWeightLimited_ok acc (hle x (by simp)) (by simp at hlen; omega)
      have hsecond := pushWeightLimited_ok (acc.push x) (hle y (by simp))
        (by rw [WeightAcc.push_length]; simp at hlen; omega)
      simp only [sym_u, sym_v, hfirst, hsecond, hpast, if_true, WeightAcc.pushAll_cons,
        WeightAcc.pushAll_nil]
    | @step _ _ x b nb i s xs rest lead =>
      have hfirst := pushWeightLimited_ok acc (hle x (by simp)) (by simp at hlen; omega)
      obtain ⟨br₁, hupdate, htracks, hused⟩ := updateStateFast_lead lead hready (by omega)
      have hmore : ¬br₁.bitsRemaining ≤ -1 := by
        rw [htracks.remaining, Stack.push_len]
        omega
      have hcount : (acc.push x).weights.length + xs.length ≤ 255 := by
        rw [WeightAcc.push_length]
        simp at hlen
        omega
      have htracks' : br₁.Tracks s s.len := htracks.cast rfl (by rw [Stack.push_len]; omega)
      simp only [lead.symbol, hfirst, hupdate, hmore, if_false]
      have hi := (readEntry_numBits_le hd i).trans hlog
      cases rest with
      | @last y z _ _ hstart hy sym_v sym_i =>
        have hpast := updateStateFast_past htracks' (u := v) (by omega)
          (startState_numBits he hd hstart hy (hmixed y hy))
        have hsecond := pushWeightLimited_ok (acc.push x) (hle y (by simp))
          (by simp at hcount; omega)
        have hthird := pushWeightLimited_ok ((acc.push x).push y) (hle z (by simp))
          (by rw [WeightAcc.push_length]; simp at hcount; omega)
        simp only [sym_v, sym_i, hsecond, hthird, hpast, if_true, WeightAcc.pushAll_cons,
          WeightAcc.pushAll_nil]
      | @step _ _ y b' nb' j s' ys rest lead' =>
        have hsecond := pushWeightLimited_ok (acc.push x) (hle y (by simp))
          (by simp at hcount; omega)
        obtain ⟨br₂, hupdate', htracks₂, -⟩ := updateStateFast_lead lead' htracks' (by omega)
        have hmore' : ¬br₂.bitsRemaining ≤ -1 := by
          rw [htracks₂.remaining, Stack.push_len]
          omega
        simp only [lead'.symbol, hsecond, hupdate', hmore', if_false, WeightAcc.pushAll_cons]
        apply ih rest
        · simp at hfuel
          omega
        · exact htracks₂.cast rfl (by rw [Stack.push_len]; omega)
        · rw [WeightAcc.push_length]
          simp at hcount
          omega
        · intro z hz
          exact hle z (by simp [hz])

end Turns

/-- What a weight description is to its reader: the weights, and where they end. -/
def Carries (weights : List Nat) (description : List UInt8) : Prop :=
  ∀ (t : HuffmanTable) (rest : List UInt8), t.fseTable.maxSymbol = 255 →
    ∃ fse : FSETableImpl Entry 64, fse.maxSymbol = 255 ∧
      t.readWeights (description ++ rest) = (.ok description.length,
        { t with fseTable := fse }.withWeights (WeightAcc.pushAll {} weights))

section Description

variable {d d' : Distribution} {enc : FSETable} {weights : List Nat}

/-- The FSE form of the weights reads back, whatever follows it. -/
theorem readCompressedWeights_encoded (he : Fse.Encoder.TableOf d enc) (htrim : TrimmedTo d d')
    (hlog : d.accLog ≤ 6) (hmixed : ∀ x, d.Present x → weight (d.probs.getD x 0) < d.size)
    (htwo : 2 ≤ weights.length) (hlen : weights.length ≤ 255) (hx : ∀ x ∈ weights, d.Present x)
    (hle : ∀ x ∈ weights, x ≤ 12) {w f : BitWriter}
    (hw : encodeInterleaved enc weights (.ofOutput []) = some w) (hf : w.flush = some f)
    {t : HuffmanTable} (hsym : t.fseTable.maxSymbol = 255) (rest : List UInt8) :
    ∃ fse : FSETableImpl Entry 64, fse.maxSymbol = 255 ∧
      t.readCompressedWeights f.output.length (f.output ++ rest) = (.ok (1 + f.output.length),
        { t with fseTable := fse }.withWeights (WeightAcc.pushAll {} weights)) := by
  have hal : (BitWriter.ofOutput []).index % 8 = 0 := rfl
  have hsize : d.size ≤ 64 := Nat.pow_le_pow_right (by decide) hlog
  obtain ⟨-, hdec₀⟩ := buildFromProbabilities_spec d (FSETableImpl.new 255 : FSETableImpl Entry 64)
    (by have := d.length_le; simp only [FSETableImpl.new]; omega) hsize
  -- every table of the distribution takes its turns on one payload
  obtain ⟨_, payload, _, _, _, _, hw', ⟨w₀, f₀, _, hw₀, hf₀, hf', hout⟩, hk1, -, -, -, hbits, -⟩ :=
    encodeInterleaved_turns he hdec₀ htwo hx hal
  cases hw.symm.trans hw'
  cases hf.symm.trans hf'
  have hne : payload ≠ [] := by
    intro h0
    have hzero := congrArg Stack.len hbits
    rw [h0, Stack.ofBytes_len, Stack.push_len, List.length_nil] at hzero
    omega
  obtain ⟨fse, hbuild, hfse, hmax⟩ := buildDecoder_reads he htrim (t := t.fseTable)
    (by have := d.length_le; omega) hlog (by decide) (by decide) hw₀ hf₀
    (show payload ++ rest ≠ [] by simp [hne])
  obtain ⟨_, payload', u, v, s, k, hw'', ⟨w₁, f₁, _, hw₁, hf₁, hf'', hout'⟩, hk1, hk8, hu, hv,
    hbits, hturns⟩ := encodeInterleaved_turns he hfse htwo hx hal
  cases hw.symm.trans hw''
  cases hf.symm.trans hf''
  cases hw₀.symm.trans hw₁
  cases hf₀.symm.trans hf₁
  cases List.append_cancel_left (hout.symm.trans hout')
  have hat := BitReaderReversed.new_at payload
  rw [hbits] at hat
  obtain ⟨r₁, hr1, ha1⟩ := hat.skipPadding hk1 hk8
  obtain ⟨r₂, hr2, ha2⟩ := initState_spec hfse hu ha1
  obtain ⟨r₃, hr3, ha3⟩ := initState_spec hfse hv ha2
  have hrun := decodeWeights_turns he hfse hlog hmixed hturns (show weights.length ≤ 2 * 256 by omega)
    (⟨ha3.sound, ha3.stack, ha3.remaining⟩ : r₃.Tracks s s.len) {}
    (by simpa using hlen) hle
  have hsource : f.output ++ rest = f₀.output ++ (payload ++ rest) := by
    rw [hout, List.append_assoc]
  have hlength : f.output.length = f₀.output.length + payload.length := by
    rw [hout, List.length_append]
  have hused : f.output.length - f₀.output.length = payload.length := by
    rw [hlength, Nat.add_sub_cancel_left]
  refine ⟨fse, hmax.trans hsym, ?_⟩
  rw [HuffmanTable.readCompressedWeights, if_neg (by simp), hsource, hbuild]
  simp only [if_neg (show ¬f.output.length < f₀.output.length by omega), hused, List.drop_left,
    if_neg (show ¬(payload ++ rest).length < payload.length by simp), List.take_left, hr1,
    if_neg (Nat.not_lt.mpr hk8), hr2, hr3, hrun]

theorem carries_encoded (he : Fse.Encoder.TableOf d enc) (htrim : TrimmedTo d d')
    (hlog : d.accLog ≤ 6) (hmixed : ∀ x, d.Present x → weight (d.probs.getD x 0) < d.size)
    (htwo : 2 ≤ weights.length) (hlen : weights.length ≤ 255) (hx : ∀ x ∈ weights, d.Present x)
    (hle : ∀ x ∈ weights, x ≤ 12) {w f : BitWriter}
    (hw : encodeInterleaved enc weights (.ofOutput []) = some w) (hf : w.flush = some f)
    (hshort : f.output.length < 128) :
    Carries weights (UInt8.ofNat f.output.length :: f.output) := by
  intro t rest hsym
  obtain ⟨fse, hfse, hread⟩ := readCompressedWeights_encoded he htrim hlog hmixed htwo hlen hx hle
    hw hf hsym rest
  have hbyte : (UInt8.ofNat f.output.length).toNat = f.output.length := by
    rw [UInt8.toNat_ofNat', Nat.mod_eq_of_lt (by omega)]
  refine ⟨fse, hfse, ?_⟩
  rw [List.cons_append, HuffmanTable.readWeights, hbyte, if_pos (by omega), hread,
    List.length_cons, Nat.add_comm]

/-- Weights by pairs, the second in the low nibble. -/
def nibbleBytes : List Nat → List UInt8
  | [] => []
  | [weight] => [UInt8.ofNat (weight * 16)]
  | weight1 :: weight2 :: weights => UInt8.ofNat (weight1 * 16 + weight2) :: nibbleBytes weights

theorem nibbleBytes_length (weights : List Nat) :
    (nibbleBytes weights).length = (weights.length + 1) / 2 := by
  match weights with
  | [] => rfl
  | [_] => simp [nibbleBytes]
  | _ :: _ :: weights =>
    have ih := nibbleBytes_length weights
    simp only [nibbleBytes, List.length_cons, ih]
    omega

theorem pushWeightRaw_ok {acc : WeightAcc} {w : Nat} (hw : w ≤ 12) :
    pushWeightRaw acc w = .ok (acc.push w) := if_neg (Nat.not_lt.mpr hw)

/-- The nibbles are read back, the half byte that is left over skipped. -/
theorem readNibbles_nibbleBytes (weights : List Nat) (hle : ∀ w ∈ weights, w ≤ 12) {n idx : Nat}
    (hn : idx + weights.length = n) (acc : WeightAcc) :
    readNibbles n (nibbleBytes weights) idx acc = (.ok (), acc.pushAll weights) := by
  match weights, hle with
  | [], _ => rfl
  | [weight], hle =>
    have hw := hle weight List.mem_cons_self
    have hhigh : (UInt8.ofNat (weight * 16)).toNat >>> 4 = weight := by
      rw [UInt8.toNat_ofNat', Nat.mod_eq_of_lt (by omega), Nat.shiftRight_eq_div_pow]
      omega
    have hlast : ¬idx + 1 < n := by
      simp at hn
      omega
    rw [nibbleBytes, readNibbles, hhigh, pushWeightRaw_ok hw]
    simp only [if_neg hlast, readNibbles, WeightAcc.pushAll_cons, WeightAcc.pushAll_nil]
  | weight1 :: weight2 :: weights, hle =>
    have h1 := hle weight1 (by simp)
    have h2 := hle weight2 (by simp)
    have hmod : (weight1 * 16 + weight2) % 2 ^ 8 = weight1 * 16 + weight2 :=
      Nat.mod_eq_of_lt (by omega)
    have hhigh : (UInt8.ofNat (weight1 * 16 + weight2)).toNat >>> 4 = weight1 := by
      rw [UInt8.toNat_ofNat', hmod, Nat.shiftRight_eq_div_pow]
      omega
    have hlow : (UInt8.ofNat (weight1 * 16 + weight2)).toNat &&& 0xF = weight2 := by
      rw [UInt8.toNat_ofNat', hmod, show (0xF : Nat) = 2 ^ 4 - 1 from rfl,
        Nat.and_two_pow_sub_one_eq_mod]
      omega
    have hmore : idx + 1 < n := by
      simp at hn
      omega
    have ih := readNibbles_nibbleBytes weights (fun w hw => hle w (by simp [hw]))
      (show idx + 2 + weights.length = n by simp at hn; omega) ((acc.push weight1).push weight2)
    rw [nibbleBytes, readNibbles, hhigh, pushWeightRaw_ok h1]
    simp only [hlow, if_pos hmore, pushWeightRaw_ok h2, ih, WeightAcc.pushAll_cons]

theorem carries_raw (hpos : weights ≠ []) (hlen : weights.length ≤ 128)
    (hle : ∀ w ∈ weights, w ≤ 12) :
    Carries weights (UInt8.ofNat (weights.length + 127) :: nibbleBytes weights) := by
  intro t rest hsym
  have hbyte : (UInt8.ofNat (weights.length + 127)).toNat = weights.length + 127 := by
    rw [UInt8.toNat_ofNat', Nat.mod_eq_of_lt (by omega)]
  have hone := List.length_pos_iff.mpr hpos
  have hread := readNibbles_nibbleBytes weights hle (Nat.zero_add _) {}
  have hbytes := nibbleBytes_length weights
  have hcut : (nibbleBytes weights ++ rest).take ((weights.length + 1) / 2) =
      nibbleBytes weights := by rw [← hbytes, List.take_left]
  refine ⟨t.fseTable, hsym, ?_⟩
  rw [List.cons_append, HuffmanTable.readWeights, hbyte, if_neg (by omega),
    HuffmanTable.readRawWeights]
  simp only [Nat.add_sub_cancel, hcut, hread]
  rw [if_neg (by rw [List.length_append, hbytes]; omega), List.length_cons, hbytes]
  congr 2
  omega

end Description

end Huff0.Decoder
