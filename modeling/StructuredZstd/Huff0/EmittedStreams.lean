import StructuredZstd.Huff0.PayloadSizes

namespace Huff0.Encoder.HuffmanTable

open Bits BitIo
open Fse.Encoder (FSETable)

variable {t : HuffmanTable} {data : List UInt8} {w : BitWriter} {bytes : List UInt8}

theorem Encodes.subset {part : List UInt8} (h : t.Encodes data) (hsub : part ⊆ data) :
    t.Encodes part := fun s hs => h s (hsub hs)

theorem Encodes.lt (h : t.Encodes data) {s : UInt8} (hs : s ∈ data) :
    s.toNat < t.codes.length := by
  have hwidth := h s hs
  by_contra hge
  rw [numBitsForSymbol, List.getElem?_eq_none (Nat.le_of_not_lt hge)] at hwidth
  cases hwidth

theorem bitsOf_reverse (t : HuffmanTable) (data : List UInt8) :
    t.bitsOf data.reverse = t.bitsOf data := by
  rw [bitsOf, List.map_reverse, List.sum_reverse, bitsOf]

theorem Sound.widthOf_le (h : t.Sound) (symbol : Nat) : t.widthOf symbol ≤ t.tableLog := by
  rw [numBits_getD, List.getD_eq_getElem?_getD]
  cases hc : t.codes[symbol]? with
  | none => exact Nat.zero_le _
  | some code => exact h.width_le symbol code.1 code.2 hc

theorem Sound.bitsOf_le (h : t.Sound) (data : List UInt8) :
    t.bitsOf data ≤ data.length * t.tableLog := by
  induction data with
  | nil => exact Nat.zero_le _
  | cons s data ih =>
    have hs := h.widthOf_le s.toNat
    rw [bitsOf] at ih ⊢
    rw [List.map_cons, List.sum_cons, List.length_cons, Nat.add_one_mul]
    omega

/-- The fields of a run of symbols. -/
def codeFields (t : HuffmanTable) (data : List UInt8) : List (Nat × Nat) :=
  data.map fun s => t.codes.getD s.toNat (0, 0)

theorem codeFields_sum (t : HuffmanTable) (data : List UInt8) :
    ((t.codeFields data).map Prod.snd).sum = t.bitsOf data := by
  rw [codeFields, List.map_map, bitsOf]
  congr 1
  apply List.map_congr_left
  intro s _
  exact (t.numBits_getD s.toNat).symm

theorem Sound.writeCodes (h : t.Sound) (hdata : t.Encodes data) (w : BitWriter) :
    w.Writes (t.codeFields data) (t.writeCodes data w) := by
  induction data generalizing w with
  | nil => exact .nil w
  | cons s data ih =>
    have hs := hdata.lt List.mem_cons_self
    obtain ⟨⟨c, n⟩, hget⟩ : ∃ code, t.codes[s.toNat]? = some code :=
      ⟨_, List.getElem?_eq_getElem hs⟩
    have hfield : t.codeFields (s :: data) = (c, n) :: t.codeFields data := by
      rw [codeFields, List.map_cons, List.getD_eq_getElem?_getD, hget]
      rfl
    have hn := (h.width_le _ _ _ hget).trans h.log_le
    rw [hfield, HuffmanTable.writeCodes]
    simp only [hget, Option.bind_eq_bind, Option.bind_some]
    apply BitWriter.Writes.bind_cons (.field w (h.code_lt _ _ _ hget) (by omega))
    exact fun w' => ih (hdata.subset (List.subset_cons_self _ _)) w'

/-- One stream holds the codes, a one on top of them and zeros up to a whole byte. -/
theorem Sound.encodeStream_bits (h : t.Sound) (hdata : t.Encodes data) (hw : w.Full bytes) :
    ∃ w' more, t.encodeStream data w = some w' ∧ w'.Full (bytes ++ more) ∧
      more.length = t.bitsOf data / 8 + 1 ∧
      le more = (Stack.empty.pushAll (t.codeFields data.reverse)).value + 2 ^ t.bitsOf data := by
  obtain ⟨w₁, hw₁, hst⟩ := h.writeCodes (hdata.subset (List.reverse_subset.mpr (List.Subset.refl _))) w
  have hlen : w₁.index = 8 * bytes.length + t.bitsOf data := by
    rw [BitWriter.index_eq, hst, Stack.pushAll_len, codeFields_sum, bitsOf_reverse, hw,
      Stack.ofBytes_len]
  obtain ⟨pad, hpad, hpos, hend⟩ : ∃ pad, (if w₁.misaligned = 0 then w₁.writeBits 1 8
      else w₁.writeBits 1 w₁.misaligned) = w₁.writeBits 1 pad ∧ 0 < pad ∧ pad ≤ 8 ∧
        t.bitsOf data + pad = 8 * (t.bitsOf data / 8 + 1) := by
    by_cases h0 : w₁.misaligned = 0
    · refine ⟨8, if_pos h0, by decide, by decide, ?_⟩
      rw [BitWriter.misaligned, hlen] at h0
      split at h0 <;> omega
    · refine ⟨w₁.misaligned, if_neg h0, Nat.pos_of_ne_zero h0, w₁.misaligned_lt.le, ?_⟩
      rw [BitWriter.misaligned, hlen] at h0 ⊢
      by_cases hal : (8 * bytes.length + t.bitsOf data) % 8 = 0
      · rw [if_pos hal] at h0
        exact absurd rfl h0
      · rw [if_neg hal]
        omega
  have hone : 1 < 2 ^ pad := Nat.one_lt_two_pow hpos.ne'
  obtain ⟨w', hw', hst'⟩ := w₁.writeBits_spec hone (by omega)
  have hwrites : w.Writes (t.codeFields data.reverse ++ [(1, pad)]) (t.encodeStream data w) := by
    refine ⟨w', ?_, ?_⟩
    · simp only [HuffmanTable.encodeStream, hw₁, Option.bind_eq_bind, Option.bind_some, hpad, hw']
    · rw [hst', hst, Stack.pushAll_append]
      rfl
  have hsum : (((t.codeFields data.reverse ++ [(1, pad)]).map Prod.snd).sum) =
      8 * (t.bitsOf data / 8 + 1) := by
    rw [List.map_append, List.sum_append, codeFields_sum, bitsOf_reverse, ← hend.2]
    rfl
  obtain ⟨w'', more, hr, hfull, hmore⟩ := hw.writes hwrites (by rw [hsum, Nat.mul_mod_right])
  refine ⟨w'', more, hr, hfull, ?_, ?_⟩
  · have := congrArg Stack.len hmore
    rw [Stack.ofBytes_len, Stack.pushAll_len, hsum, Stack.empty_len, Nat.zero_add] at this
    exact Nat.eq_of_mul_eq_mul_left (by decide) this
  · have hvalue := congrArg Stack.value hmore
    rw [Stack.pushAll_append, Stack.pushAll_cons, Stack.pushAll_nil,
      Stack.push_value_of_lt _ hone, Stack.pushAll_len, codeFields_sum, bitsOf_reverse,
      Stack.empty_len, Nat.zero_add, Nat.one_mul] at hvalue
    exact hvalue

theorem Sound.width_packed (h : t.Sound) (hdata : t.Encodes data) {s : UInt8} (hs : s ∈ data) :
    width (t.packedCodes.getD s.toNat 0) = t.widthOf s.toNat := by
  have hget := List.getElem?_eq_getElem (hdata.lt hs)
  rw [h.packed _ _ _ hget, width_packHufCelt ((h.width_le _ _ _ hget).trans h.log_le),
    numBits_getD, List.getD_eq_getElem?_getD, hget]
  rfl

/-- A segment fits the room made for it and takes as many bytes as a stream of the bit writer. -/
theorem Sound.encodeSegment (h : t.Sound) (hdata : t.Encodes data) :
    ∃ stream, t.encodeSegment data = some stream ∧
      stream.length = streamBytes (t.bitsOf data) := by
  obtain ⟨s, hs, hcounted⟩ := HufCStream.new_counted data.length t.tableLog
  have hwidths : (data.reverse.map fun s => t.packedCodes.getD s.toNat 0).map width =
      data.reverse.map fun s => t.widthOf s.toNat := by
    rw [List.map_map]
    apply List.map_congr_left
    intro x hx
    exact h.width_packed hdata (List.mem_reverse.mp hx)
  have hsum : widths (data.reverse.map fun s => t.packedCodes.getD s.toNat 0) = t.bitsOf data := by
    rw [widths, hwidths]
    exact t.bitsOf_reverse data
  have hle : ∀ elt ∈ data.reverse.map fun s => t.packedCodes.getD s.toNat 0,
      width elt ≤ t.tableLog := by
    intro elt helt
    obtain ⟨x, hx, rfl⟩ := List.mem_map.mp helt
    rw [h.width_packed hdata (List.mem_reverse.mp hx)]
    exact h.widthOf_le _
  have hbits := h.bitsOf_le data
  have hdiv : t.bitsOf data / 8 ≤ data.length * t.tableLog / 8 := Nat.div_le_div_right hbits
  have hrun := HufCStream.encodeOneStream_counted h.log_le hcounted hle (by omega)
  rw [hsum, Nat.zero_add] at hrun
  have hclose := HufCStream.close_length hrun (by omega)
  refine ⟨_, ?_, hclose.trans (streamBytes_eq _).symm⟩
  have hne : (s.encodeOneStream t.tableLog (data.reverse.map fun s =>
      t.packedCodes.getD s.toNat 0)).close ≠ [] := by
    intro h0
    rw [h0] at hclose
    cases hclose
  simp only [HuffmanTable.encodeSegment, hs, Option.bind_eq_bind, Option.bind_some, if_neg hne]

theorem Sound.appendSegment (h : t.Sound) (hdata : t.Encodes data) (listed : Bool)
    (hfits : listed → streamBytes (t.bitsOf data) < 2 ^ 16) (hw : w.Full bytes) :
    ∃ w' stream, t.appendSegment data listed w = some (stream.length, w') ∧
      w'.Full (bytes ++ stream) ∧ stream.length = streamBytes (t.bitsOf data) ∧
        t.encodeSegment data = some stream := by
  obtain ⟨stream, hstream, hlen⟩ := h.encodeSegment hdata
  obtain ⟨w', hw', hfull⟩ := hw.withAlignedOutput stream
  refine ⟨w', stream, ?_, hfull, hlen, hstream⟩
  have hlisted : ¬(listed = true ∧ 2 ^ 16 - 1 < stream.length) := by
    rintro ⟨hl, hlt⟩
    have := hfits hl
    omega
  simp only [HuffmanTable.appendSegment, hstream, hw', Option.bind_eq_bind, Option.bind_some,
    if_neg hlisted]

/-- A stream whose size is listed fits its entry of the jump table. -/
theorem Sound.appendSegment_listed (h : t.Sound) (hdata : t.Encodes data) {r : Nat × BitWriter}
    (hr : t.appendSegment data true w = some r) : streamBytes (t.bitsOf data) < 2 ^ 16 := by
  obtain ⟨stream, hstream, hlen⟩ := h.encodeSegment hdata
  simp only [HuffmanTable.appendSegment, hstream, Option.bind_eq_bind, Option.bind_some] at hr
  obtain ⟨w', -, hr⟩ := Option.bind_eq_some_iff.mp hr
  split at hr
  · cases hr
  · rename_i hfits
    have := not_and.mp hfits trivial
    omega

/-- The description in front of the streams takes just so many bytes. -/
def Described (t : HuffmanTable) (newTable : Option FSETable) (size : Nat) : Prop :=
  ∀ (w : BitWriter) (bytes : List UInt8), w.Full bytes → ∃ w' description,
      (newTable.elim (some w) fun fseTable => t.writeTable fseTable w) = some w' ∧
    w'.Full (bytes ++ description) ∧ description.length = size

/-- What the writer puts in front of the streams. -/
def Describes (t : HuffmanTable) (newTable : Option FSETable) (P : List UInt8 → Prop) : Prop :=
  ∀ (w : BitWriter) (bytes : List UInt8), w.Full bytes → ∃ w' description,
      (newTable.elim (some w) fun fseTable => t.writeTable fseTable w) = some w' ∧
    w'.Full (bytes ++ description) ∧ P description

theorem described_none (t : HuffmanTable) : t.Described none 0 := by
  intro w bytes hw
  refine ⟨w, [], rfl, ?_, rfl⟩
  rwa [List.append_nil]

/-- A new table is described in the bytes its size query gave, and they carry its weights. -/
theorem Sound.describes_some (h : t.Sound) {size : Nat} {scratch : FSETable}
    (hsize : t.tryTableDescriptionSize scratch = some (some size)) (fseTable : FSETable) :
    t.Describes (some fseTable) fun description => description.length = size ∧
      (2 ≤ t.codes.length → Huff0.Decoder.Carries t.weights.dropLast description) := by
  obtain ⟨r, hr, hwrite⟩ := h.describes
  rw [hr scratch] at hsize
  exact fun w bytes hw => hwrite size (Option.some.inj hsize) fseTable w bytes hw

theorem Sound.described_some (h : t.Sound) {size : Nat} {scratch : FSETable}
    (hsize : t.tryTableDescriptionSize scratch = some (some size)) (fseTable : FSETable) :
    t.Described (some fseTable) size := by
  intro w bytes hw
  obtain ⟨w', description, hw', hfull, hlen, -⟩ := h.describes_some hsize fseTable w bytes hw
  exact ⟨w', description, hw', hfull, hlen⟩

/-- One stream with its codes, behind the description of a new table. -/
theorem Sound.encode (h : t.Sound) (hdata : t.Encodes data) {newTable : Option FSETable}
    {P : List UInt8 → Prop} (hdesc : t.Describes newTable P) (hw : w.Full bytes) :
    ∃ w' description stream, t.encode data newTable w = some w' ∧
      w'.Full (bytes ++ (description ++ stream)) ∧ P description ∧
        stream.length = t.bitsOf data / 8 + 1 ∧
        le stream = (Stack.empty.pushAll (t.codeFields data.reverse)).value + 2 ^ t.bitsOf data := by
  obtain ⟨w₁, description, hw₁, hfull₁, hdescription⟩ := hdesc w bytes hw
  obtain ⟨w', stream, hw', hfull, hstream⟩ := h.encodeStream_bits hdata hfull₁
  refine ⟨w', description, stream, ?_, by rwa [← List.append_assoc], hdescription, hstream⟩
  cases newTable with
  | none =>
    cases hw₁
    exact hw'
  | some fseTable =>
    have hw₁ : t.writeTable fseTable w = some w₁ := hw₁
    simp only [HuffmanTable.encode, hw₁, Option.bind_eq_bind, Option.bind_some, hw']

/-- The four parts the source splits the literals of a section into. -/
def quarter (data : List UInt8) (k : Nat) : List UInt8 :=
  if k = 3 then data.drop ((data.length + 3) / 4 * 3)
  else (data.drop ((data.length + 3) / 4 * k)).take ((data.length + 3) / 4)

/-- The size of a part's stream. -/
def quarterBytes (t : HuffmanTable) (data : List UInt8) (k : Nat) : Nat :=
  streamBytes (t.bitsOf (quarter data k))

theorem quarter_zero (data : List UInt8) :
    quarter data 0 = data.take ((data.length + 3) / 4) := by
  rw [quarter, if_neg (by decide), Nat.mul_zero, List.drop_zero]

theorem quarter_one (data : List UInt8) :
    quarter data 1 = (data.drop ((data.length + 3) / 4)).take ((data.length + 3) / 4) := by
  rw [quarter, if_neg (by decide), Nat.mul_one]

theorem quarter_two (data : List UInt8) :
    quarter data 2 = (data.drop ((data.length + 3) / 4 * 2)).take ((data.length + 3) / 4) :=
  if_neg (by decide)

theorem quarter_last (data : List UInt8) :
    quarter data 3 = data.drop ((data.length + 3) / 4 * 3) := if_pos rfl

theorem quarter_subset (data : List UInt8) (k : Nat) : quarter data k ⊆ data := by
  unfold quarter
  split
  · exact List.drop_subset _ _
  · exact fun s hs => List.drop_subset _ _ (List.take_subset _ _ hs)

/-- No stream of a block is too long for the jump table. -/
theorem Sound.quarterBytes_lt (h : t.Sound) (hlen : data.length ≤ 128 * 1024) {k : Nat}
    (hk : k < 3) : t.quarterBytes data k < 2 ^ 16 := by
  have hpart : (quarter data k).length ≤ 32768 := by
    rw [quarter, if_neg (by omega), List.length_take]
    omega
  have hbits := h.bitsOf_le (quarter data k)
  have hmul : (quarter data k).length * t.tableLog ≤ 32768 * 12 := Nat.mul_le_mul hpart h.log_le
  rw [quarterBytes, streamBytes_eq]
  omega

/-- A jump-table entry is filled in with the size of its stream. -/
theorem fill_entry (before after : List UInt8) {size : Nat}
    (hw : w.Full (before ++ [0, 0] ++ after)) (hsize : size < 2 ^ 16) (hafter : after ≠ []) :
    ∃ w', w.changeBits (8 * before.length) size 16 = some w' ∧
      w'.Full (before ++ toLeBytes 2 size ++ after) := by
  obtain ⟨patched, hw', hlen, hval⟩ := hw.changeBits size (show 0 + 16 = 8 * 2 by rfl)
    (by decide) (by decide) hafter
  have hpatched : patched = toLeBytes 2 size := by
    apply BitWriter.eq_toLeBytes hlen _ hsize
    rw [hval hsize]
    simp [le]
  rw [Nat.add_zero] at hw'
  refine ⟨_, hw', ?_⟩
  rw [hpatched]
  exact BitWriter.full_ofOutput _

/-- The room of the jump table. -/
theorem blank_entries (hw : w.Full bytes) : ∃ z₁ z₂ z₃, w.writeBits 0 16 = some z₁ ∧
    z₁.writeBits 0 16 = some z₂ ∧ z₂.writeBits 0 16 = some z₃ ∧
      z₃.Full (bytes ++ ([0, 0] ++ ([0, 0] ++ [0, 0]))) := by
  have hzero : ∀ z : BitWriter, z.Writes [(0, 16)] (z.writeBits 0 16) :=
    fun z => .field z (by decide) (by decide)
  obtain ⟨z₁, hz₁, hst₁⟩ := hzero w
  obtain ⟨z₂, hz₂, hst₂⟩ := hzero z₁
  obtain ⟨z₃, hz₃, hst₃⟩ := hzero z₂
  have hentries : w.Writes [(0, 16), (0, 16), (0, 16)] (some z₃) := by
    refine ⟨z₃, rfl, ?_⟩
    rw [hst₃, hst₂, hst₁]
    simp only [Stack.pushAll_cons, Stack.pushAll_nil]
  obtain ⟨z, blank, hz, hblank, hbits⟩ := hw.writes hentries (by simp)
  cases hz
  have hlen : blank.length = 6 := by
    have := congrArg Stack.len hbits
    simp only [Stack.ofBytes_len, Stack.pushAll_len, Stack.empty_len, List.map_cons, List.map_nil,
      List.sum_cons, List.sum_nil] at this
    omega
  have hval : le blank = 0 := by
    have := congrArg Stack.value hbits
    simpa [Stack.push_value] using this
  refine ⟨z₁, z₂, z₃, hz₁, hz₂, hz₃, ?_⟩
  have : blank = toLeBytes 6 0 := BitWriter.eq_toLeBytes hlen hval (by decide)
  rw [this] at hblank
  exact hblank

/-- A part's stream, of the size counted for it. -/
structure IsSegment (t : HuffmanTable) (data : List UInt8) (k : Nat) (stream : List UInt8) :
    Prop where
  segment : t.encodeSegment (quarter data k) = some stream
  length_eq : stream.length = t.quarterBytes data k

/-- Four streams go out behind the sizes of the first three. -/
theorem Sound.encode4x (h : t.Sound) (hdata : t.Encodes data) (hmin : 12 ≤ data.length)
    (hfits : ∀ k < 3, t.quarterBytes data k < 2 ^ 16) {newTable : Option FSETable}
    {P : List UInt8 → Prop} (hdesc : t.Describes newTable P) (hw : w.Full bytes) :
    ∃ w' description s1 s2 s3 s4, t.encode4x data newTable w = some w' ∧
      w'.Full (bytes ++ (description ++ (toLeBytes 2 s1.length ++ toLeBytes 2 s2.length ++
        toLeBytes 2 s3.length) ++ (s1 ++ s2 ++ s3 ++ s4))) ∧
      P description ∧ t.IsSegment data 0 s1 ∧ t.IsSegment data 1 s2 ∧ t.IsSegment data 2 s3 ∧
      t.IsSegment data 3 s4 := by
  have hpart : ∀ k, t.Encodes (quarter data k) := fun k => hdata.subset (quarter_subset data k)
  obtain ⟨w₀, description, hw₀, hfull₀, hlen⟩ := hdesc w bytes hw
  obtain ⟨z₁, z₂, z₃, hz₁, hz₂, hz₃, hblank⟩ := blank_entries hfull₀
  obtain ⟨w₁, s1, hw₁, hfull₁, hlen₁, hseg₁⟩ := h.appendSegment (hpart 0) true
    (fun _ => hfits 0 (by decide)) hblank
  obtain ⟨w₂, s2, hw₂, hfull₂, hlen₂, hseg₂⟩ := h.appendSegment (hpart 1) true
    (fun _ => hfits 1 (by decide)) hfull₁
  obtain ⟨w₃, s3, hw₃, hfull₃, hlen₃, hseg₃⟩ := h.appendSegment (hpart 2) true
    (fun _ => hfits 2 (by decide)) hfull₂
  obtain ⟨w₄, s4, hw₄, hfull₄, hlen₄, hseg₄⟩ := h.appendSegment (hpart 3) false
    (fun hl => by cases hl) hfull₃
  have hne : s1 ++ s2 ++ s3 ++ s4 ≠ [] := by
    intro h0
    have := congrArg List.length h0
    rw [List.length_append, hlen₄, streamBytes_eq] at this
    exact Nat.succ_ne_zero _ this
  have hindex := hfull₀.index_eq
  rw [List.length_append] at hindex
  obtain ⟨c₁, hc₁, hfill₁⟩ := fill_entry (w := w₄) (bytes ++ description)
    ([0, 0] ++ ([0, 0] ++ (s1 ++ s2 ++ s3 ++ s4))) (by simpa only [List.append_assoc] using hfull₄)
    (hlen₁.trans_lt (hfits 0 (by decide)))
    (by simp)
  obtain ⟨c₂, hc₂, hfill₂⟩ := fill_entry (w := c₁)
    (bytes ++ description ++ toLeBytes 2 s1.length) ([0, 0] ++ (s1 ++ s2 ++ s3 ++ s4))
    (by simpa only [List.append_assoc] using hfill₁) (hlen₂.trans_lt (hfits 1 (by decide)))
    (by simp)
  obtain ⟨c₃, hc₃, hfill₃⟩ := fill_entry (w := c₂)
    (bytes ++ description ++ toLeBytes 2 s1.length ++ toLeBytes 2 s2.length) (s1 ++ s2 ++ s3 ++ s4)
    (by simpa only [List.append_assoc] using hfill₂) (hlen₃.trans_lt (hfits 2 (by decide))) hne
  simp only [List.length_append, toLeBytes_length] at hc₁ hc₂ hc₃
  have hat₁ : w₀.index = 8 * (bytes.length + description.length) := hindex
  have hat₂ : w₀.index + 16 = 8 * (bytes.length + description.length + 2) := by omega
  have hat₃ : w₀.index + 32 = 8 * (bytes.length + description.length + 2 + 2) := by omega
  refine ⟨c₃, description, s1, s2, s3, s4, ?_, ?_, hlen, ⟨hseg₁, hlen₁⟩, ⟨hseg₂, hlen₂⟩,
    ⟨hseg₃, hlen₃⟩, ⟨hseg₄, hlen₄⟩⟩
  · have hlong : ¬data.length < 12 := Nat.not_lt.mpr hmin
    rw [quarter_zero] at hw₁
    rw [quarter_one] at hw₂
    rw [quarter_two] at hw₃
    rw [quarter_last] at hw₄
    rw [← hat₁] at hc₁
    rw [← hat₂] at hc₂
    rw [← hat₃] at hc₃
    cases newTable with
    | none =>
      cases hw₀
      simp only [HuffmanTable.encode4x, if_neg hlong, Option.bind_eq_bind, Option.bind_some, hz₁,
        hz₂, hz₃, hw₁, hw₂, hw₃, hw₄, hc₁, hc₂, hc₃]
    | some fseTable =>
      have hw₀ : t.writeTable fseTable w = some w₀ := hw₀
      simp only [HuffmanTable.encode4x, if_neg hlong, Option.bind_eq_bind, Option.bind_some, hw₀,
        hz₁, hz₂, hz₃, hw₁, hw₂, hw₃, hw₄, hc₁, hc₂, hc₃]
  · simpa only [List.append_assoc] using hfill₃

/-- Four streams are written only of data that the jump table has the room for. -/
theorem Sound.encode4x_fits (h : t.Sound) (hdata : t.Encodes data) {w' : BitWriter}
    (hw' : t.encode4x data none w = some w') :
    12 ≤ data.length ∧ ∀ k < 3, t.quarterBytes data k < 2 ^ 16 := by
  have hpart : ∀ k, t.Encodes (quarter data k) := fun k => hdata.subset (quarter_subset data k)
  have hmin : 12 ≤ data.length := by
    by_contra hshort
    rw [HuffmanTable.encode4x, if_pos (Nat.lt_of_not_le hshort)] at hw'
    cases hw'
  refine ⟨hmin, ?_⟩
  rw [HuffmanTable.encode4x, if_neg (Nat.not_lt.mpr hmin)] at hw'
  dsimp only [Option.bind_eq_bind, Option.bind_some] at hw'
  obtain ⟨z₁, -, hw'⟩ := Option.bind_eq_some_iff.mp hw'
  obtain ⟨z₂, -, hw'⟩ := Option.bind_eq_some_iff.mp hw'
  obtain ⟨z₃, -, hw'⟩ := Option.bind_eq_some_iff.mp hw'
  obtain ⟨⟨size1, w₁⟩, hw₁, hw'⟩ := Option.bind_eq_some_iff.mp hw'
  obtain ⟨⟨size2, w₂⟩, hw₂, hw'⟩ := Option.bind_eq_some_iff.mp hw'
  obtain ⟨⟨size3, w₃⟩, hw₃, -⟩ := Option.bind_eq_some_iff.mp hw'
  rw [← quarter_zero] at hw₁
  rw [← quarter_one] at hw₂
  rw [← quarter_two] at hw₃
  intro k hk
  match k, hk with
  | 0, _ => exact h.appendSegment_listed (hpart 0) hw₁
  | 1, _ => exact h.appendSegment_listed (hpart 1) hw₂
  | 2, _ => exact h.appendSegment_listed (hpart 2) hw₃

/-- The streams stand behind the description as they would on their own. -/
theorem encode_described {fseTable : FSETable} {w₁ : BitWriter}
    (h : t.writeTable fseTable w = some w₁) (data : List UInt8) :
    t.encode data (some fseTable) w = t.encode data none w₁ := by
  simp only [encode, h, Option.bind_eq_bind, Option.bind_some]

theorem encode4x_described {fseTable : FSETable} {w₁ : BitWriter}
    (h : t.writeTable fseTable w = some w₁) (data : List UInt8) :
    t.encode4x data (some fseTable) w = t.encode4x data none w₁ := by
  simp only [encode4x, h, Option.bind_eq_bind, Option.bind_some]

end Huff0.Encoder.HuffmanTable
