import JKYi.Http2.FrameWrite

/-!
# Reading frames

What the readers of the bodies make of a payload and what `parseFrom` hands to them. The
payload is received over the header: behind a payload of fewer than nine bytes the rest of
the header is still there to be read.
-/

namespace JKYi.Http2

open JKYi.ByteArray List Run

/-- With `d` at the cursor `x` returns `a` and consumes `d`. There has to be room behind a
`d` of at most `k` bytes, since nothing can be read at the end of the memory. -/
def Receives {α : Type} (k : ℕ) (x : Run Exn ByteArray α) (a : α) (d : List UInt8) : Prop :=
  ∀ (ba : ByteArray) (rest : List UInt8), ba.Wf → ba.endian = .big →
    (d.length ≤ k → ba.position + d.length < ba.capacity) → ba.unread = d ++ rest →
    x ba = .ok a (ba.advance d.length)

variable {ba : ByteArray}

section

variable {α β : Type} {x : Run Exn ByteArray α} {a : α} {d d' : List UInt8} {k : ℕ}

theorem receives_of_reads (h : Reads .big x a d) : Receives k x a d :=
  fun ba rest hwf he _ hunread => h ba rest hwf he hunread

theorem Receives.mono {k' : ℕ} (h : Receives k x a d) (hk : k ≤ k') : Receives k' x a d :=
  fun ba rest hwf he hroom hunread => h ba rest hwf he (fun hd => hroom (hd.trans hk)) hunread

theorem Receives.map (h : Receives k x a d) (f : α → β) :
    Receives k (x >>= fun a => pure (f a)) (f a) d := by
  intro ba rest hwf he hroom hunread
  rw [bind_ok (h ba rest hwf he hroom hunread), pure_run]

theorem Receives.bind {f : α → Run Exn ByteArray β} {b : β} (hx : Reads .big x a d)
    (hf : Receives k (f a) b d') : Receives (d.length + k) (x >>= f) b (d ++ d') := by
  intro ba rest hwf he hroom hunread
  rw [append_assoc] at hunread
  have hnext := hf (ba.advance d.length) rest (advance_wf hwf (length_le_getReadSize hwf hunread))
    he ?_ (unread_advance_append hunread)
  · rw [bind_ok (hx ba _ hwf he hunread), hnext, advance_advance, length_append]
  · intro hd'
    have := hroom (by rw [length_append]; omega)
    rw [length_append] at this
    change ba.position + d.length + d'.length < ba.capacity
    omega

theorem attempt_eq_true_iff {σ : Type} {body : Run Exn σ Unit} {s s' : σ} :
    attempt body s = .ok true s' ↔ body s = .ok () s' := by
  constructor
  · intro h
    cases hbody : body s with
    | ok u s₁ =>
      cases h.symm.trans (attempt_ok hbody)
      rfl
    | raised e s₁ =>
      rw [attempt, tryCatch_raised (bind_raised hbody)] at h
      cases h
    | crash =>
      rw [attempt, Run.tryCatch, bind_crash hbody] at h
      cases h
  · exact attempt_ok

theorem Receives.attempt {F : Type} {f f' : F} {body : Run Exn (F × ByteArray) Unit}
    (h : Receives k (Run.withObject f body) ((), f') d) :
    Receives k (Run.withObject f (attempt body)) (true, f') d := by
  intro ba rest hwf he hroom hunread
  have hrun := withObject_eq_ok_iff.mp (h ba rest hwf he hroom hunread)
  exact withObject_ok (attempt_ok hrun)

theorem position_lt_capacity (h : ba.Wf) (hunread : ba.unread ≠ []) :
    ba.position < ba.capacity := by
  have hlen := length_pos_iff.mpr hunread
  rw [length_unread h] at hlen
  have := h.size_le
  unfold getReadSize at hlen
  omega

theorem readResized_ok {rest : List UInt8} (h : ba.Wf)
    (hunread : ba.unread = d ++ rest) (hlen : d.length < 2 ^ 24)
    (hcur : ba.position < ba.capacity) :
    readResized d.length ba = .ok d (ba.advance d.length) := by
  have hmax : ¬ stringMaxSize < d.length := by
    unfold stringMaxSize
    omega
  rw [readResized, if_neg hmax, read_ok h (length_le_getReadSize h hunread) hcur, hunread,
    take_left]

theorem receives_readResized (hlen : d.length < 2 ^ 24) :
    Receives 0 (readResized d.length) d d := by
  intro ba rest hwf _ hroom hunread
  apply readResized_ok hwf hunread hlen
  by_cases hd : d = []
  · subst hd
    exact hroom le_rfl
  · apply position_lt_capacity hwf
    simp [hunread, hd]

theorem reads_two_strings {g : List UInt8 → List UInt8 → β} (hd' : d' ≠ [])
    (hlen : (d ++ d').length < 2 ^ 24) :
    Reads .big (do
      let s ← readResized d.length
      let s' ← readResized d'.length
      pure (g s s')) (g d d') (d ++ d') := by
  intro ba rest hwf he hunread
  rw [append_assoc] at hunread
  rw [length_append] at hlen
  have hcur := position_lt_capacity hwf (by simp [hunread, hd'])
  have hwf₁ := advance_wf hwf (length_le_getReadSize hwf hunread)
  have hunread₁ := unread_advance_append hunread
  have hcur₁ := position_lt_capacity hwf₁ (by simp [hunread₁, hd'])
  rw [bind_ok (readResized_ok hwf hunread (by omega) hcur),
    bind_ok (readResized_ok hwf₁ hunread₁ (by omega) hcur₁), pure_run, advance_advance,
    length_append]

theorem reads_word (v : UInt32) : Reads .big readFuint32 v (wordBytes v) := reads_readFuint32 v

end

theorem sizeOfInt_natCast {n : ℕ} (hn : n < 2 ^ 64) : sizeOfInt n = n := by
  unfold sizeOfInt
  omega

/-! The readers. -/

theorem FrameHeader.setRId_setLenType (h h₀ : FrameHeader) :
    setRId h.rId { setLenType h.lenType h₀ with flags := h.flags } = h := by
  have htype : h.lenType.toBitVec.extractLsb' 0 8 = h.type.toBitVec :=
    BitVec.extractLsb'_append_eq_right
  have hlength : h.lenType.toBitVec.extractLsb' 8 24 = h.length :=
    BitVec.extractLsb'_append_eq_left
  simp only [setRId, setLenType, htype, hlength, rId, lowBits_joinWord, topBit_joinWord]

theorem FrameHeader.receives_readFrom (h : FrameHeader) :
    Receives 0 (Run.withObject {} readFrom) (true, h) h.encode := by
  apply Receives.attempt
  apply receives_of_reads
  rw [withObject_field]
  refine (reads_word h.lenType).bind ?_
  rw [withObject_field]
  refine (reads_readFuint8 h.flags).bind ?_
  rw [withObject_field_last]
  have hlast := (reads_word h.rId).map fun w =>
    ((), setRId w { setLenType h.lenType {} with flags := h.flags })
  rwa [h.setRId_setLenType] at hlast

theorem PriorityFrame.receives_readFrom (f : PriorityFrame) (w w' : UInt32) :
    Receives 0 (Run.withObject f readFrom)
      (true, { f with streamDep := lowBits w, weight := w'.toUInt8 })
      (wordBytes w ++ wordBytes w') := by
  apply Receives.attempt
  apply receives_of_reads
  rw [withObject_field]
  refine (reads_word w).bind ?_
  rw [withObject_field_last]
  exact (reads_word w').map fun v => ((), { f with streamDep := lowBits w, weight := v.toUInt8 })

theorem RstStreamFrame.receives_readFrom (f : RstStreamFrame) :
    Receives 0 (Run.withObject {} readFrom) (true, f) (wordBytes f.errorCode) := by
  apply Receives.attempt
  apply receives_of_reads
  rw [withObject_field_last]
  exact (reads_word f.errorCode).map fun v => ((), RstStreamFrame.mk v)

theorem WindowUpdateFrame.receives_readFrom (f : WindowUpdateFrame) :
    Receives 0 (Run.withObject {} readFrom) (true, f) (wordBytes f.rIncrement) := by
  apply Receives.attempt
  apply receives_of_reads
  rw [withObject_field_last]
  have hlast := (reads_word f.rIncrement).map fun v =>
    ((), ({ increment := lowBits v, r := topBit v } : WindowUpdateFrame))
  simpa only [rIncrement, lowBits_joinWord, topBit_joinWord] using hlast

theorem SettingsItem.reads_readFrom (i : SettingsItem) :
    Reads .big (Run.withObject {} readFrom) (true, i) i.encode := by
  rw [readFrom, withObject_field]
  refine (reads_readFuint16 i.identifiber).bind ?_
  rw [withObject_field]
  exact (reads_word i.value).map fun v => (true, SettingsItem.mk i.identifiber v)

theorem SettingsFrame.reads_readItems (items : List SettingsItem) :
    Reads .big (readItems items.length) items (items.flatMap SettingsItem.encode) := by
  induction items with
  | nil => exact reads_pure []
  | cons i items ih => exact i.reads_readFrom.bind (ih.map fun items => i :: items)

theorem SettingsFrame.length_payload (f : SettingsFrame) :
    f.payload.length = SettingsItem.size * f.items.length := by
  unfold payload
  induction f.items with
  | nil => rfl
  | cons i items ih =>
    rw [flatMap_cons, length_append, ih, SettingsItem.length_encode, length_cons, SettingsItem.size]
    ring

section

variable {header : FrameHeader}

theorem SettingsFrame.receives_readFrom (f : SettingsFrame)
    (hlen : header.length.toNat = f.payload.length) :
    Receives 0 (Run.withObject {} (readFrom header)) (true, f) f.payload := by
  apply Receives.attempt
  apply receives_of_reads
  have hcount : header.length.toNat / SettingsItem.size = f.items.length := by
    rw [hlen, f.length_payload, Nat.mul_div_cancel_left _ (by decide)]
  rw [withObject_field_last, hcount]
  exact (reads_readItems f.items).map fun items => ((), SettingsFrame.mk items)

def PaddingOk (padded : Bool) (pad : UInt8) (padding : List UInt8) : Prop :=
  if padded then 1 ≤ pad.toNat ∧ padding.length = pad.toNat else pad = 0 ∧ padding = []

theorem DataFrame.receives_readFrom (f : DataFrame)
    (hpad : PaddingOk (header.has FrameFlagData.padded) f.pad f.padding)
    (hlen : header.length.toNat = (f.payload header).length) :
    Receives 0 (Run.withObject {} (readFrom header)) (true, f) (f.payload header) := by
  apply Receives.attempt
  have hshort := header.length.isLt
  rw [hlen] at hshort
  unfold PaddingOk at hpad
  unfold payload at hlen hshort ⊢
  split_ifs at hpad hlen hshort ⊢
  · apply receives_of_reads
    rw [length_append, length_singleton] at hlen hshort
    rw [withObject_field]
    refine (reads_readFuint8 f.pad).bind ?_
    rw [withObject_field]
    have hdata : ((header.length.toNat : ℤ) - f.pad.toNat - 1) = f.data.length := by
      rw [length_append] at hlen
      omega
    have hne : f.padding ≠ [] := by
      rw [← length_pos_iff]
      omega
    have htwo := reads_two_strings (d := f.data) hne (by omega)
      (g := fun s s' => ((), ({ pad := f.pad, data := s, padding := s' } : DataFrame)))
    rw [hdata, sizeOfInt_natCast (by omega), ← hpad.2]
    simp only [withObject_field_last]
    exact htwo
  · rw [withObject_field_last, hlen]
    have hone := (receives_readResized hshort).map fun s =>
      ((), ({ data := s } : DataFrame))
    obtain ⟨pad, data, padding⟩ := f
    obtain ⟨rfl, rfl⟩ := hpad
    exact hone

theorem GoAwayFrame.receives_readFrom (f : GoAwayFrame)
    (hlen : header.length.toNat = f.payload.length) :
    Receives 8 (Run.withObject {} (readFrom header)) (true, f) f.payload := by
  apply Receives.attempt
  unfold payload at hlen ⊢
  simp only [length_append, length_wordBytes] at hlen
  have hdata : (header.length.toNat : ℤ) - 8 = f.data.length := by omega
  rw [withObject_field]
  refine Receives.bind (k := 4) (reads_word f.rLastStreamId) ?_
  rw [withObject_field]
  refine Receives.bind (k := 0) (reads_word f.errorCode) ?_
  rw [readData, if_pos (by omega), withObject_field_last, hdata, sizeOfInt_natCast (by omega)]
  have hone := (receives_readResized (d := f.data) (by omega)).map fun s =>
    ((), ({ lastStreamId := f.lastStreamId, r := f.r, errorCode := f.errorCode, data := s } :
      GoAwayFrame))
  simpa only [rLastStreamId, lowBits_joinWord, topBit_joinWord] using hone

namespace HeadersFrame

variable (f : HeadersFrame)

theorem withObject_readPad : Run.withObject f (readPad header) =
    if header.has FrameFlagHeaders.padded then
      readFuint8 >>= fun pad =>
        pure ((header.length.toNat : ℤ) - (pad.toNat + 1), { f with pad := pad })
    else pure ((header.length.toNat : ℤ), f) := by
  unfold readPad
  split_ifs
  · rw [withObject_field]
    rfl
  · rfl

theorem withObject_readPriority (len : ℤ) : Run.withObject f (readPriority header len) =
    if header.has FrameFlagHeaders.priority then
      Run.withObject f.priority PriorityFrame.readFrom >>= fun r =>
        pure (len - 5, { f with priority := r.2 })
    else pure (len, f) := by
  funext ba
  unfold readPriority
  split_ifs
  · rw [withObject_get]
    rw [withObject_field]
    rfl
  · rfl

theorem withObject_readPadding : Run.withObject f (readPadding header) =
    if header.has FrameFlagHeaders.padded then
      readResized f.pad.toNat >>= fun padding => pure ((), { f with padding := padding })
    else pure ((), f) := by
  funext ba
  unfold readPadding
  split_ifs
  · rw [withObject_get]
    rw [withObject_field_last]
  · rfl

def readParts (header : FrameHeader) (f : HeadersFrame) :
    Run Exn ByteArray (Unit × HeadersFrame) := do
  let r ← Run.withObject f (readPad header)
  let r ← Run.withObject r.2 (readPriority header r.1)
  let data ← readResized (sizeOfInt r.1)
  Run.withObject { r.2 with data := data } (readPadding header)

theorem withObject_readFrom {f' : HeadersFrame} {ba' : ByteArray} :
    Run.withObject f (readFrom header) ba = .ok (true, f') ba' ↔
      readParts header f ba = .ok ((), f') ba' := by
  rw [withObject_eq_ok_iff, readFrom, attempt_eq_true_iff, ← withObject_eq_ok_iff, withObject_bind]
  simp only [withObject_bind _ (readPriority header _), withObject_field]
  rfl

theorem readParts_priority {w w' : UInt32} {tail : List UInt8}
    (hpriority : header.has FrameFlagHeaders.priority = true)
    (hpadded : header.has FrameFlagHeaders.padded = false) (hwf : ba.Wf) (he : ba.endian = .big)
    (hunread : ba.unread = (wordBytes w ++ wordBytes w') ++ tail) :
    readParts header {} ba =
      (readResized (sizeOfInt ((header.length.toNat : ℤ) - 5)) >>= fun data =>
      pure ((), ({ priority := ⟨lowBits w, 0, w'.toUInt8⟩, data := data } : HeadersFrame)))
        (ba.advance 8) := by
  have hread :=
    PriorityFrame.receives_readFrom {} w w' ba tail hwf he (fun h => by simp at h) hunread
  unfold readParts
  simp only [withObject_readPad, withObject_readPriority, withObject_readPadding, hpriority,
    hpadded, Bool.false_eq_true, if_false, if_true]
  rw [pure_bind_run]
  rw [bind_ok (bind_pure_ok _ hread)]
  simp

theorem readParts_priority_padded {pad : UInt8} {w w' : UInt32}
    {tail : List UInt8} (hpriority : header.has FrameFlagHeaders.priority = true)
    (hpadded : header.has FrameFlagHeaders.padded = true) (hwf : ba.Wf) (he : ba.endian = .big)
    (hunread : ba.unread = [pad] ++ ((wordBytes w ++ wordBytes w') ++ tail)) :
    readParts header {} ba =
      (readResized (sizeOfInt ((header.length.toNat : ℤ) - (pad.toNat + 1) - 5)) >>= fun data =>
        readResized pad.toNat >>= fun padding => pure ((), ({
          pad := pad, priority := ⟨lowBits w, 0, w'.toUInt8⟩, data := data, padding := padding } :
            HeadersFrame))) (ba.advance 9) := by
  have hread := reads_readFuint8 pad ba _ hwf he hunread
  have hwf₁ := advance_wf hwf (length_le_getReadSize hwf hunread)
  have hread₁ := PriorityFrame.receives_readFrom {} w w' _ tail hwf₁ he (fun h => by simp at h)
    (unread_advance_append hunread)
  unfold readParts
  simp only [withObject_readPad, withObject_readPriority, withObject_readPadding, hpriority,
    hpadded, if_true]
  rw [bind_ok (bind_pure_ok _ hread)]
  rw [bind_ok (bind_pure_ok _ hread₁), advance_advance]
  simp

/-- What arrives of a header block: neither a priority nor the fields it was packed from. -/
def received : HeadersFrame := { pad := f.pad, data := f.data, padding := f.padding }

theorem receives_readFrom (hpriority : header.has FrameFlagHeaders.priority = false)
    (hpad : PaddingOk (header.has FrameFlagHeaders.padded) f.pad f.padding)
    (hlen : header.length.toNat = (f.payload header).length) :
    Receives 0 (Run.withObject {} (readFrom header)) (true, f.received) (f.payload header) := by
  have hshort := header.length.isLt
  rw [hlen] at hshort
  have hparts : Receives 0 (readParts header {}) ((), f.received) (f.payload header) := by
    unfold readParts
    simp only [withObject_readPad, withObject_readPriority, withObject_readPadding, hpriority]
    unfold PaddingOk at hpad
    unfold payload padField priorityField paddingField at hlen hshort ⊢
    simp only [hpriority, Bool.false_eq_true, if_false, nil_append] at hlen hshort ⊢
    split_ifs at hpad hlen hshort ⊢
    · simp only [length_append, length_singleton] at hlen hshort
      have hdata : (header.length.toNat : ℤ) - (f.pad.toNat + 1) = f.data.length := by omega
      have hne : f.padding ≠ [] := by
        rw [← length_pos_iff]
        omega
      have htwo := reads_two_strings (d := f.data) hne (by rw [length_append]; omega)
        (g := fun s s' => ((), ({ pad := f.pad, data := s, padding := s' } : HeadersFrame)))
      rw [hpad.2, ← sizeOfInt_natCast (n := f.data.length) (by omega), ← hdata] at htwo
      exact receives_of_reads (((reads_readFuint8 f.pad).map fun pad =>
        ((header.length.toNat : ℤ) - (pad.toNat + 1), ({ pad := pad } : HeadersFrame))).bind htwo)
    · rw [nil_append, append_nil] at hlen hshort ⊢
      have hone := (receives_readResized hshort).map fun s => ((), ({ data := s } : HeadersFrame))
      rw [← sizeOfInt_natCast (n := f.data.length) (by omega), ← hlen] at hone
      unfold received
      rw [hpad.1, hpad.2]
      exact hone
  intro ba rest hwf he hroom hunread
  exact (withObject_readFrom _).mpr (hparts ba rest hwf he hroom hunread)

end HeadersFrame

end

@[simp] theorem FrameType.ofCode_code (t : FrameType) : ofCode t.code = some t := by
  cases t <;> rfl

/-! `parseFrom`. -/

namespace FrameCodec

theorem receives_parseAs {F : Type} {header : FrameHeader} {f f' : F}
    {readFrom : Run Exn (F × ByteArray) Bool} {d : List UInt8} {k : ℕ} (body : F → IFrame)
    (h : Receives k (Run.withObject f readFrom) (true, f') d) :
    Receives k (parseAs header body f readFrom) (some ⟨header, some (body f')⟩) d :=
  h.map fun r => if r.1 then some (Frame.mk header (some (body r.2))) else none

/-- The array that `readFrom` gets: the body, with what is left of the header behind it. It is full
when the body fills its nodes. -/
structure Received (ba : ByteArray) (header : FrameHeader) (p : List UInt8) : Prop where
  wf : ba.Wf
  endian_eq : ba.endian = .big
  position_le : ba.position ≤ 9
  capacity_ge : 4096 ≤ ba.capacity
  unread_eq : ba.unread = p ++ if p = [] then [] else header.encode.drop p.length
  full_iff : ba.size = ba.capacity ↔ 0 < p.length ∧ 4096 ∣ p.length

theorem capacity_ge_baseSize (h : ba.Wf) : ba.baseSize ≤ ba.capacity := by
  rw [h.capacity_eq]
  exact Nat.le_mul_of_pos_right _ h.nodes_pos

variable {rx : Socket} {header : FrameHeader} {p rest : List UInt8}

theorem receive_header (heap : ℕ → UInt8) (hs : rx.connected = true)
    (hin : rx.incoming = header.encode ++ rest) :
    ∃ rx₁ ba, rx₁.connected = true ∧ rx₁.incoming = rest ∧ ba.Wf ∧ ba.endian = .big ∧
      ba.baseSize = 4096 ∧ ba.capacity = 4096 ∧ ba.contents = header.encode ∧ ba.position = 9 ∧
      Run.tryCatch receive (pure none) (rx, create 4096 heap) =
        Run.tryCatch (receiveBody header) (pure none) (rx₁, ba) := by
  have hwf : (create 4096 heap).Wf := create_wf (by simp) heap
  have hcount : FrameHeader.size ≤ rx.incoming.length := by
    rw [hin, length_append, FrameHeader.length_encode, FrameHeader.size]
    omega
  obtain ⟨rx₁, ba₁, hrun₁, hs₁, hin₁, -, h₁, hcap₁⟩ :=
    SocketStream.readFixSize_ok hwf hs (by decide) hcount
  have hcap : ba₁.capacity = 4096 := by
    have hnodes := h₁.wf.nodes_pos
    have hmul := h₁.wf.capacity_eq
    rw [h₁.baseSize_eq] at hmul
    change ba₁.capacity = 4096 ∨ ba₁.capacity < 0 + 9 + 4096 at hcap₁
    change ba₁.capacity = 4096 * _ at hmul
    omega
  have htake : rx.incoming.take FrameHeader.size = header.encode := by
    rw [hin]
    exact take_left' header.length_encode
  rw [htake] at h₁
  obtain ⟨ba₂, hset, h₂⟩ := setPosition_spec h₁.wf (Nat.zero_le ba₁.capacity)
  have hcontents : ba₁.contents = header.encode := by
    rw [h₁.contents_eq]
    simp [contents, create, splice]
  have hunread : ba₂.unread = header.encode ++ [] := by
    rw [h₂.unread_eq, hcontents, append_nil]
  have hpos : ba₂.position + header.encode.length < ba₂.capacity := by
    have := capacity_ge_baseSize h₂.wf
    rw [h₂.baseSize_eq, h₁.baseSize_eq] at this
    change 4096 ≤ _ at this
    rw [h₂.position_eq, FrameHeader.length_encode]
    omega
  have he := h₂.endian_eq.trans h₁.endian_eq
  have hheader := header.receives_readFrom ba₂ [] h₂.wf he (fun _ => hpos) hunread
  refine ⟨rx₁, ba₂.advance header.encode.length, hs₁, ?_,
    advance_wf h₂.wf (length_le_getReadSize h₂.wf hunread), he,
    h₂.baseSize_eq.trans h₁.baseSize_eq, h₂.capacity_eq.trans hcap, ?_, ?_, ?_⟩
  · rw [hin₁, hin]
    exact drop_left' header.length_encode
  · exact (h₂.contents_eq (Nat.zero_le _)).trans hcontents
  · change ba₂.position + _ = 9
    rw [h₂.position_eq, FrameHeader.length_encode]
  · rw [receive, tryCatch_bind_ok (discard_ok hrun₁), tryCatch_bind_ok (onSnd_ok rx₁ hset),
      tryCatch_bind_ok (onSnd_ok rx₁ hheader)]
    dsimp only
    rw [if_pos rfl]

theorem parseBody_of_receives {r : Option Frame}
    (h : Receives 8 (parseBody header) r p) (hba : Received ba header p) :
    ∃ ba', parseBody header ba = .ok r ba' := by
  refine ⟨_, h ba _ hba.wf hba.endian_eq ?_ hba.unread_eq⟩
  intro _
  have := hba.position_le
  have := hba.capacity_ge
  omega

variable (heap : ℕ → UInt8) (hs : rx.connected = true)
  (hin : rx.incoming = header.encode ++ (p ++ rest)) (hlen : header.length.toNat = p.length)
include hs hin hlen

/-- The body is received and `readFrom` gets it. -/
theorem parseFrom_eq :
    ∃ ba rx', Received ba header p ∧ rx'.incoming = rest ∧ parseFrom heap rx =
      Run.withLocal ba (Run.tryCatch (Run.onSnd (parseBody header)) (pure none)) rx' := by
  obtain ⟨rx₁, ba₁, hs₁, hin₁, hwf₁, he₁, hbase₁, hcap₁, hcontents₁, hpos₁, hrun₁⟩ :=
    receive_header heap hs hin
  have hsize₁ : ba₁.size = 9 := by
    rw [← length_contents hwf₁, hcontents₁, FrameHeader.length_encode]
  rcases Nat.eq_zero_or_pos p.length with hzero | hpos
  · obtain rfl := length_eq_zero_iff.mp hzero
    refine ⟨ba₁, rx₁, ⟨hwf₁, he₁, hpos₁.le, hbase₁ ▸ capacity_ge_baseSize hwf₁, ?_, by omega⟩,
      hin₁, ?_⟩
    · rw [unread, hcontents₁, hpos₁]
      exact drop_eq_nil_of_le header.length_encode.le
    · apply withLocal_congr
      rw [hrun₁, receiveBody, if_neg (by omega)]
  · obtain ⟨ba₂, hset₂, h₂⟩ := setPosition_spec hwf₁ (Nat.zero_le ba₁.capacity)
    have hcount : p.length ≤ rx₁.incoming.length := by
      rw [hin₁, length_append]
      omega
    obtain ⟨rx₃, ba₃, hrun₃, -, hin₃, -, h₃, hcap₃⟩ :=
      SocketStream.readFixSize_ok h₂.wf hs₁ (by omega) hcount
    rw [hin₁, take_left] at h₃
    obtain ⟨ba₄, hset₄, h₄⟩ := setPosition_spec h₃.wf (Nat.zero_le ba₃.capacity)
    have hbase : ba₄.baseSize = 4096 := by
      rw [h₄.baseSize_eq, h₃.baseSize_eq, h₂.baseSize_eq, hbase₁]
    have he : ba₄.endian = .big := by rw [h₄.endian_eq, h₃.endian_eq, h₂.endian_eq, he₁]
    refine ⟨ba₄, rx₃, ⟨h₄.wf, he, by rw [h₄.position_eq]; omega,
      hbase ▸ capacity_ge_baseSize h₄.wf, ?_, ?_⟩, ?_, ?_⟩
    · rw [h₄.unread_eq, h₃.contents_eq, h₂.contents_eq (Nat.zero_le _), hcontents₁, h₂.position_eq,
        if_neg (length_pos_iff.mp hpos)]
      simp [splice]
    · have hsize := h₃.size_eq h₂.wf
      have hmul := h₄.wf.capacity_eq
      have hle := h₄.wf.size_le
      rw [h₄.capacity_eq] at hmul hle ⊢
      rw [h₂.size_eq, h₂.position_eq] at hsize
      rw [h₂.capacity_eq, h₂.position_eq, h₂.baseSize_eq] at hcap₃
      rw [h₄.size_eq] at hle ⊢
      rw [hbase] at hmul
      omega
    · rw [hin₃, hin₁, drop_left]
    · apply withLocal_congr
      rw [hrun₁, receiveBody, hlen, if_pos hpos, tryCatch_bind_ok (onSnd_ok rx₁ hset₂),
        tryCatch_bind_ok hrun₃, if_neg (by omega),
        tryCatch_bind_ok (onSnd_ok rx₃ hset₄)]

theorem parseFrom_ok {r : Option Frame}
    (hbody : ∀ ba, Received ba header p → ∃ ba', parseBody header ba = .ok r ba') :
    ∃ rx', parseFrom heap rx = .ok r rx' ∧ rx'.incoming = rest := by
  obtain ⟨ba, rx', hba, hrest, hrun⟩ := parseFrom_eq heap hs hin hlen
  obtain ⟨ba', hparse⟩ := hbody ba hba
  refine ⟨rx', ?_, hrest⟩
  rw [hrun]
  exact withLocal_eq_ok_iff.mpr ⟨_, tryCatch_ok (onSnd_ok rx' hparse)⟩

theorem parseBody_of_parseFrom {rx' : Socket} {g : Frame}
    (hrun : parseFrom heap rx = .ok (some g) rx') :
    ∃ ba ba', Received ba header p ∧ parseBody header ba = .ok (some g) ba' := by
  obtain ⟨ba, rx₁, hba, -, heq⟩ := parseFrom_eq heap hs hin hlen
  rw [heq] at hrun
  obtain ⟨ba', hcatch⟩ := withLocal_eq_ok_iff.mp hrun
  cases hbody : parseBody header ba with
  | ok r ba₁ =>
    cases (tryCatch_ok (onSnd_ok rx₁ hbody)).symm.trans hcatch
    exact ⟨ba, ba', hba, hbody⟩
  | raised e ba₁ =>
    have hsnd : Run.onSnd (parseBody header) (rx₁, ba) = .raised e (rx₁, ba₁) := by
      simp [Run.onSnd, hbody]
    cases (tryCatch_raised hsnd).symm.trans hcatch
  | crash =>
    simp [Run.tryCatch, onSnd_crash rx₁ hbody] at hcatch

end FrameCodec
end JKYi.Http2
