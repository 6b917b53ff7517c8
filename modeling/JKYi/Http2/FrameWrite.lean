import JKYi.Http2.FrameFormat

/-!
# Writing frames

What the writers of the bodies leave in the array and what `serializeTo` sends. The
header is written twice: in front of the body to make room for it, and over itself once
the length of the body is known.
-/

namespace JKYi.Http2

open FrameCodec JKYi.ByteArray Run List

/-- On every well-formed array in the big byte order the computation returns `a` and writes the
bytes `d` at the position. -/
def Emits {α : Type} (x : Run Exn ByteArray α) (a : α) (d : List UInt8) : Prop :=
  ∀ ba : ByteArray, ba.Wf → ba.endian = .big → ∃ ba', x ba = .ok a ba' ∧ Written ba d ba'

section

variable {α β : Type} {x : Run Exn ByteArray α} {a : α} {d d' : List UInt8}

theorem emits_of_writes {x : Run Exn ByteArray Unit} (h : Writes .big x d)
    (hlen : d.length < 2 ^ 53) : Emits x () d := by
  intro ba hwf he
  obtain ⟨ba', hrun⟩ := (h ba hwf he).2 hlen
  exact ⟨ba', hrun, (h ba hwf he).1 () ba' hrun⟩

theorem emits_pure (a : α) : Emits (pure a) a [] := fun ba hwf _ => ⟨ba, rfl, written_nil hwf⟩

/-- One writer after another. -/
theorem Emits.bind {f : α → Run Exn ByteArray β} {b : β} (hx : Emits x a d)
    (hf : Emits (f a) b d') : Emits (x >>= f) b (d ++ d') := by
  intro ba hwf he
  obtain ⟨ba₁, hrun₁, h₁⟩ := hx ba hwf he
  obtain ⟨ba₂, hrun₂, h₂⟩ := hf ba₁ h₁.wf (h₁.endian_eq.trans he)
  exact ⟨ba₂, (bind_ok hrun₁).trans hrun₂, h₁.append hwf h₂⟩

theorem Emits.map (hx : Emits x a d) (f : α → β) : Emits (f <$> x) (f a) d := by
  intro ba hwf he
  obtain ⟨ba', hrun, h⟩ := hx ba hwf he
  exact ⟨ba', map_ok f hrun, h⟩

theorem Emits.discard (hx : Emits x a d) : Emits (discard x) () d := by
  intro ba hwf he
  obtain ⟨ba', hrun, h⟩ := hx ba hwf he
  exact ⟨ba', discard_ok hrun, h⟩

theorem attempt_ok {σ : Type} {body : Run Exn σ Unit} {s s' : σ} (h : body s = .ok () s') :
    attempt body s = .ok true s' :=
  tryCatch_ok (bind_ok h)

theorem Emits.attempt {body : Run Exn ByteArray Unit} (hbody : Emits body () d) :
    Emits (attempt body) true d := by
  intro ba hwf he
  obtain ⟨ba', hrun, h⟩ := hbody ba hwf he
  exact ⟨ba', attempt_ok hrun, h⟩

theorem emits_write (hlen : d.length < 2 ^ 53) : Emits (write d) () d :=
  emits_of_writes (writes_write d) hlen

theorem emits_byte (v : UInt8) : Emits (writeFuint8 v) () [v] :=
  emits_of_writes (writes_writeFuint8 v) (by simp)

theorem emits_word (v : UInt32) : Emits (writeFuint32 v) () (wordBytes v) :=
  emits_of_writes (writes_writeFixed 4 v.toNat) (by simp)

end

/-! The writers. -/

/-- The nine bytes of the header. -/
theorem FrameHeader.emits_writeTo (h : FrameHeader) : Emits h.writeTo true h.encode := by
  intro ba hwf he
  have hbody : Emits (do
      writeFuint32 h.lenType
      writeFuint8 h.flags
      writeFuint32 h.rId
      pure true) true (wordBytes h.lenType ++ ([h.flags] ++ (wordBytes h.rId ++ []))) :=
    (emits_word _).bind ((emits_byte _).bind ((emits_word _).bind (emits_pure true)))
  obtain ⟨ba', hrun, hw⟩ := hbody ba hwf he
  exact ⟨ba', tryCatch_ok hrun, hw⟩

theorem PriorityFrame.emits_writeTo (f : PriorityFrame) : Emits f.writeTo true f.encode :=
  ((emits_word f.eStreamDep).bind (emits_byte f.weight)).attempt

theorem SettingsItem.emits_writeTo (i : SettingsItem) : Emits i.writeTo true i.encode :=
  ((emits_of_writes (writes_writeFixed 2 i.identifiber.toNat) (by simp)).bind
    (emits_word i.value)).attempt

theorem SettingsFrame.emits_writeItems (items : List SettingsItem) :
    Emits (writeItems items) () (items.flatMap SettingsItem.encode) := by
  induction items with
  | nil => exact emits_pure ()
  | cons i items ih => exact i.emits_writeTo.discard.bind ih

section

variable {header : FrameHeader}

theorem DataFrame.emits_writeTo (f : DataFrame) (hlen : (f.payload header).length < 2 ^ 53) :
    Emits (f.writeTo header) true (f.payload header) := by
  apply Emits.attempt
  unfold payload at hlen ⊢
  split_ifs at hlen ⊢
  · simp only [length_append] at hlen
    exact (emits_byte f.pad).bind ((emits_write (by omega)).bind (emits_write (by omega)))
  · exact emits_write hlen

theorem GoAwayFrame.emits_writeTo (f : GoAwayFrame) (hlen : f.payload.length < 2 ^ 53) :
    Emits f.writeTo true f.payload := by
  simp only [payload, length_append] at hlen
  have hdata : Emits f.writeData () f.data := by
    unfold writeData
    split_ifs with hnil
    · rw [isEmpty_iff.mp hnil]
      exact emits_pure ()
    · exact emits_write (by omega)
  exact ((emits_word _).bind ((emits_word _).bind hdata)).attempt

section

variable (f : HeadersFrame)

theorem HeadersFrame.emits_writePad : Emits (f.writePad header) () (f.padField header) := by
  unfold writePad padField
  split_ifs
  · exact emits_byte f.pad
  · exact emits_pure ()

theorem HeadersFrame.emits_writePriority :
    Emits (f.writePriority header) () (f.priorityField header) := by
  unfold writePriority priorityField
  split_ifs
  · exact f.priority.emits_writeTo.discard
  · exact emits_pure ()

theorem HeadersFrame.emits_writePadding (hlen : (f.paddingField header).length < 2 ^ 53) :
    Emits (f.writePadding header) () (f.paddingField header) := by
  unfold writePadding paddingField at *
  split_ifs at hlen ⊢
  · exact emits_write hlen
  · exact emits_pure ()

theorem HeadersFrame.emits_writeTo (heap : ℕ → UInt8) (hpack : f.hpack = none)
    (hlen : (f.payload header).length < 2 ^ 53) :
    Emits (Run.withObject f (writeTo header heap)) (true, f) (f.payload header) := by
  simp only [payload, length_append] at hlen
  intro ba hwf he
  obtain ⟨ba₁, hrun₁, h₁⟩ := f.emits_writePad ba hwf he
  obtain ⟨ba₂, hrun₂, h₂⟩ := f.emits_writePriority ba₁ h₁.wf (h₁.endian_eq.trans he)
  have he₂ := h₂.endian_eq.trans (h₁.endian_eq.trans he)
  have hpadding : (f.paddingField header).length < 2 ^ 53 := by omega
  obtain ⟨ba₃, hrun₃, h₃⟩ := emits_write (d := f.data) (by omega) ba₂ h₂.wf he₂
  obtain ⟨ba₄, hrun₄, h₄⟩ := f.emits_writePadding hpadding ba₃ h₃.wf (h₃.endian_eq.trans he₂)
  have hnone : packKvs heap (f, ba₂) = .ok () (f, ba₂) := by simp [packKvs, hpack]
  refine ⟨ba₄, withObject_ok (attempt_ok ?_), h₁.append hwf (h₂.append h₁.wf (h₃.append h₂.wf h₄))⟩
  rw [bind_ok (get_run _)]
  dsimp only
  rw [bind_ok (onSnd_ok f hrun₁), bind_ok (onSnd_ok f hrun₂), bind_ok hnone, bind_ok (get_run _)]
  rw [bind_ok (onSnd_ok f hrun₃), onSnd_ok f hrun₄]

end

/-- A body whose bytes do not go through the header table. -/
def IFrame.Plain : IFrame → Prop
  | headers f => f.hpack = none
  | pushPromise _ => False
  | _ => True

theorem IFrame.emits_writeTo (body : IFrame) (heap : ℕ → UInt8) (hplain : body.Plain)
    (hlen : (body.payload header).length < 2 ^ 53) :
    Emits (body.writeTo header heap) (true, body) (body.payload header) := by
  cases body with
  | data f | goAway f => exact (f.emits_writeTo hlen).map _
  | headers f => exact (f.emits_writeTo heap hplain hlen).map _
  | priority f => exact f.emits_writeTo.map _
  | rstStream f => exact (emits_word f.errorCode).attempt.map _
  | settings f => exact (SettingsFrame.emits_writeItems f.items).attempt.map _
  | pushPromise f => exact hplain.elim
  | ping f => exact (emits_write hlen).attempt.map _
  | windowUpdate f => exact (emits_word f.rIncrement).attempt.map _

end

/-! `serializeTo`. -/

variable {s : Socket} {ba : ByteArray}

/-- Everything in the array is sent, from its start. -/
theorem sendAll_ok (h : ba.Wf) (hs : s.connected = true) (hpos : 0 < ba.size)
    (hsize : ba.size < 2 ^ 31) :
    ∃ s' ba', sendAll (s, ba) = .ok (ba.size : ℤ) (s', ba') ∧
      s'.outgoing = s.outgoing ++ ba.contents := by
  obtain ⟨ba₀, hset, hp⟩ := setPosition_spec h (Nat.zero_le ba.capacity)
  have hread : ba₀.getReadSize = ba.size := by
    rw [← length_unread hp.wf, hp.unread_eq, length_contents h]
  obtain ⟨s', hwrite, -, -, hout⟩ :=
    SocketStream.writeFixSize_ok hp.wf hs (hread.trans_lt hsize) le_rfl
  rw [← length_unread hp.wf, take_length, hp.unread_eq] at hout
  refine ⟨s', ba₀.advance ba₀.getReadSize, ?_, hout⟩
  have hgetSize : (ba₀.advance ba₀.getReadSize).getSize = ba.size := by
    change ba₀.size = ba.size
    rw [hp.size_eq, Nat.max_zero]
  rw [sendAll, bind_ok (onSnd_ok s hset), bind_ok (get_run _)]
  dsimp only
  rw [bind_ok hwrite, if_neg (by omega), bind_ok (get_run _)]
  rw [hgetSize, intOfSize_eq hsize, pure_run]

/-- The header is written again over itself, now with the length of the body. -/
theorem rewriteHeader_ok {header : FrameHeader} {d : List UInt8} (h : ba.Wf)
    (he : ba.endian = .big) (hcontents : ba.contents = header.encode ++ d)
    (hpos : ba.position = 9 + d.length) (hlen : d.length + 9 < 2 ^ 31) :
    ∃ ba', rewriteHeader header ba = .ok (header.withLength d.length) ba' ∧ ba'.Wf ∧
      ba'.contents = (header.withLength d.length).encode ++ d := by
  obtain ⟨ba₀, hset, hp⟩ := setPosition_spec h (Nat.zero_le ba.capacity)
  obtain ⟨ba', hwrite, hw⟩ := (header.withLength d.length).emits_writeTo ba₀ hp.wf
    (hp.endian_eq.trans he)
  have hheader : { header with
      length := BitVec.ofInt 24 (intOfSize ba.getPosition - FrameHeader.size) } =
      header.withLength d.length := by
    have hsub : ((9 + d.length : ℕ) : ℤ) - (9 : ℕ) = (d.length : ℕ) := by omega
    rw [getPosition, hpos, intOfSize_eq (by omega), FrameHeader.size, hsub, BitVec.ofInt_natCast]
    rfl
  refine ⟨ba', ?_, hw.wf, ?_⟩
  · rw [rewriteHeader, bind_ok (get_run _), bind_ok hset, hheader,
      bind_ok (discard_ok hwrite), pure_run]
  · rw [hw.contents_eq, hp.contents_eq (Nat.zero_le _), hp.position_eq, hcontents]
    simp [splice]

/-- A frame that fits an `int` is sent whole, with the length of its payload in the header. -/
theorem serializeTo_ok {frame : Frame} {body : IFrame} (heap : ℕ → UInt8)
    (hdata : frame.data = some body) (hplain : body.Plain)
    (hlen : frame.payload.length + 9 < 2 ^ 31) (hs : s.connected = true) :
    ∃ s', serializeTo heap frame s = .ok (((frame.payload.length + 9 : ℕ) : ℤ),
        ⟨frame.header.withLength frame.payload.length, some body⟩) s' ∧
      s'.outgoing = s.outgoing ++
        ((frame.header.withLength frame.payload.length).encode ++ frame.payload) := by
  have hpayload : frame.payload = body.payload frame.header := by rw [Frame.payload, hdata]
  rw [hpayload] at hlen ⊢
  have hwf : (create 4096 heap).Wf := create_wf (by simp) heap
  have hshort : (body.payload frame.header).length < 2 ^ 53 := by omega
  obtain ⟨ba₁, hrun₁, h₁⟩ := frame.header.emits_writeTo _ hwf rfl
  obtain ⟨ba₂, hrun₂, h₂⟩ := body.emits_writeTo heap hplain hshort ba₁ h₁.wf h₁.endian_eq
  have hw := h₁.append hwf h₂
  have hcontents : ba₂.contents = frame.header.encode ++ body.payload frame.header := by
    rw [hw.contents_eq]
    simp [contents, create, splice]
  have hpos : ba₂.position = 9 + (body.payload frame.header).length := by
    rw [hw.position_eq, length_append, FrameHeader.length_encode]
    exact Nat.zero_add _
  obtain ⟨ba₃, hrun₃, hwf₃, hcontents₃⟩ := rewriteHeader_ok hw.wf hw.endian_eq hcontents hpos hlen
  have hsize : ba₃.size = (body.payload frame.header).length + 9 := by
    rw [← length_contents hwf₃, hcontents₃, length_append, FrameHeader.length_encode, Nat.add_comm]
  obtain ⟨s', ba₄, hsend, hout⟩ := sendAll_ok hwf₃ hs (by omega) (by omega)
  refine ⟨s', withLocal_eq_ok_iff.mpr ⟨ba₄, ?_⟩, by rw [hout, hcontents₃]⟩
  rw [bind_ok (discard_ok (onSnd_ok s hrun₁)), hdata]
  dsimp only
  rw [bind_ok (onSnd_ok s hrun₂)]
  rw [if_pos rfl, bind_ok (onSnd_ok s hrun₃), bind_ok hsend, pure_run, hsize]

end JKYi.Http2
