import JKYi.ByteArray.Twin
import JKYi.Http2.FrameRoundTrip

/-!
# What the bodies read

Behind a payload of fewer than nine bytes the array still holds the rest of the header, with
the stream identifier. Two runs of a reader are compared on arrays that agree on their first
bytes: as long as no more than these are read the results are alike.
-/

namespace JKYi.Http2

open FrameCodec JKYi.ByteArray Run

variable {len : ℤ} {β : Type}

theorem fails_readResized_neg {f : List UInt8 → Run Exn ByteArray β}
    {ba : ByteArray} (hneg : len < 0) (hsmall : -2 ^ 62 ≤ len) :
    Fails (readResized (sizeOfInt len) >>= f) ba := by
  have hbig : stringMaxSize < sizeOfInt len := by
    unfold stringMaxSize sizeOfInt
    omega
  rw [readResized, if_pos hbig]
  exact .bind_left ⟨_, _, rfl⟩

theorem alike_resized {γ : Type} {φ : β → γ} {k : ℕ} {ba ba' : ByteArray}
    {f : List UInt8 → Run Exn ByteArray β} (h : Twin k ba ba') (hsmall : -2 ^ 62 ≤ len)
    (hlarge : len < 2 ^ 62) (hk : len ≤ k ∨ ba.getReadSize < len)
    (hf : ∀ d (m : ℕ), len = m → m ≤ ba.getReadSize → m ≤ k →
      Twin (k - m) (ba.advance m) (ba'.advance m) →
      Alike φ (f d (ba.advance m)) (f d (ba'.advance m))) :
    Alike φ ((readResized (sizeOfInt len) >>= f) ba) ((readResized (sizeOfInt len) >>= f) ba') := by
  rcases lt_or_ge len 0 with hneg | hpos
  · exact alike_of_fails (fails_readResized_neg hneg hsmall) (fails_readResized_neg hneg hsmall)
  · obtain ⟨m, rfl⟩ := Int.eq_ofNat_of_zero_le hpos
    rw [sizeOfInt_natCast (by omega)]
    refine h.bind (takes_readResized (by unfold stringMaxSize; omega)) (by omega) ?_
    intro d hle hmk _ hnext
    exact hf d m rfl hle hmk hnext

theorem alike_padded {pad k : ℕ} {ba ba' : ByteArray}
    {g : List UInt8 → List UInt8 → β} (h : Twin k ba ba') (hsmall : -2 ^ 62 ≤ len)
    (hlarge : len < 2 ^ 62) (hpad : pad < 256) (hk : len + pad ≤ k) : Alike id
      ((readResized (sizeOfInt len) >>= fun d =>
        readResized pad >>= fun padding => pure (g d padding)) ba)
      ((readResized (sizeOfInt len) >>= fun d =>
        readResized pad >>= fun padding => pure (g d padding)) ba') := by
  refine alike_resized h hsmall hlarge (by omega) fun d m hm hle hmk hnext => ?_
  exact hnext.bind (takes_readResized (by unfold stringMaxSize; omega)) (by omega)
    fun padding _ _ _ _ => .ok _ _ rfl

/-! One body. -/

section

variable {F : Type} {header header' : FrameHeader} {ba ba' : ByteArray} {mk : F → IFrame} {f : F}
  {body : Run Exn (F × ByteArray) Unit}

theorem parseAs_attempt (header : FrameHeader) (mk : F → IFrame) (f : F)
    (body : Run Exn (F × ByteArray) Unit) (ba : ByteArray) :
    parseAs header mk f (attempt body) ba =
      match Run.withObject f body ba with
      | .ok r s => .ok (some ⟨header, some (mk r.2)⟩) s
      | .raised _ s => .ok none s
      | .crash => .crash := by
  cases h : body (f, ba) with
  | ok u s =>
    have hrun := withObject_ok (attempt_ok h)
    rw [parseAs, bind_ok hrun, withObject_ok h]
    rfl
  | raised e s =>
    obtain ⟨f', s⟩ := s
    have hcatch : attempt body (f, ba) = .ok false (f', s) :=
      tryCatch_raised (bind_raised h)
    have hobject : Run.withObject f body ba = .raised e s := by simp [Run.withObject, h]
    rw [parseAs, bind_ok (withObject_ok hcatch), hobject]
    rfl
  | crash =>
    have hcatch : attempt body (f, ba) = .crash := by
      rw [attempt, Run.tryCatch, bind_crash h]
    have hcrash : Run.withObject f (attempt body) ba = .crash := by simp [Run.withObject, hcatch]
    have hobject : Run.withObject f body ba = .crash := by simp [Run.withObject, h]
    rw [parseAs, bind_crash hcrash, hobject]

theorem parseAs_of_fails (h : Fails (Run.withObject f body) ba) :
    ∃ s, parseAs header mk f (attempt body) ba = .ok none s := by
  obtain ⟨e, s, h⟩ := h
  refine ⟨s, ?_⟩
  rw [parseAs_attempt, h]

theorem parseAs_of_ok {r : Unit × F} {s : ByteArray} (h : Run.withObject f body ba = .ok r s) :
    parseAs header mk f (attempt body) ba = .ok (some ⟨header, some (mk r.2)⟩) s := by
  rw [parseAs_attempt, h]

theorem parseAs_of_field {α : Type} {x : Run Exn ByteArray α} {g : α → F → F} {a : α}
    {s : ByteArray} (h : x ba = .ok a s) : ∃ frame s, parseAs header mk f
      (attempt (Run.onSnd x >>= fun a => Run.assign (g a))) ba = .ok (some frame) s := by
  have hbody : Run.withObject f (Run.onSnd x >>= fun a => Run.assign (g a)) ba =
      .ok ((), g a f) s := by
    rw [withObject_field_last]
    exact bind_ok h
  exact ⟨_, _, parseAs_of_ok hbody⟩

theorem alike_parseAs (h : Alike id (Run.withObject f body ba) (Run.withObject f body ba')) :
    Alike (Option.map Frame.data) (parseAs header mk f (attempt body) ba)
      (parseAs header' mk f (attempt body) ba') := by
  rw [parseAs_attempt, parseAs_attempt]
  generalize Run.withObject f body ba = x, Run.withObject f body ba' = x' at h ⊢
  cases h with
  | ok s s' h =>
    obtain rfl := h
    exact .ok _ _ rfl
  | raised => exact .ok _ _ rfl
  | crash => exact .crash

theorem alike_of_field {α : Type} {x : Run Exn ByteArray α} {g : α → F → F} {m k : ℕ}
    (hx : Takes m x) (h : Twin k ba ba') (hm : m ≤ k ∨ ba.getReadSize < m) :
    Alike (Option.map Frame.data)
      (parseAs header mk f (attempt (Run.onSnd x >>= fun a => Run.assign (g a))) ba)
      (parseAs header' mk f (attempt (Run.onSnd x >>= fun a => Run.assign (g a))) ba') := by
  apply alike_parseAs
  rw [withObject_field_last]
  exact h.bind hx hm fun a _ _ _ _ => .ok _ _ rfl

end

def seen (n : ℕ) : ℕ := if 0 < n ∧ n < 9 then 9 else n

def settled (n : ℕ) : ℕ := if 0 < n ∧ n < 9 then max n 5 else n

theorem settled_cases (n : ℕ) : ((n = 0 ∨ 9 ≤ n) ∧ settled n = n ∧ seen n = n) ∨
    (0 < n ∧ n < 9 ∧ settled n = max n 5 ∧ seen n = 9) := by
  unfold settled seen
  split_ifs <;> omega

theorem SettingsFrame.alike_readItems {γ : Type} {φ : β → γ}
    {f : List SettingsItem → Run Exn ByteArray β} : ∀ (size k : ℕ) (ba ba' : ByteArray),
    Twin k ba ba' → 6 * size ≤ k →
    (∀ items s s' k', Twin k' s s' → Alike φ (f items s) (f items s')) →
    Alike φ ((readItems size >>= f) ba) ((readItems size >>= f) ba') := by
  intro size
  induction size generalizing f with
  | zero =>
    intro k ba ba' h _ hf
    exact hf [] ba ba' k h
  | succ size ih =>
    intro k ba ba' h hk hf
    rw [readItems, bind_assoc, SettingsItem.readFrom, withObject_field, bind_assoc]
    refine h.bind takes_readFuint16 (by omega) fun identifiber hle hk₁ _ h₁ => ?_
    rw [withObject_field, bind_assoc]
    refine h₁.bind takes_readFuint32 (by omega) fun value hle₁ hk₂ _ h₂ => ?_
    let item : SettingsItem := { identifiber := identifiber, value := value }
    change Alike φ (((readItems size >>= fun items => pure (item :: items)) >>= f) _)
      (((readItems size >>= fun items => pure (item :: items)) >>= f) _)
    rw [bind_assoc]
    exact ih _ _ _ h₂ (by omega) fun items s s' k' h' => hf (item :: items) s s' k' h'

variable {header header' : FrameHeader} {n : ℕ} {ba ba' : ByteArray}

section

variable (h : Twin (settled n) ba ba')

include h

theorem SettingsFrame.alike (hlen : header.length.toNat = n) : Alike (Option.map Frame.data)
      (parseAs header .settings {} (readFrom header) ba)
      (parseAs header' .settings {} (readFrom header) ba') := by
  apply alike_parseAs
  have hcases := settled_cases n
  rw [withObject_field_last]
  refine alike_readItems _ _ _ _ h ?_ fun items s s' k' _ => .ok _ _ rfl
  rw [SettingsItem.size]
  omega

variable (hleft : ba.getReadSize = seen n)

include hleft

theorem DataFrame.alike (hlen : header.length.toNat = n) : Alike (Option.map Frame.data)
      (parseAs header .data {} (readFrom header) ba)
      (parseAs header' .data {} (readFrom header) ba') := by
  apply alike_parseAs
  have hcases := settled_cases n
  by_cases hpad : header.has FrameFlagData.padded = true
  · simp only [hpad, if_true]
    rw [withObject_field]
    refine h.bind takes_readFuint8 (by omega) fun pad hle hk hread h₁ => ?_
    have hpadlt := pad.toNat_lt
    simp only [withObject_field, withObject_field_last]
    exact alike_padded h₁ (by omega) (by omega) (by omega) (by omega)
  · simp only [hpad, if_false, Bool.false_eq_true]
    rw [withObject_field_last]
    exact h.bind (takes_readResized (by unfold stringMaxSize; omega)) (by omega)
      fun data _ _ _ _ => .ok _ _ rfl

theorem PriorityFrame.alike (hn : n = 0 ∨ 8 ≤ n) : Alike (Option.map Frame.data)
      (parseAs header .priority {} readFrom ba)
      (parseAs header' .priority {} readFrom ba') := by
  apply alike_parseAs
  have hcases := settled_cases n
  rw [withObject_field]
  refine h.bind takes_readFuint32 (by omega) fun dep hle hk _ h₁ => ?_
  rw [withObject_field_last]
  exact h₁.bind takes_readFuint32 (by omega) fun weight _ _ _ _ => .ok _ _ rfl

theorem GoAwayFrame.alike (hlen : header.length.toNat = n) (hn : n = 0 ∨ 8 ≤ n) :
    Alike (Option.map Frame.data)
      (parseAs header .goAway {} (readFrom header) ba)
      (parseAs header' .goAway {} (readFrom header) ba') := by
  apply alike_parseAs
  have hcases := settled_cases n
  rw [withObject_field]
  refine h.bind takes_readFuint32 (by omega) fun word hle hk _ h₁ => ?_
  rw [withObject_field]
  refine h₁.bind takes_readFuint32 (by omega) fun code hle₁ hk₁ _ h₂ => ?_
  rw [readData, if_pos (by omega), withObject_field_last]
  exact alike_resized h₂ (by omega) (by omega) (by omega) fun data _ _ _ _ _ => .ok _ _ rfl

/-- Without the padding flag a promise may take one byte more than there are when its first
four bytes all continue. -/
theorem PushPromisedFrame.alike (hlen : header.length.toNat = n)
    (hvarint : header.has FrameFlagPromise.padded = false → 5 ≤ n → n ≤ 8 →
      ∃ b ∈ ba.unread.take 4, b < 0x80) : Alike (Option.map Frame.data)
      (parseAs header .pushPromise {} (readFrom header) ba)
      (parseAs header' .pushPromise {} (readFrom header) ba') := by
  apply alike_parseAs
  have hcases := settled_cases n
  by_cases hpad : header.has FrameFlagPromise.padded = true
  · simp only [hpad, if_true]
    rw [withObject_field]
    refine h.bind takes_readFuint8 (by omega) fun pad hle hk hread h₁ => ?_
    have hpadlt := pad.toNat_lt
    rw [withObject_field]
    refine h₁.bind takes_readFuint32 (by omega) fun word hle₁ hk₁ _ h₂ => ?_
    simp only [withObject_field, withObject_field_last]
    exact alike_padded h₂ (by omega) (by omega) (by omega) (by omega)
  · simp only [hpad, if_false, Bool.false_eq_true]
    rw [withObject_field, readUint32, bind_assoc]
    refine Twin.bind_varint 32 5 0 0 _ _ _ h (by omega) fun a v hv hle hall h₁ => ?_
    have hleft₁ := getReadSize_advance ba v
    rw [pure_bind_run, pure_bind_run, withObject_field_last]
    refine alike_resized h₁ (by omega) (by omega) ?_ fun data _ _ _ _ _ => .ok _ _ rfl
    -- only a fifth byte of the integer lets the string end behind the payload
    by_cases hfive : v = 5 ∧ 5 ≤ n ∧ n ≤ 8
    · obtain ⟨b, hb, hlt⟩ := hvarint (Bool.eq_false_iff.mpr hpad) hfive.2.1 hfive.2.2
      exact absurd (hall hfive.1 b hb) (UInt8.not_le.mpr hlt)
    · omega

omit h hleft in
theorem HeadersFrame.withObject_body (f : HeadersFrame) : Run.withObject f (do
      let len ← readPad header
      let len ← readPriority header len
      let data ← Run.onSnd (readResized (sizeOfInt len))
      Run.assign fun f => { f with data := data }
      readPadding header) = readParts header f := by
  rw [withObject_bind]
  simp only [withObject_bind _ (readPriority header _), withObject_field]
  rfl

theorem HeadersFrame.alike (hlen : header.length.toNat = n)
    (hpriority : header.has FrameFlagHeaders.priority = false) : Alike (Option.map Frame.data)
      (parseAs header .headers {} (readFrom header) ba)
      (parseAs header' .headers {} (readFrom header) ba') := by
  apply alike_parseAs
  rw [withObject_body, readParts]
  have hcases := settled_cases n
  simp only [withObject_readPad, withObject_readPriority, withObject_readPadding, hpriority,
    Bool.false_eq_true, if_false]
  by_cases hpad : header.has FrameFlagHeaders.padded = true
  · simp only [hpad, if_true]
    rw [bind_assoc]
    refine h.bind takes_readFuint8 (by omega) fun pad hle hk hread h₁ => ?_
    have hpadlt := pad.toNat_lt
    have hblock :
        (header.length.toNat : ℤ) - (pad.toNat + 1) + pad.toNat ≤ (settled n - 1 : ℕ) := by
      omega
    exact alike_padded h₁ (by omega) (by omega) hpadlt hblock
  · simp only [hpad, if_false, Bool.false_eq_true]
    exact alike_resized h (by omega) (by omega) (by omega) fun data _ _ _ _ _ => .ok _ _ rfl

end

/-! Bodies that are rejected. -/

theorem attempt_returns {F : Type} {f : F} {body : Run Exn (F × ByteArray) Unit}
    (h : Run.withObject f body ba ≠ .crash) :
    ∃ r s, Run.withObject f (attempt body) ba = .ok r s := by
  cases hbody : body (f, ba) with
  | ok u s => exact ⟨_, _, withObject_ok (attempt_ok hbody)⟩
  | raised e s =>
    have hcatch : attempt body (f, ba) = .ok false s := tryCatch_raised (bind_raised hbody)
    exact ⟨_, _, withObject_ok hcatch⟩
  | crash => exact absurd (by simp [Run.withObject, hbody]) h

theorem PriorityFrame.readFrom_returns (f : PriorityFrame) (hwf : ba.Wf) (he : ba.endian = .big) :
    ∃ r s, Run.withObject f readFrom ba = .ok r s := by
  apply attempt_returns
  rw [withObject_field]
  rcases takes_readFuint32.cases hwf he with ⟨dep, hle, hok⟩ | ⟨-, e, s, hraised⟩ | ⟨h0, -⟩
  · rw [bind_ok hok, withObject_field_last]
    rcases takes_readFuint32.cases (advance_wf hwf hle) he with
      ⟨weight, -, hok'⟩ | ⟨-, e, s, hraised⟩ | ⟨h0, -⟩
    · rw [bind_ok hok']
      exact nofun
    · rw [bind_raised hraised]
      exact nofun
    · omega
  · rw [bind_raised hraised]
    exact nofun
  · omega

theorem HeadersFrame.fails_priority_short (hlen : header.length.toNat = n)
    (hpriority : header.has FrameFlagHeaders.priority = true) (hwf : ba.Wf)
    (he : ba.endian = .big) (hn : n < 5) : Fails (readParts header {}) ba := by
  -- the length gets negative whatever has been read
  have hrest : ∀ (len : ℤ) (f : HeadersFrame) (s : ByteArray), -2 ^ 31 ≤ len → len < 5 → s.Wf →
      s.endian = .big → Fails (Run.withObject f (readPriority header len) >>= fun r =>
        readResized (sizeOfInt r.1) >>= fun data =>
          Run.withObject { r.2 with data := data } (readPadding header)) s := by
    intro len f s hsmall hneg hwf' he'
    obtain ⟨r, s', hread⟩ := PriorityFrame.readFrom_returns f.priority hwf' he'
    rw [withObject_readPriority, if_pos hpriority]
    exact .bind_right (bind_pure_ok _ hread) (fails_readResized_neg (by omega) (by omega))
  unfold readParts
  rw [withObject_readPad]
  split_ifs
  · rw [bind_assoc]
    refine takes_readFuint8.fails_bind (.inl Nat.one_pos) hwf he fun pad hle _ => ?_
    have hpad := pad.toNat_lt
    exact hrest _ _ _ (by omega) (by omega) (advance_wf hwf hle) he
  · exact hrest _ _ _ (by omega) (by omega) hwf he

/-- With a priority the header block is rejected, unless the rest of the header happens to be
as long as what is missing. -/
theorem HeadersFrame.fails_priority (hlen : header.length.toNat = n)
    (hpriority : header.has FrameFlagHeaders.priority = true)
    (hwf : ba.Wf) (he : ba.endian = .big) (hleft : ba.getReadSize = seen n)
    (hfull : ba.size = ba.capacity → 4096 ∣ n)
    (hlucky : if header.has FrameFlagHeaders.padded then ¬ (n = 6 ∧ ba.unread.head? = some 0)
      else n ≠ 5 ∧ n ≠ 6) : Fails (readParts header {}) ba := by
  have hcases := settled_cases n
  rcases Nat.lt_or_ge n 5 with hsmall | hlarge
  · exact fails_priority_short hlen hpriority hwf he hsmall
  have hnine : 9 ≤ ba.getReadSize := by omega
  have hsize := hwf.size_le
  split_ifs at hlucky with hpad
  · cases hunread : ba.unread with
    | nil =>
      rw [← length_unread hwf, hunread] at hnine
      simp at hnine
    | cons pad rest =>
      have hlength := length_unread hwf
      rw [hunread, List.length_cons] at hlength
      obtain ⟨w, w', tail, hwords⟩ := exists_two_words (l := rest) (by omega)
      have hpadlt := pad.toNat_lt
      have hwf₉ := advance_wf hwf hnine
      have hleft₉ := getReadSize_advance ba 9
      have hread := readParts_priority_padded hpriority hpad hwf he (hwords ▸ hunread)
      rw [Fails, hread]
      rcases lt_or_ge ((header.length.toNat : ℤ) - (pad.toNat + 1) - 5) 0 with hneg | hpos
      · exact fails_readResized_neg hneg (by omega)
      obtain ⟨m, hm⟩ := Int.eq_ofNat_of_zero_le hpos
      rw [hm, sizeOfInt_natCast (by omega)]
      refine (takes_readResized (by unfold stringMaxSize; omega)).fails_bind ?_ hwf₉ he
        fun data hle _ => ?_
      · change 0 < m ∨ ba.size < ba.capacity
        omega
      · have hzero : ¬ (n = 6 ∧ pad.toNat = 0) := by
          rintro ⟨hsix, h0⟩
          have hpad₀ : pad = 0 := UInt8.toNat_inj.mp h0
          exact hlucky ⟨hsix, by rw [hunread, hpad₀, List.head?_cons]⟩
        have hleft' := getReadSize_advance (ba.advance 9) m
        rcases (takes_readResized (n := pad.toNat) (by unfold stringMaxSize; omega)).cases
          (advance_wf hwf₉ hle) he with ⟨_, hle', _⟩ | ⟨-, hfail⟩ | ⟨h0, hend, hfull', -⟩
        · omega
        · exact hfail.bind_left
        · omega
  · obtain ⟨w, w', tail, hwords⟩ := exists_two_words (l := ba.unread)
      (by rw [length_unread hwf]; omega)
    have hread := readParts_priority hpriority (Bool.eq_false_iff.mpr hpad) hwf he hwords
    have hleft₈ := getReadSize_advance ba 8
    have hwf₈ : (ba.advance 8).Wf := advance_wf hwf (by omega)
    have hm : (header.length.toNat : ℤ) - 5 = (n - 5 : ℕ) := by omega
    rw [Fails, hread, hm, sizeOfInt_natCast (by omega)]
    have htakes := takes_readResized (n := n - 5) (by unfold stringMaxSize; omega)
    rcases htakes.cases hwf₈ he with ⟨_, hle, _⟩ | ⟨-, hfail⟩ | ⟨h0, -⟩
    · omega
    · exact hfail.bind_left
    · omega

theorem fails_empty {α : Type} {x : Run Exn ByteArray α} {f : α → Run Exn ByteArray β}
    {m : ℕ} (hx : Takes m x) (hm : 0 < m) (hwf : ba.Wf) (he : ba.endian = .big)
    (hleft : ba.getReadSize = seen 0) : Fails (x >>= f) ba := by
  refine hx.fails_bind (.inl hm) hwf he fun a hle _ => ?_
  have : seen 0 = 0 := rfl
  omega

theorem fails_pad {g : UInt8 → Run Exn ByteArray β} {m : ℕ} (hwf : ba.Wf) (he : ba.endian = .big)
    (hshort : ∀ pad rest, ba.unread = pad :: rest → n < pad.toNat + m)
    (hg : ∀ pad : UInt8, pad.toNat < 256 → n < pad.toNat + m → (ba.advance 1).Wf →
      Fails (g pad) (ba.advance 1)) : Fails (readFuint8 >>= g) ba := by
  refine takes_readFuint8.fails_bind (.inl Nat.one_pos) hwf he fun pad hle hread => ?_
  obtain ⟨rest, hrest⟩ := readFuint8_inv hwf hread
  exact hg pad pad.toNat_lt (hshort pad rest hrest) (advance_wf hwf hle)

section

variable (hlen : header.length.toNat = n) (hwf : ba.Wf) (he : ba.endian = .big)
include hlen hwf he

theorem DataFrame.fails (hpadded : header.has FrameFlagData.padded = true)
    (hshort : ∀ pad rest, ba.unread = pad :: rest → n < pad.toNat + 1) :
    ∃ s, parseAs header .data {} (readFrom header) ba = .ok none s := by
  apply parseAs_of_fails
  simp only [hpadded, if_true]
  rw [withObject_field]
  refine fails_pad hwf he hshort fun pad hpad hn _ => ?_
  rw [withObject_field]
  exact fails_readResized_neg (by omega) (by omega)

theorem HeadersFrame.fails (hpriority : header.has FrameFlagHeaders.priority = false)
    (hpadded : header.has FrameFlagHeaders.padded = true)
    (hshort : ∀ pad rest, ba.unread = pad :: rest → n < pad.toNat + 1) :
    Fails (readParts header {}) ba := by
  unfold readParts
  simp only [withObject_readPad, withObject_readPriority, hpriority, hpadded, Bool.false_eq_true,
    if_false, if_true]
  rw [bind_assoc]
  refine fails_pad hwf he hshort fun pad hpad hn _ => ?_
  have hneg : (header.length.toNat : ℤ) - (pad.toNat + 1) < 0 := by omega
  exact fails_readResized_neg hneg (by omega)

theorem PushPromisedFrame.fails (hpadded : header.has FrameFlagPromise.padded = true)
    (hshort : ∀ pad rest, ba.unread = pad :: rest → n < pad.toNat + 5) :
    ∃ s, parseAs header .pushPromise {} (readFrom header) ba = .ok none s := by
  apply parseAs_of_fails
  simp only [hpadded, if_true]
  rw [withObject_field]
  refine fails_pad hwf he hshort fun pad hpad hn hwf₁ => ?_
  rw [withObject_field]
  refine takes_readFuint32.fails_bind (.inl (by simp)) hwf₁ he fun word _ _ => ?_
  rw [withObject_field]
  exact fails_readResized_neg (by omega) (by omega)

theorem PushPromisedFrame.fails_short (hpadded : header.has FrameFlagPromise.padded = false)
    (hn : n < 4) :
    ∃ s, parseAs header .pushPromise {} (readFrom header) ba = .ok none s := by
  apply parseAs_of_fails
  simp only [hpadded, Bool.false_eq_true, if_false]
  rw [withObject_field, readUint32, bind_assoc]
  cases hrun : readVarint 32 5 0 0 ba with
  | ok a s =>
    refine .bind_right hrun ?_
    rw [Fails, pure_bind_run, withObject_field_last]
    exact fails_readResized_neg (by omega) (by omega)
  | raised e s => exact .bind_left ⟨e, s, hrun⟩
  | crash => exact absurd hrun (readVarint_ne_crash 32 5 0 0 ba hwf he)

theorem GoAwayFrame.fails (hn : 0 < n) (hn8 : n < 8) :
    ∃ s, parseAs header .goAway {} (readFrom header) ba = .ok none s := by
  apply parseAs_of_fails
  rw [withObject_field]
  refine takes_readFuint32.fails_bind (.inl (by simp)) hwf he fun word hle _ => ?_
  rw [withObject_field]
  have hwf₄ := advance_wf hwf hle
  refine takes_readFuint32.fails_bind (.inl (by simp)) hwf₄ he fun code _ _ => ?_
  rw [readData, if_pos (by omega), withObject_field_last]
  exact fails_readResized_neg (by omega) (by omega)

end

theorem PingFrame.returns_none (hwf : ba.Wf) (he : ba.endian = .big) :
    ∃ s, parseAs header .ping {} readFrom ba = .ok none s := by
  suffices h : ∃ f s, readFrom (({} : PingFrame), ba) = .ok false (f, s) by
    obtain ⟨f, s, h⟩ := h
    refine ⟨s, ?_⟩
    rw [parseAs, bind_ok (withObject_ok h)]
    rfl
  rcases (takes_read 8).cases hwf he with ⟨data, -, hok⟩ | ⟨-, e, s, hraised⟩ | ⟨h0, -⟩
  · exact ⟨_, _, tryCatch_ok (bind_ok (onSnd_ok _ hok))⟩
  · exact ⟨_, _, tryCatch_raised (bind_raised (onSnd_raised _ hraised))⟩
  · omega

end JKYi.Http2
