import JKYi.Http2.FrameIsolation

/-!
# What a parsed payload depends on

`parseFrom` on two streams that differ in their identifier. The payloads for which a reader
goes on into the rest of the header, and those that are too short and not rejected, are listed
in `Overruns`.
-/

namespace JKYi.Http2

open HeadersFrame JKYi.ByteArray List Run

def padBytes (padded : Bool) (p : List UInt8) : ℕ := if padded then 1 + (p.headD 0).toNat else 0

def fixedLength (type flags : UInt8) (p : List UInt8) : ℕ :=
  match FrameType.ofCode type with
  | some .data => padBytes (flags &&& FrameFlagData.padded != 0) p
  | some .headers => padBytes (flags &&& FrameFlagHeaders.padded != 0) p +
      if flags &&& FrameFlagHeaders.priority != 0 then 5 else 0
  | some .priority => 5
  | some .rstStream => 4
  | some .settings => 0
  | some .pushPromise => padBytes (flags &&& FrameFlagPromise.padded != 0) p + 4
  | some .ping => 8
  | some .goAway => 8
  | some .windowUpdate => 4
  | some .continuation => 0
  | none => 0

/-- The payloads that make a reader take the rest of the header for a part of them: fixed
fields are completed by it, a priority is read as eight bytes, and an unpadded promise whose
first four bytes continue a variable length integer is shifted by one byte. -/
def Overruns (type flags : UInt8) (p : List UInt8) : Prop :=
  match FrameType.ofCode type with
  | some .rstStream => 1 ≤ p.length ∧ p.length ≤ 3
  | some .windowUpdate => 1 ≤ p.length ∧ p.length ≤ 3
  | some .priority => 1 ≤ p.length ∧ p.length ≤ 7
  | some .headers => (flags &&& FrameFlagHeaders.priority != 0) = true ∧
      if flags &&& FrameFlagHeaders.padded != 0 then p.length = 6 ∧ p.head? = some 0
      else p.length = 5 ∨ p.length = 6
  | some .pushPromise => (flags &&& FrameFlagPromise.padded != 0) = false ∧
      5 ≤ p.length ∧ p.length ≤ 8 ∧ ∀ b ∈ p.take 4, 0x80 ≤ b
  | _ => False

section

open FrameCodec

variable {header : FrameHeader} {p : List UInt8} {ba ba' : ByteArray}

theorem FrameCodec.Received.left_eq (h : Received ba header p) :
    ba.getReadSize = seen p.length := by
  rw [← length_unread h.wf, h.unread_eq]
  cases p with
  | nil => rfl
  | cons b p =>
    simp only [cons_ne_nil, if_false, length_append, length_drop,
      FrameHeader.length_encode, length_cons, seen]
    split_ifs <;> omega

theorem FrameCodec.Received.head_eq (h : Received ba header p) : ba.unread.head? = p.head? := by
  rw [h.unread_eq]
  cases p <;> rfl

theorem FrameHeader.encode_eq (header : FrameHeader) :
    header.encode = (wordBytes header.lenType ++ [header.flags]) ++ wordBytes header.rId := by
  rw [FrameHeader.encode, append_assoc]

theorem FrameCodec.Received.twin {i : BitVec 31} {r : BitVec 1} (h : Received ba header p)
    (h' : Received ba' { header with identifier := i, r := r } p) :
    Twin (settled p.length) ba ba' := by
  refine ⟨h.wf, h'.wf, h.endian_eq, h'.endian_eq, h'.left_eq.trans h.left_eq.symm,
    h'.full_iff.trans h.full_iff.symm, ?_⟩
  rw [h.unread_eq, h'.unread_eq]
  rcases eq_or_ne p [] with hp | hp
  · rw [if_pos hp, if_pos hp]
  rw [if_neg hp, if_neg hp]
  have hshape (q : List UInt8) (hq : q.length = 4) :
      (p ++ ((wordBytes header.lenType ++ [header.flags]) ++ q).drop p.length).take
        (settled p.length) =
      p ++ (wordBytes header.lenType ++ [header.flags]).drop p.length := by
    have hpos := length_pos_of_ne_nil hp
    have hfive : (wordBytes header.lenType ++ [header.flags]).length = 5 := by simp
    generalize wordBytes header.lenType ++ [header.flags] = w at hfive ⊢
    rw [take_append, take_of_length_le (by have := settled_cases p.length; omega)]
    congr 1
    rw [drop_append]
    apply take_left'
    rw [length_drop, hfive]
    have := settled_cases p.length
    omega
  rw [FrameHeader.encode_eq, FrameHeader.encode_eq]
  exact (hshape _ (length_wordBytes _)).trans (hshape _ (length_wordBytes _)).symm

theorem alike_of_none {x y : Run Exn ByteArray (Option Frame)}
    (h : ∃ s, x ba = .ok none s) (h' : ∃ s, y ba' = .ok none s) :
    Alike (Option.map Frame.data) (x ba) (y ba') := by
  obtain ⟨s, h⟩ := h
  obtain ⟨s', h'⟩ := h'
  rw [h, h']
  exact .ok _ _ rfl

theorem HeadersFrame.rejects_priority (hba : Received ba header p)
    (hlen : header.length.toNat = p.length) (htype : FrameType.ofCode header.type = some .headers)
    (hpriority : header.has FrameFlagHeaders.priority = true)
    (hover : ¬ Overruns header.type header.flags p) :
    ∃ s, parseAs header .headers {} (readFrom header) ba = .ok none s := by
  apply parseAs_of_fails
  rw [withObject_body]
  refine fails_priority hlen hpriority hba.wf hba.endian_eq hba.left_eq
    (fun h => (hba.full_iff.mp h).2) ?_
  have hflag : (header.flags &&& FrameFlagHeaders.priority != 0) = true := hpriority
  simp only [Overruns, htype, hflag, true_and] at hover
  rw [hba.head_eq]
  by_cases hpadded : header.has FrameFlagHeaders.padded = true
  · have hflag : (header.flags &&& FrameFlagHeaders.padded != 0) = true := hpadded
    rw [if_pos hflag] at hover
    rw [if_pos hpadded]
    exact hover
  · have hflag : ¬ (header.flags &&& FrameFlagHeaders.padded != 0) = true := hpadded
    rw [if_neg hflag] at hover
    rw [if_neg hpadded]
    exact not_or.mp hover

theorem FrameCodec.Received.pad_lt (hba : Received ba header p) {m : ℕ}
    (hshort : p.length < padBytes true p + m) (pad : UInt8) (rest : List UInt8)
    (hrest : ba.unread = pad :: rest) : p.length < pad.toNat + (m + 1) := by
  have hhead : p.head? = some pad := by rw [← hba.head_eq, hrest, head?_cons]
  rw [padBytes, if_pos rfl, headD_eq_head?_getD, hhead, Option.getD_some] at hshort
  omega

theorem parseBody_rejects (hba : Received ba header p)
    (hlen : header.length.toNat = p.length) (hover : ¬ Overruns header.type header.flags p)
    (hshort : p.length < fixedLength header.type header.flags p) :
    ∃ s, parseBody header ba = .ok none s := by
  have hwf := hba.wf
  have he := hba.endian_eq
  have hempty (hzero : p.length = 0) {β : Type} (f : UInt32 → Run Exn ByteArray β) :
      Fails (readFuint32 >>= f) ba :=
    fails_empty takes_readFuint32 (by simp) hwf he (hzero ▸ hba.left_eq)
  rw [parseBody]
  cases htype : FrameType.ofCode header.type with
  | none => simp only [fixedLength, htype, Nat.not_lt_zero] at hshort
  | some type =>
    cases type with
    | data =>
      simp only [fixedLength, htype] at hshort
      cases hpadded : header.flags &&& FrameFlagData.padded != 0 with
      | false => simp [padBytes, hpadded] at hshort
      | true =>
        rw [hpadded] at hshort
        exact DataFrame.fails hlen hwf he hpadded (hba.pad_lt hshort)
    | headers =>
      simp only [fixedLength, htype] at hshort
      cases hpriority : header.flags &&& FrameFlagHeaders.priority != 0 with
      | true => exact rejects_priority hba hlen htype hpriority hover
      | false =>
        simp only [hpriority, Bool.false_eq_true, if_false] at hshort
        cases hpadded : header.flags &&& FrameFlagHeaders.padded != 0 with
        | false => simp [padBytes, hpadded] at hshort
        | true =>
          rw [hpadded] at hshort
          apply parseAs_of_fails
          rw [withObject_body]
          exact HeadersFrame.fails hlen hwf he hpriority hpadded (hba.pad_lt hshort)
    | priority =>
      simp only [fixedLength, Overruns, htype] at hshort hover
      apply parseAs_of_fails
      rw [withObject_field]
      exact hempty (by omega) _
    | rstStream | windowUpdate =>
      simp only [fixedLength, Overruns, htype] at hshort hover
      apply parseAs_of_fails
      rw [withObject_field_last]
      exact hempty (by omega) _
    | settings | continuation => simp only [fixedLength, htype, Nat.not_lt_zero] at hshort
    | pushPromise =>
      simp only [fixedLength, htype] at hshort
      cases hpadded : header.flags &&& FrameFlagPromise.padded != 0 with
      | true =>
        rw [hpadded] at hshort
        exact PushPromisedFrame.fails hlen hwf he hpadded (hba.pad_lt hshort)
      | false =>
        simp only [padBytes, hpadded, Bool.false_eq_true, if_false] at hshort
        exact PushPromisedFrame.fails_short hlen hwf he hpadded (by omega)
    | ping => exact PingFrame.returns_none hwf he
    | goAway =>
      simp only [fixedLength, htype] at hshort
      rcases Nat.eq_zero_or_pos p.length with hzero | hpos
      · apply parseAs_of_fails
        rw [withObject_field]
        exact hempty hzero _
      · exact GoAwayFrame.fails hlen hwf he hpos hshort

theorem parseBody_alike {i : BitVec 31} {r : BitVec 1} (hba : Received ba header p)
    (hba' : Received ba' { header with identifier := i, r := r } p)
    (hlen : header.length.toNat = p.length) (hover : ¬ Overruns header.type header.flags p) :
    Alike (Option.map Frame.data) (parseBody header ba)
      (parseBody { header with identifier := i, r := r } ba') := by
  have htwin := hba.twin hba'
  have hleft := hba.left_eq
  unfold parseBody
  cases htype : FrameType.ofCode header.type with
  | none => exact .ok _ _ rfl
  | some type =>
    cases type with
    | data => exact DataFrame.alike htwin hleft hlen
    | headers =>
      cases hpriority : header.flags &&& FrameFlagHeaders.priority != 0 with
      | true =>
        exact alike_of_none (rejects_priority hba hlen htype hpriority hover)
          (rejects_priority hba' hlen htype hpriority hover)
      | false => exact HeadersFrame.alike htwin hleft hlen hpriority
    | priority =>
      simp only [Overruns, htype] at hover
      exact PriorityFrame.alike htwin hleft (by omega)
    | rstStream | windowUpdate =>
      have hcases := settled_cases p.length
      exact alike_of_field takes_readFuint32 htwin (by omega)
    | settings => exact SettingsFrame.alike htwin hlen
    | pushPromise =>
      simp only [Overruns, htype] at hover
      refine PushPromisedFrame.alike htwin hleft hlen fun hpadded hge hle => ?_
      have hflag : (header.flags &&& FrameFlagPromise.padded != 0) = false := hpadded
      simp only [hflag, hge, hle, true_and, not_forall] at hover
      obtain ⟨b, hb, hlt⟩ := hover
      refine ⟨b, ?_, UInt8.not_le.mp hlt⟩
      rw [hba.unread_eq, take_append_of_le_length (by omega)]
      exact hb
    | ping =>
      exact alike_of_none (PingFrame.returns_none hba.wf hba.endian_eq)
        (PingFrame.returns_none hba'.wf hba'.endian_eq)
    | goAway =>
      by_cases hn : p.length = 0 ∨ 8 ≤ p.length
      · exact GoAwayFrame.alike htwin hleft hlen hn
      · exact alike_of_none (GoAwayFrame.fails hlen hba.wf hba.endian_eq (by omega) (by omega))
          (GoAwayFrame.fails hlen hba'.wf hba'.endian_eq (by omega) (by omega))
    | continuation => exact .ok _ _ rfl

/-! Payloads that overrun. -/

theorem FrameCodec.Received.getElem?_eq (hba : Received ba header p) (hp : p ≠ []) {k : ℕ}
    (hk : p.length ≤ k) : ba.unread[k]? = header.encode[k]? := by
  rw [hba.unread_eq, if_neg hp, getElem?_append_right hk, getElem?_drop]
  congr 1
  omega

theorem exists_words_seventh {l : List UInt8} (hlen : 8 ≤ l.length) :
    ∃ w w' tail, l = (wordBytes w ++ wordBytes w') ++ tail ∧ l[7]? = some w'.toUInt8 := by
  obtain ⟨w, w', tail, rfl⟩ := exists_two_words hlen
  refine ⟨w, w', tail, rfl, ?_⟩
  rw [wordBytes_eq, wordBytes_eq]
  refine congrArg some (UInt8.toNat_inj.mp ?_)
  rw [UInt8.toNat_ofNat', UInt32.toNat_toUInt8]

def IFrame.strayByte : IFrame → Option UInt8
  | .priority f => some f.weight
  | .headers f => some f.priority.weight
  | .pushPromise f => f.data.getLast?
  | _ => none

theorem PriorityFrame.strays (hba : Received ba header p) (hpos : 1 ≤ p.length)
    (hle : p.length ≤ 7) : ∃ body s,
      parseAs header .priority {} PriorityFrame.readFrom ba = .ok (some ⟨header, some body⟩) s ∧
      body.strayByte = header.encode[7]? := by
  have hp := length_pos_iff.mp hpos
  have hleft := hba.left_eq
  have hcases := settled_cases p.length
  rw [← length_unread hba.wf] at hleft
  obtain ⟨w, w', tail, hunread, hseven⟩ := exists_words_seventh (l := ba.unread) (by omega)
  have hread := PriorityFrame.receives_readFrom {} w w' ba tail hba.wf hba.endian_eq
    (fun h => by simp at h) hunread
  refine ⟨_, _, bind_ok hread, ?_⟩
  rw [← hba.getElem?_eq hp hle, hseven]
  rfl

theorem HeadersFrame.strays (hba : Received ba header p) (hlen : header.length.toNat = p.length)
    (hpriority : header.has FrameFlagHeaders.priority = true)
    (hpadded : header.has FrameFlagHeaders.padded = false) (hn : p.length = 5 ∨ p.length = 6) :
    ∃ body s,
      parseAs header .headers {} (readFrom header) ba =
        .ok (some ⟨header, some body⟩) s ∧ body.strayByte = header.encode[7]? := by
  have hp : p ≠ [] := length_pos_iff.mp (by omega)
  have hleft := hba.left_eq
  have hcases := settled_cases p.length
  rw [← length_unread hba.wf] at hleft
  obtain ⟨w, w', tail, hunread, hseven⟩ := exists_words_seventh (l := ba.unread) (by omega)
  have hparts := readParts_priority hpriority hpadded hba.wf hba.endian_eq hunread
  have hwf₈ : (ba.advance 8).Wf := advance_wf hba.wf (by rw [← length_unread hba.wf]; omega)
  have hsize := getReadSize_advance ba 8
  rw [← length_unread hba.wf] at hsize
  have hfive : (header.length.toNat : ℤ) - 5 = (p.length - 5 : ℕ) := by omega
  rw [hfive, sizeOfInt_natCast (by omega)] at hparts
  rcases (takes_readResized (n := p.length - 5) (by unfold stringMaxSize; omega)).cases hwf₈
    hba.endian_eq with ⟨data, -, hok⟩ | ⟨hlt, -⟩ | ⟨-, hzero, -⟩
  · rw [bind_ok hok] at hparts
    rw [← withObject_body] at hparts
    refine ⟨_, _, parseAs_of_ok hparts, ?_⟩
    rw [← hba.getElem?_eq hp (by omega), hseven]
    rfl
  · omega
  · omega

theorem HeadersFrame.strays_padded (hba : Received ba header p)
    (hlen : header.length.toNat = p.length)
    (hpriority : header.has FrameFlagHeaders.priority = true)
    (hpadded : header.has FrameFlagHeaders.padded = true) (hn : p.length = 6)
    (hhead : p.head? = some 0) : ∃ body s,
      parseAs header .headers {} (readFrom header) ba =
        .ok (some ⟨header, some body⟩) s ∧ body.strayByte = header.encode[8]? := by
  have hp : p ≠ [] := length_pos_iff.mp (by omega)
  have hleft := hba.left_eq
  rw [← length_unread hba.wf, hn] at hleft
  obtain ⟨l, hl⟩ : ∃ l, ba.unread = 0 :: l := by
    rw [← hba.head_eq] at hhead
    exact ⟨_, eq_cons_of_mem_head? hhead⟩
  rw [hl, length_cons, seen, if_pos (by omega)] at hleft
  obtain ⟨w, w', tail, hwords, hseven⟩ := exists_words_seventh (l := l) (by omega)
  obtain rfl : tail = [] := by
    have hcount := congrArg length hwords
    simp only [length_append, length_wordBytes] at hcount
    exact length_eq_zero_iff.mp (by omega)
  have hunread : ba.unread = [0] ++ ((wordBytes w ++ wordBytes w') ++ []) := by rw [hl, hwords]; rfl
  have hparts := readParts_priority_padded hpriority hpadded hba.wf hba.endian_eq hunread
  have hzero : sizeOfInt ((6 : ℕ) - ((0 : UInt8).toNat + 1) - 5) = 0 := by decide
  obtain ⟨hread, hread₂⟩ := hba.readResized_nine (by rw [hunread]; simp)
  rw [hlen, hn, hzero, bind_ok hread] at hparts
  have hbody := hparts.trans (bind_ok hread₂)
  rw [← withObject_body] at hbody
  refine ⟨_, _, parseAs_of_ok hbody, ?_⟩
  rw [← hba.getElem?_eq hp (by omega), hl, getElem?_cons_succ, hseven]
  rfl

theorem PushPromisedFrame.strays (hba : Received ba header p)
    (hlen : header.length.toNat = p.length)
    (hpadded : header.has FrameFlagPromise.padded = false) (hge : 5 ≤ p.length)
    (hle : p.length ≤ 8) (hall : ∀ b ∈ p.take 4, 0x80 ≤ b) : ∃ body s,
      parseAs header .pushPromise {} (PushPromisedFrame.readFrom header) ba =
        .ok (some ⟨header, some body⟩) s ∧ body.strayByte = header.encode[p.length]? := by
  have hp : p ≠ [] := length_pos_iff.mp (by omega)
  have hleft := hba.left_eq
  have hcases := settled_cases p.length
  have hfour : ba.unread.take 4 = p.take 4 := by
    rw [hba.unread_eq, take_append_of_le_length (by omega)]
  obtain ⟨v, hv⟩ := readVarint_continued 32 5 0 0 ba hba.wf hba.endian_eq (by omega)
    (by rw [hfour]; exact hall)
  have hwf₅ : (ba.advance 5).Wf := advance_wf hba.wf (by omega)
  have hsize := getReadSize_advance ba 5
  have hmax : ¬ stringMaxSize < p.length - 4 := by unfold stringMaxSize; omega
  have hcur : (ba.advance 5).position < (ba.advance 5).capacity := by
    have := hba.position_le
    have := hba.capacity_ge
    change ba.position + 5 < ba.capacity
    omega
  have hread : readResized (p.length - 4) (ba.advance 5) = .ok
      ((ba.advance 5).unread.take (p.length - 4)) ((ba.advance 5).advance (p.length - 4)) := by
    rw [readResized, if_neg hmax, read_ok hwf₅ (by omega) hcur]
  have hfour' : (header.length.toNat : ℤ) - 4 = (p.length - 4 : ℕ) := by omega
  have hbody : Run.withObject {} (do
        let rStreamId ← Run.onSnd readUint32
        Run.assign (setRStreamId rStreamId)
        let data ← Run.onSnd (readResized (sizeOfInt ((header.length.toNat : ℤ) - 4)))
        Run.assign fun f => { f with data := data }) ba =
      .ok ((), { setRStreamId (.ofNat v) {} with
        data := (ba.advance 5).unread.take (p.length - 4) })
        ((ba.advance 5).advance (p.length - 4)) := by
    rw [withObject_field, readUint32, bind_assoc, bind_ok hv, pure_bind_run,
      withObject_field_last, hfour', sizeOfInt_natCast (by omega), bind_ok hread]
    rfl
  refine ⟨_, _, parseAs_of_ok (by rw [if_neg (by simp [hpadded])]; exact hbody), ?_⟩
  have hcount : ((ba.advance 5).unread.take (p.length - 4)).length = p.length - 4 := by
    rw [length_take, length_unread hwf₅]
    omega
  rw [← hba.getElem?_eq hp le_rfl, IFrame.strayByte, getLast?_eq_getElem?, hcount,
    getElem?_take_of_lt (by omega), advance_unread, getElem?_drop]
  congr 1
  omega

end

/-! Streams. -/

open FrameCodec

def Arrives (rx : Socket) (header : FrameHeader) (p : List UInt8) : Prop :=
  rx.connected = true ∧ ∃ rest, rx.incoming = header.encode ++ (p ++ rest)

/-- `parseFrom` rejects a payload that is too short, and finds the same payload fields on all
streams. -/
def PayloadIsolated (type flags : UInt8) (p : List UInt8) : Prop :=
  ∀ header : FrameHeader, header.type = type → header.flags = flags →
    header.length.toNat = p.length → ∀ heap rx, Arrives rx header p →
    (p.length < fixedLength type flags p → ∃ rx', parseFrom heap rx = .ok none rx') ∧
    ∀ i r heap' rx', Arrives rx' { header with identifier := i, r := r } p →
      Alike (Option.map Frame.data) (parseFrom heap rx) (parseFrom heap' rx')

variable {header header' : FrameHeader} {p : List UInt8} {ba ba' : ByteArray} {rx rx' : Socket}

theorem withLocal_parseBody (header : FrameHeader) (ba : ByteArray) (rx : Socket) :
    Run.withLocal ba (Run.tryCatch (Run.onSnd (parseBody header)) (pure none)) rx =
      match parseBody header ba with
      | .ok frame _ => .ok frame rx
      | .raised _ _ => .ok none rx
      | .crash => .crash := by
  simp only [Run.withLocal, Run.tryCatch, Run.onSnd]
  cases parseBody header ba <;> rfl

theorem alike_parseFrom
    (h : Alike (Option.map Frame.data) (parseBody header ba) (parseBody header' ba')) :
    Alike (Option.map Frame.data)
      (Run.withLocal ba (Run.tryCatch (Run.onSnd (parseBody header)) (pure none)) rx)
      (Run.withLocal ba' (Run.tryCatch (Run.onSnd (parseBody header')) (pure none)) rx') := by
  rw [withLocal_parseBody, withLocal_parseBody]
  generalize parseBody header ba = x, parseBody header' ba' = x' at h ⊢
  cases h with
  | ok s s' h => exact .ok _ _ h
  | raised => exact .ok _ _ rfl
  | crash => exact .crash

variable {type flags : UInt8}

theorem payloadIsolated_of_not_overruns (hover : ¬ Overruns type flags p) :
    PayloadIsolated type flags p := by
  rintro header rfl rfl hlen heap rx ⟨hs, rest, hin⟩
  obtain ⟨ba, rx₁, hba, -, hrun⟩ := parseFrom_eq heap hs hin hlen
  constructor
  · intro hshort
    obtain ⟨s, hnone⟩ := parseBody_rejects hba hlen hover hshort
    rw [hrun, withLocal_parseBody, hnone]
    exact ⟨_, rfl⟩
  · rintro i r heap' rx' ⟨hs', rest', hin'⟩
    obtain ⟨ba', rx₁', hba', -, hrun'⟩ := parseFrom_eq heap' hs' hin' hlen
    rw [hrun, hrun']
    exact alike_parseFrom (parseBody_alike hba hba' hlen hover)

theorem FrameCodec.Received.readFuint32_ok (hba : Received ba header p) (hpos : 1 ≤ p.length)
    (hle : p.length ≤ 3) : ∃ w, readFuint32 ba = .ok w (ba.advance 4) := by
  have hleft := hba.left_eq
  have hcases := settled_cases p.length
  rcases takes_readFuint32.cases hba.wf hba.endian_eq with ⟨w, -, hok⟩ | ⟨hlt, -⟩ | ⟨h0, -⟩
  · exact ⟨w, hok⟩
  · omega
  · omega

def streamHeader (type flags : UInt8) (n : ℕ) (i : BitVec 31) : FrameHeader :=
  { type := type, flags := flags, length := BitVec.ofNat 24 n, identifier := i }

theorem streamHeader_length (hsmall : p.length < 2 ^ 24) (i : BitVec 31) :
    (streamHeader type flags p.length i).length.toNat = p.length := by
  rw [streamHeader, BitVec.toNat_ofNat]
  omega

theorem parseBody_strays (hover : Overruns type flags p) :
    (p.length < fixedLength type flags p ∧ ∀ i ba,
      Received ba (streamHeader type flags p.length i) p →
      ∃ frame s, parseBody (streamHeader type flags p.length i) ba = .ok (some frame) s) ∨
    ∃ k, 5 ≤ k ∧ k < 9 ∧ ∀ i ba, Received ba (streamHeader type flags p.length i) p →
      ∃ body s, parseBody (streamHeader type flags p.length i) ba =
        .ok (some ⟨streamHeader type flags p.length i, some body⟩) s ∧
        body.strayByte = (streamHeader type flags p.length i).encode[k]? := by
  unfold parseBody
  simp only [Overruns, streamHeader] at hover ⊢
  cases htype : FrameType.ofCode type with
  | none => simp only [htype] at hover
  | some code =>
    cases code with
    | data | settings | ping | goAway | continuation => simp only [htype] at hover
    | headers =>
      simp only [htype] at hover
      obtain ⟨hpriority, hover⟩ := hover
      split_ifs at hover with hpadded
      · exact .inr ⟨8, by norm_num, by norm_num, fun i ba hba =>
          strays_padded hba (streamHeader_length (by omega) i) hpriority hpadded hover.1 hover.2⟩
      · have hclear := Bool.not_eq_true _ ▸ hpadded
        exact .inr ⟨7, by norm_num, by norm_num, fun i ba hba =>
          HeadersFrame.strays hba (streamHeader_length (by omega) i) hpriority hclear hover⟩
    | priority =>
      simp only [htype] at hover
      exact .inr ⟨7, by norm_num, by norm_num, fun i ba hba =>
        PriorityFrame.strays hba hover.1 hover.2⟩
    | rstStream | windowUpdate =>
      simp only [htype] at hover
      refine .inl ⟨by simp only [fixedLength, htype]; omega, fun i ba hba => ?_⟩
      obtain ⟨w, hok⟩ := hba.readFuint32_ok hover.1 hover.2
      exact parseAs_of_field hok
    | pushPromise =>
      simp only [htype] at hover
      obtain ⟨hpadded, hge, hle, hall⟩ := hover
      exact .inr ⟨p.length, hge, by omega, fun i ba hba =>
        PushPromisedFrame.strays hba (streamHeader_length (by omega) i) hpadded hge hle hall⟩

theorem encode_streamHeader (type flags : UInt8) (n : ℕ) : ∃ i : BitVec 31, ∀ k, 5 ≤ k → k < 9 →
    (streamHeader type flags n 0).encode[k]? = some 0 ∧
    (streamHeader type flags n i).encode[k]? = some 1 := by
  refine ⟨0x01010101, fun k hk hk' => ?_⟩
  have hbyte (header : FrameHeader) : header.encode[k]? = (wordBytes header.rId)[k - 5]? := by
    rw [header.encode_eq, getElem?_append_right (by simp; omega)]
    simp
  have hzero : wordBytes (streamHeader type flags n 0).rId = replicate 4 0 := by
    change wordBytes (joinWord 0 0) = _
    decide
  have hone : wordBytes (streamHeader type flags n 0x01010101).rId = replicate 4 1 := by
    change wordBytes (joinWord 0 0x01010101) = _
    decide
  rw [hbyte, hbyte, hzero, hone]
  exact ⟨getElem?_replicate_of_lt (by omega), getElem?_replicate_of_lt (by omega)⟩

def frameSocket (header : FrameHeader) (p : List UInt8) : Socket :=
  ⟨true, header.encode ++ (p ++ []), [], fun _ => 1⟩

theorem arrives_frameSocket (header : FrameHeader) (p : List UInt8) :
    Arrives (frameSocket header p) header p := ⟨rfl, [], rfl⟩

theorem PayloadIsolated.alike_streams (h : PayloadIsolated type flags p)
    (hsmall : p.length < 2 ^ 24) (i : BitVec 31) : Alike (Option.map Frame.data)
      (parseFrom (fun _ => 0) (frameSocket (streamHeader type flags p.length 0) p))
      (parseFrom (fun _ => 0) (frameSocket (streamHeader type flags p.length i) p)) := by
  have hiso := h (streamHeader type flags p.length 0) rfl rfl (streamHeader_length hsmall 0)
    (fun _ => 0) _ (arrives_frameSocket _ p)
  exact hiso.2 i 0 (fun _ => 0) _ (arrives_frameSocket _ p)

theorem Overruns.length_le (hover : Overruns type flags p) :
    p.length ≤ 8 := by
  unfold Overruns at hover
  split at hover
  · omega
  · omega
  · omega
  · split_ifs at hover <;> omega
  · omega
  · exact hover.elim

theorem not_payloadIsolated_of_overruns (hover : Overruns type flags p) :
    ¬ PayloadIsolated type flags p := by
  intro h
  have hsmall : p.length < 2 ^ 24 := hover.length_le.trans_lt (by simp)
  have hparse (i : BitVec 31) := parseFrom_eq (fun _ => 0)
    (arrives_frameSocket (streamHeader type flags p.length i) p).1 rfl
    (streamHeader_length hsmall i)
  obtain ⟨ba, rx₁, hba, -, hrun⟩ := hparse 0
  rcases parseBody_strays hover with ⟨hshort, hfound⟩ | ⟨k, hk, hk', hstray⟩
  · have hiso := h (streamHeader type flags p.length 0) rfl rfl (streamHeader_length hsmall 0)
      (fun _ => 0) _ (arrives_frameSocket _ p)
    obtain ⟨frame, s, hframe⟩ := hfound 0 ba hba
    obtain ⟨rx', hnone⟩ := hiso.1 hshort
    rw [hrun, withLocal_parseBody, hframe] at hnone
    cases hnone
  · obtain ⟨i, henc⟩ := encode_streamHeader type flags p.length
    obtain ⟨henc, henc'⟩ := henc k hk hk'
    obtain ⟨ba', rx₁', hba', -, hrun'⟩ := hparse i
    have halike := h.alike_streams hsmall i
    obtain ⟨body, s, hbody, hzero⟩ := hstray 0 ba hba
    obtain ⟨body', s', hbody', hone⟩ := hstray i ba' hba'
    rw [henc] at hzero
    rw [henc'] at hone
    rw [hrun, hrun', withLocal_parseBody, withLocal_parseBody, hbody, hbody'] at halike
    cases halike with
    | ok _ _ hsame =>
    obtain rfl : body' = body := by simpa using hsame
    rw [hzero] at hone
    cases hone

/-- What `parseFrom` returns depends on the type, the flags and the payload exactly when the
payload does not overrun. -/
theorem payload_isolated_iff_not_overruns (type flags : UInt8) (p : List UInt8) :
    PayloadIsolated type flags p ↔ ¬ Overruns type flags p :=
  ⟨fun h hover => not_payloadIsolated_of_overruns hover h, payloadIsolated_of_not_overruns⟩

/-- A priority of five bytes takes its weight from the stream identifier, and a reset with an
error code of one byte is accepted. -/
theorem priority_and_reset_not_isolated :
    ¬ PayloadIsolated FrameType.priority.code 0 [0, 0, 0, 0, 10] ∧
    ¬ PayloadIsolated FrameType.rstStream.code 0 [1] := by
  constructor
  · apply not_payloadIsolated_of_overruns
    rw [Overruns, FrameType.ofCode_code]
    decide
  · apply not_payloadIsolated_of_overruns
    rw [Overruns, FrameType.ofCode_code]
    decide

end JKYi.Http2
