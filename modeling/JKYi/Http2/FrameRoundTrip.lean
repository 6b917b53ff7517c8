import JKYi.Http2.FrameRead

/-!
# Frames across a connection

What `serializeTo` sends, seen by `parseFrom` at the other end, however the bytes are cut on
their way. Most frames arrive; promises are never sent and pings never accepted. A priority is
read back with the wrong widths.
-/

namespace JKYi.Http2

open Nat PriorityFrame JKYi.ByteArray FrameCodec Run List

variable {header : FrameHeader} {ba ba' : ByteArray}

/-- The frame is sent, and wherever its bytes are received a frame with `P` comes out. -/
def Transfers (frame : Frame) (P : Frame → Prop) : Prop :=
  ∀ (heap : ℕ → UInt8) (tx : Socket), tx.connected = true → ∃ n frame' tx' out,
    serializeTo heap frame tx = .ok (n, frame') tx' ∧ 0 < n ∧
    tx'.outgoing = tx.outgoing ++ out ∧
    ∀ (heap' : ℕ → UInt8) (rx : Socket) (rest : List UInt8), rx.connected = true →
      rx.incoming = out ++ rest → ∃ g rx', parseFrom heap' rx = .ok (some g) rx' ∧ P g

section

variable {frame : Frame} {P Q : Frame → Prop}

theorem Transfers.mono (h : Transfers frame P) (hPQ : ∀ g, P g → Q g) : Transfers frame Q := by
  intro heap tx htx
  obtain ⟨n, frame', tx', out, hser, hn, hout, hparse⟩ := h heap tx htx
  refine ⟨n, frame', tx', out, hser, hn, hout, ?_⟩
  intro heap' rx rest hrx hin
  obtain ⟨g, rx', hrun, hg⟩ := hparse heap' rx rest hrx hin
  exact ⟨g, rx', hrun, hPQ g hg⟩

theorem Transfers.common (hP : Transfers frame P) (hQ : Transfers frame Q) : ∃ g, P g ∧ Q g := by
  let tx : Socket := ⟨true, [], [], fun _ => 1⟩
  obtain ⟨n, frame', tx', out, hser, -, hout, hparse⟩ := hP (fun _ => 0) tx rfl
  obtain ⟨n₂, frame₂, tx₂, out₂, hser₂, -, hout₂, hparse₂⟩ := hQ (fun _ => 0) tx rfl
  cases hser.symm.trans hser₂
  obtain rfl := append_cancel_left (hout.symm.trans hout₂)
  let rx : Socket := ⟨true, out ++ [], [], fun _ => 1⟩
  obtain ⟨g, rx', hrun, hg⟩ := hparse (fun _ => 0) rx [] rfl rfl
  obtain ⟨g₂, rx₂, hrun₂, hg₂⟩ := hparse₂ (fun _ => 0) rx [] rfl rfl
  cases hrun.symm.trans hrun₂
  exact ⟨g, hg, hg₂⟩

end

@[simp] theorem IFrame.payload_withLength (header : FrameHeader) (n : ℕ) (body : IFrame) :
    body.payload (header.withLength n) = body.payload header := by
  cases body <;> rfl

theorem FrameHeader.toNat_length_withLength (header : FrameHeader) (n : ℕ) :
    (header.withLength n).length.toNat = n % 2 ^ 24 :=
  BitVec.toNat_ofNat n 24

section

variable {frame : Frame} {body : IFrame}

theorem transfers_of_parseBody {g : Frame} (hdata : frame.data = some body) (hplain : body.Plain)
    (hlen : frame.payload.length < 2 ^ 24)
    (hbody : ∀ ba, Received ba (frame.header.withLength frame.payload.length) frame.payload →
      ∃ ba', parseBody (frame.header.withLength frame.payload.length) ba = .ok (some g) ba') :
    Transfers frame fun h => h = g := by
  intro heap tx htx
  obtain ⟨tx', hser, hout⟩ := serializeTo_ok heap hdata hplain (by omega) htx
  refine ⟨_, _, tx', _, hser, by omega, hout, ?_⟩
  intro heap' rx rest hrx hin
  have hlength := frame.header.toNat_length_withLength frame.payload.length
  rw [mod_eq_of_lt hlen] at hlength
  obtain ⟨rx', hrun, -⟩ := parseFrom_ok heap' hrx hin hlength hbody
  exact ⟨g, rx', hrun, rfl⟩

theorem Transfers.parsed {P : Frame → Prop} (h : Transfers frame P) (hdata : frame.data = some body)
    (hplain : body.Plain) (hlen : frame.payload.length + 9 < 2 ^ 31) : ∃ ba ba' g,
    Received ba (frame.header.withLength frame.payload.length)
      (frame.payload.take (frame.payload.length % 2 ^ 24)) ∧
    parseBody (frame.header.withLength frame.payload.length) ba = .ok (some g) ba' ∧ P g := by
  let tx : Socket := ⟨true, [], [], fun _ => 1⟩
  have htx : tx.connected = true := rfl
  obtain ⟨n, frame', tx', out, hser, -, hout, hparse⟩ := h (fun _ => 0) tx htx
  obtain ⟨tx₂, hser₂, hout₂⟩ := serializeTo_ok (fun _ => 0) hdata hplain hlen htx
  cases hser.symm.trans hser₂
  obtain rfl := append_cancel_left (hout.symm.trans hout₂)
  let rx : Socket := ⟨true, (frame.header.withLength frame.payload.length).encode ++
    frame.payload ++ [], [], fun _ => 1⟩
  have hrx : rx.connected = true := rfl
  obtain ⟨g, rx', hrun, hg⟩ := hparse (fun _ => 0) rx [] hrx rfl
  have hin : rx.incoming = (frame.header.withLength frame.payload.length).encode ++
      (frame.payload.take (frame.payload.length % 2 ^ 24) ++
        frame.payload.drop (frame.payload.length % 2 ^ 24)) := by
    rw [take_append_drop]
    exact append_nil _
  have hlength := frame.header.toNat_length_withLength frame.payload.length
  rw [← length_take_of_le (mod_le _ _)] at hlength
  obtain ⟨ba, ba', hba, hbody⟩ := parseBody_of_parseFrom (fun _ => 0) hrx hin hlength hrun
  exact ⟨ba, ba', g, hba, hbody, hg⟩

/-- The bodies that come back: data, header blocks without a priority and without an
encoder, resets, settings, farewells and window updates. -/
def IFrame.Carried (header : FrameHeader) : IFrame → Prop
  | data f => PaddingOk (header.has FrameFlagData.padded) f.pad f.padding
  | headers f => f.hpack = none ∧ header.has FrameFlagHeaders.priority = false ∧
      PaddingOk (header.has FrameFlagHeaders.padded) f.pad f.padding
  | rstStream _ | settings _ | goAway _ | windowUpdate _ => True
  | priority _ | pushPromise _ | ping _ => False

def IFrame.received : IFrame → IFrame
  | headers f => headers f.received
  | body => body

theorem IFrame.Carried.plain (h : body.Carried header) : body.Plain := by
  cases body with
  | headers f => exact h.1
  | pushPromise f => exact h
  | _ => trivial

theorem receives_parseBody (hcarried : body.Carried header)
    (htype : header.type = body.frameType.code)
    (hlen : header.length.toNat = (body.payload header).length) :
    Receives 8 (parseBody header) (some ⟨header, some body.received⟩) (body.payload header) := by
  unfold parseBody
  rw [htype, FrameType.ofCode_code]
  cases body with
  | data f =>
    exact receives_parseAs .data ((f.receives_readFrom hcarried hlen).mono (zero_le _))
  | headers f =>
    obtain ⟨-, hpriority, hpad⟩ := hcarried
    exact receives_parseAs .headers
      ((f.receives_readFrom hpriority hpad hlen).mono (zero_le _))
  | rstStream f => exact receives_parseAs .rstStream (f.receives_readFrom.mono (zero_le _))
  | settings f =>
    exact receives_parseAs .settings ((f.receives_readFrom hlen).mono (zero_le _))
  | goAway f => exact receives_parseAs .goAway (f.receives_readFrom hlen)
  | windowUpdate f =>
    exact receives_parseAs .windowUpdate (f.receives_readFrom.mono (zero_le _))
  | priority f | pushPromise f | ping f => exact hcarried.elim

theorem transfers_carried (frame : Frame) (hdata : frame.data = some body)
    (hcarried : body.Carried frame.header)
    (htype : frame.header.type = body.frameType.code) (hlen : frame.payload.length < 2 ^ 24) :
    Transfers frame fun g =>
      g = ⟨frame.header.withLength frame.payload.length, some body.received⟩ := by
  have hpayload : frame.payload = body.payload frame.header := by rw [Frame.payload, hdata]
  have hlength := frame.header.toNat_length_withLength frame.payload.length
  rw [mod_eq_of_lt hlen] at hlength
  apply transfers_of_parseBody hdata hcarried.plain hlen
  have hcarried' : body.Carried (frame.header.withLength frame.payload.length) := by
    cases body <;> exact hcarried
  have hbody := receives_parseBody hcarried' htype (by simpa [hpayload] using hlength)
  rw [IFrame.payload_withLength, ← hpayload] at hbody
  exact fun ba hba => parseBody_of_receives hbody hba

end

/-- Carried frames come back with the length of their payload. What the header block of
a frame does not transmit, its priority and the fields it was made from, comes back empty. -/
theorem serializeTo_parseFrom (frame : Frame) (body : IFrame) (hdata : frame.data = some body)
    (hcarried : body.Carried frame.header) (htype : frame.header.type = body.frameType.code)
    (hlen : frame.payload.length < 2 ^ 24) :
    Transfers frame fun g =>
      g = ⟨frame.header.withLength frame.payload.length, some body.received⟩ ∧
      g.header.length.toNat = frame.payload.length := by
  apply (transfers_carried frame hdata hcarried htype hlen).mono
  rintro g rfl
  exact ⟨rfl, (frame.header.toNat_length_withLength _).trans (mod_eq_of_lt hlen)⟩

theorem serializeTo_parseFrom_padded : Transfers
    ⟨{ type := 0, flags := 0x8, identifier := 5, r := 1 },
      some (.data { pad := 1, data := [], padding := [7] })⟩ fun g =>
      g = ⟨{ type := 0, length := 2, flags := 0x8, identifier := 5, r := 1 },
        some (.data { pad := 1, data := [], padding := [7] })⟩ ∧ g.header.length.toNat = 2 := by
  have hpad : PaddingOk true 1 [7] := ⟨by decide, rfl⟩
  exact serializeTo_parseFrom _ (.data { pad := 1, data := [], padding := [7] }) rfl hpad rfl
    (by decide)

/-- A weight that is not transmitted is lost. -/
theorem serializeTo_parseFrom_loses_weight :
    IFrame.Carried { type := 1 } (.headers { priority := { weight := 1 } }) ∧
    ¬ Transfers ⟨{ type := 1 }, some (.headers { priority := { weight := 1 } })⟩ fun g =>
      g.data = some (.headers { priority := { weight := 1 } }) := by
  have hcarried : IFrame.Carried { type := 1 } (.headers { priority := { weight := 1 } }) :=
    ⟨rfl, rfl, rfl, rfl⟩
  refine ⟨hcarried, fun h => ?_⟩
  have harrives := transfers_carried ⟨{ type := 1 }, _⟩ rfl hcarried rfl (by decide)
  obtain ⟨g, hg, rfl⟩ := h.common harrives
  have hframe := IFrame.headers.inj (Option.some.inj hg)
  have hweight := congrArg (fun f => f.priority.weight) hframe
  exact absurd hweight (by decide)

/-! Promises and pings. -/

theorem PushPromisedFrame.writeTo_eq_false {f : PushPromisedFrame} {b : Bool}
    (h : f.writeTo header ba = .ok b ba') : b = false := by
  apply tryCatch_inv (P := (· = false)) _ _ h
  · intro a t hrun
    obtain ⟨-, t₁, -, hpure⟩ := bind_eq_ok_iff.mp hrun
    cases hpure
    rfl
  · intro t a t' hrun
    cases hrun
    rfl

theorem PingFrame.readFrom_eq_false {f f' : PingFrame} {b : Bool}
    (h : readFrom (f, ba) = .ok b (f', ba')) : b = false := by
  apply tryCatch_inv (P := (· = false)) _ _ h
  · intro a t hrun
    obtain ⟨data, t₁, -, hrest⟩ := bind_eq_ok_iff.mp hrun
    cases hrest
    rfl
  · intro t a t' hrun
    cases hrun
    rfl

theorem serializeTo_pushPromise {frame : Frame} {f : PushPromisedFrame} {heap : ℕ → UInt8}
    {tx tx' : Socket} {n : ℤ} {frame' : Frame} (hdata : frame.data = some (.pushPromise f))
    (hrun : serializeTo heap frame tx = .ok (n, frame') tx') : n = -1 := by
  obtain ⟨ba, hlocal⟩ := withLocal_eq_ok_iff.mp hrun
  obtain ⟨-, ⟨tx₁, ba₁⟩, -, hbody⟩ := bind_eq_ok_iff.mp hlocal
  rw [hdata] at hbody
  obtain ⟨⟨ok, data⟩, ⟨tx₂, ba₂⟩, hwrite, hrest⟩ := bind_eq_ok_iff.mp hbody
  obtain ⟨-, hwrite⟩ := onSnd_eq_ok_iff.mp hwrite
  obtain ⟨b, ba₃, hf, hpair⟩ := bind_eq_ok_iff.mp hwrite
  cases hpair
  obtain rfl := PushPromisedFrame.writeTo_eq_false hf
  cases hrest
  rfl

theorem parseBody_ping {g : Frame} (htype : header.type = FrameType.ping.code) :
    parseBody header ba ≠ .ok (some g) ba' := by
  intro hrun
  rw [parseBody, htype, FrameType.ofCode_code] at hrun
  obtain ⟨⟨ok, f⟩, ba₁, hread, hpure⟩ := bind_eq_ok_iff.mp hrun
  obtain rfl := PingFrame.readFrom_eq_false (withObject_eq_ok_iff.mp hread)
  cases hpure

/-- Neither promises nor pings get across, whatever is asked of what arrives. -/
theorem pushPromise_ping_never (frame : Frame) (body : IFrame) (hdata : frame.data = some body)
    (htype : frame.header.type = body.frameType.code)
    (hbody : body.frameType = .pushPromise ∨ body.frameType = .ping) (P : Frame → Prop) :
    ¬ Transfers frame P := by
  intro h
  cases body with
  | pushPromise f =>
    obtain ⟨n, frame', tx', out, hser, hn, -⟩ := h (fun _ => 0) ⟨true, [], [], fun _ => 1⟩ rfl
    have := serializeTo_pushPromise hdata hser
    omega
  | ping f =>
    have hlen : frame.payload.length = 8 := by
      rw [Frame.payload, hdata]
      exact length_leBytes 8 _
    obtain ⟨ba, ba', g, -, hparsed, -⟩ := h.parsed hdata trivial (by omega)
    have htype' : (frame.header.withLength frame.payload.length).type = FrameType.ping.code := htype
    exact parseBody_ping htype' hparsed
  | _ => simp [IFrame.frameType] at hbody

theorem pushPromise_ping_never_zero :
    ¬ Transfers ⟨{ type := 6 }, some (.ping {})⟩ (fun _ => True) ∧
    ¬ Transfers ⟨{ type := 5 }, some (.pushPromise {})⟩ (fun _ => True) := by
  constructor
  · exact pushPromise_ping_never _ (.ping {}) rfl rfl (.inr rfl) _
  · exact pushPromise_ping_never _ (.pushPromise {}) rfl rfl (.inl rfl) _

/-- A promise that is not sent. -/
theorem pushPromise_not_sent :
    ¬ Transfers ⟨{ type := 5 }, some (.pushPromise {})⟩ fun g =>
      g.data = some (.pushPromise {}) := by
  intro h
  obtain ⟨n, frame', tx', out, hser, hn, -⟩ := h (fun _ => 0) ⟨true, [], [], fun _ => 1⟩ rfl
  have := serializeTo_pushPromise rfl hser
  omega

/-! Priorities. The words that `readFrom` takes are five bytes on the wire. -/

theorem wordBytes_eq (w : UInt32) : wordBytes w =
    [.ofNat (w.toNat / 256 / 256 / 256), .ofNat (w.toNat / 256 / 256), .ofNat (w.toNat / 256),
      .ofNat w.toNat] := rfl

theorem exists_wordBytes (a b c d : UInt8) : ∃ w : UInt32, wordBytes w = [a, b, c, d] ∧
    w.toUInt8 = d := by
  generalize hn : ofLeBytes [d, c, b, a] = n
  have hlt := ofLeBytes_lt [d, c, b, a]
  have hbytes := leBytes_ofLeBytes [d, c, b, a]
  rw [hn] at hlt hbytes
  have hword := UInt32.toNat_ofNat_of_lt' (by norm_num at hlt ⊢; omega)
  refine ⟨UInt32.ofNat n, ?_, ?_⟩
  · rw [wordBytes, hword]
    exact congrArg reverse hbytes
  · apply UInt8.toNat_inj.mp
    have := d.toNat_lt
    rw [UInt32.toNat_toUInt8, hword, ← hn, ofLeBytes]
    omega

theorem exists_two_words {l : List UInt8} (hlen : 8 ≤ l.length) :
    ∃ w w' tail, l = (wordBytes w ++ wordBytes w') ++ tail := by
  match l, hlen with
  | a :: b :: c :: d :: a' :: b' :: c' :: d' :: tail, _ =>
    obtain ⟨w, hw, -⟩ := exists_wordBytes a b c d
    obtain ⟨w', hw', -⟩ := exists_wordBytes a' b' c' d'
    exact ⟨w, w', tail, by rw [hw, hw']; rfl⟩

def FrameHeader.idByte (header : FrameHeader) (i : ℕ) : UInt8 :=
  .ofNat (header.identifier.toNat / 256 ^ i)

theorem FrameHeader.encode_drop_five (header : FrameHeader) :
    ∃ a b, header.encode.drop 5 = [a, b, header.idByte 1, header.idByte 0] := by
  have hid : header.identifier.toNat = header.rId.toNat % 2 ^ 31 := by
    have hlow := congrArg BitVec.toNat (lowBits_joinWord header.r header.identifier)
    rw [← hlow, lowBits, BitVec.extractLsb'_toNat, shiftRight_zero]
    rfl
  have hbyte₁ : UInt8.ofNat (header.rId.toNat / 256) = header.idByte 1 := by
    apply UInt8.toNat_inj.mp
    rw [idByte, UInt8.toNat_ofNat', UInt8.toNat_ofNat', hid]
    omega
  have hbyte₀ : UInt8.ofNat header.rId.toNat = header.idByte 0 := by
    apply UInt8.toNat_inj.mp
    rw [idByte, UInt8.toNat_ofNat', UInt8.toNat_ofNat', hid]
    omega
  have hdrop : header.encode.drop 5 = wordBytes header.rId := rfl
  rw [hdrop, wordBytes_eq, hbyte₁, hbyte₀]
  exact ⟨_, _, rfl⟩

theorem parseBody_priority {f : PriorityFrame} (htype : header.type = FrameType.priority.code)
    (hba : Received ba header f.encode) : ∃ ba', parseBody header ba =
      .ok (some ⟨header, some (.priority ⟨f.streamDep, 0, header.idByte 1⟩)⟩) ba' := by
  obtain ⟨a, b, hdrop⟩ := header.encode_drop_five
  obtain ⟨w, hw, hlow⟩ := exists_wordBytes f.weight a b (header.idByte 1)
  have hunread : ba.unread = (wordBytes f.eStreamDep ++ wordBytes w) ++ [header.idByte 0] := by
    have hlen : f.encode.length = 5 := by simp [PriorityFrame.encode]
    rw [hba.unread_eq, if_neg (by simp [PriorityFrame.encode]), hlen, hdrop, hw,
      PriorityFrame.encode]
    simp
  have hread := receives_readFrom {} f.eStreamDep w ba _ hba.wf hba.endian_eq
    (fun h => by simp at h) hunread
  rw [hlow, eStreamDep, lowBits_joinWord] at hread
  rw [parseBody, htype, FrameType.ofCode_code]
  exact ⟨_, bind_ok hread⟩

theorem FrameCodec.Received.readResized_nine {p : List UInt8} (hba : Received ba header p)
    (hlen : ba.unread.length = 9) :
    readResized 0 (ba.advance 9) = .ok [] ((ba.advance 9).advance 0) ∧
      readResized 0 ((ba.advance 9).advance 0) =
        .ok [] (((ba.advance 9).advance 0).advance 0) := by
  have hwf₉ : (ba.advance 9).Wf := by
    apply advance_wf hba.wf
    rw [← length_unread hba.wf, hlen]
  have hcur : (ba.advance 9).position < (ba.advance 9).capacity := by
    have := hba.position_le
    have := hba.capacity_ge
    change ba.position + 9 < ba.capacity
    omega
  exact ⟨readResized_ok (d := []) hwf₉ rfl (by simp) hcur,
    readResized_ok (d := []) (advance_wf hwf₉ (zero_le _)) rfl (by simp) hcur⟩

namespace HeadersFrame

variable {f : HeadersFrame} (hpriority : header.has FrameFlagHeaders.priority = true)
include hpriority

/-- With at most one byte behind the priority, and no padding, that byte and the weight are
taken from the header. -/
theorem readParts_short (hpadded : header.has FrameFlagHeaders.padded = false)
    (hdata : f.data.length ≤ 1) (hlen : header.length.toNat = f.data.length + 5)
    (hba : Received ba header (f.priority.encode ++ f.data)) :
    ∃ ba', readParts header {} ba = .ok ((), {
      priority := ⟨f.priority.streamDep, 0, header.idByte 1⟩,
      data := [header.idByte 0].take f.data.length }) ba' := by
  obtain ⟨a, b, hdrop⟩ := header.encode_drop_five
  obtain ⟨w, hlow, hunread⟩ : ∃ w : UInt32, w.toUInt8 = header.idByte 1 ∧
      ba.unread = (wordBytes f.priority.eStreamDep ++ wordBytes w) ++ [header.idByte 0] := by
    have hpos : f.priority.encode ++ f.data ≠ [] := by simp [PriorityFrame.encode]
    have hunread := hba.unread_eq
    match hlist : f.data, hdata with
    | [], _ =>
      obtain ⟨w, hw, hlow⟩ := exists_wordBytes f.priority.weight a b (header.idByte 1)
      refine ⟨w, hlow, ?_⟩
      rw [hunread, hlist, hw, PriorityFrame.encode]
      simpa using hdrop
    | [x], _ =>
      obtain ⟨w, hw, hlow⟩ := exists_wordBytes f.priority.weight x b (header.idByte 1)
      refine ⟨w, hlow, ?_⟩
      have hdrop₆ := congrArg (drop 1) hdrop
      rw [hunread, hlist, hw, PriorityFrame.encode]
      simpa using hdrop₆
  have hwf₁ := advance_wf hba.wf (length_le_getReadSize hba.wf hunread)
  have hrest := unread_advance_append hunread
  have hcount : (wordBytes f.priority.eStreamDep ++ wordBytes w).length = 8 := by simp
  rw [hcount] at hwf₁ hrest
  have hcur := position_lt_capacity hwf₁ (by simp [hrest])
  have hfive : (header.length.toNat : ℤ) - 5 = f.data.length := by omega
  have hmax : ¬ stringMaxSize < f.data.length := by
    unfold stringMaxSize
    omega
  have hread : readResized f.data.length (ba.advance 8) = .ok ([header.idByte 0].take f.data.length)
      ((ba.advance 8).advance f.data.length) := by
    rw [readResized, if_neg hmax, read_ok hwf₁ _ hcur, hrest]
    rw [← length_unread hwf₁, hrest]
    exact hdata
  rw [readParts_priority hpriority hpadded hba.wf hba.endian_eq hunread, hfive,
    sizeOfInt_natCast (by omega), bind_ok hread, hlow, eStreamDep,
    lowBits_joinWord]
  exact ⟨_, rfl⟩

theorem readParts_padded_short (hpadded : header.has FrameFlagHeaders.padded = true)
    (hlen : header.length.toNat = 6) (hba : Received ba header ([0] ++ f.priority.encode)) :
    ∃ ba', readParts header {} ba = .ok ((), {
      priority := ⟨f.priority.streamDep, 0, header.idByte 0⟩ }) ba' := by
  obtain ⟨a, b, hdrop⟩ := header.encode_drop_five
  obtain ⟨w, hw, hlow⟩ := exists_wordBytes f.priority.weight b (header.idByte 1) (header.idByte 0)
  have hunread : ba.unread = [0] ++ ((wordBytes f.priority.eStreamDep ++ wordBytes w) ++ []) := by
    have hdrop₆ := congrArg (drop 1) hdrop
    rw [hba.unread_eq, if_neg (by simp), hw, PriorityFrame.encode]
    simpa using hdrop₆
  obtain ⟨hread, hread₂⟩ := hba.readResized_nine (by rw [hunread]; simp)
  rw [readParts_priority_padded hpriority hpadded hba.wf hba.endian_eq hunread, hlen, hlow,
    eStreamDep, lowBits_joinWord]
  have hzero : sizeOfInt ((6 : ℕ) - ((0 : UInt8).toNat + 1) - 5) = 0 := by decide
  rw [hzero, bind_ok hread]
  exact ⟨_, bind_ok hread₂⟩

end HeadersFrame
end JKYi.Http2
