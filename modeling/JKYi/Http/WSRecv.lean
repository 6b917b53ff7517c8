import JKYi.Http.WSSend

/-!
# Reassembling a message

A message sent in fragments, with control frames before and between them, is
what one call of `WSRecvMessage` returns, however the bytes are cut on the way.
-/

namespace JKYi.Http

open Assembly List Run

def Takes {α : Type} (x : Run Unit Socket α) (a : α) (i o : List UInt8) : Prop :=
  ∀ s rest, s.connected = true → s.incoming = i ++ rest → ∃ s', x s = .ok a s' ∧ s.Moved i o s'

variable {d : List UInt8}

section

variable {α β : Type} {a : α} {b : β} {i i' o o' : List UInt8} {x : Run Unit Socket α}
  {f : α → Run Unit Socket β}

theorem takes_pure (a : α) : Takes (pure a) a [] [] := fun s _ _ _ => ⟨s, rfl, Socket.Moved.refl s⟩

theorem Takes.run {s : Socket} {rest : List UInt8} (hx : Takes x a i o)
    (hs : s.connected = true) (hin : s.incoming = i ++ rest) :
    ∃ s', x s = .ok a s' ∧ s'.connected = true ∧ s'.incoming = rest ∧
      s'.outgoing = s.outgoing ++ o := by
  obtain ⟨s', hrun, hmoved⟩ := hx s rest hs hin
  exact ⟨s', hrun, hmoved.connected hs, append_cancel_left (hmoved.incoming.symm.trans hin),
    hmoved.outgoing⟩

theorem Takes.bind (hx : Takes x a i o)
    (hf : Takes (f a) b i' o') : Takes (x >>= f) b (i ++ i') (o ++ o') := by
  intro s rest hs hin
  rw [append_assoc] at hin
  obtain ⟨s₁, hrun, hmoved⟩ := hx s (i' ++ rest) hs hin
  have hin₁ := append_cancel_left (hmoved.incoming.symm.trans hin)
  obtain ⟨s₂, hrun₂, hmoved₂⟩ := hf s₁ rest (hmoved.connected hs) hin₁
  refine ⟨s₂, ?_, hmoved.trans hmoved₂⟩
  rw [bind_ok hrun, hrun₂]

theorem Takes.bind_nil (hx : Takes x a [] []) (hf : Takes (f a) b i o) : Takes (x >>= f) b i o :=
  hx.bind hf

theorem Takes.map (hx : Takes x a i o) (f : α → β) :
    Takes (x >>= fun a => pure (f a)) (f a) i o := by
  have h := hx.bind (f := fun a => pure (f a)) (takes_pure (f a))
  rwa [append_nil, append_nil] at h

theorem takes_breakIf {c : Prop} [Decidable c] (h : ¬ c) : Takes (breakIf c) () [] [] :=
  fun s _ _ _ => ⟨s, breakIf_neg h s, Socket.Moved.refl s⟩

theorem takes_readOrBreak (h0 : d ≠ []) (hd : d.length < 2 ^ 31) :
    Takes (readOrBreak d.length) d d [] := by
  intro s rest hs hin
  have hpos := length_pos_iff.mpr h0
  obtain ⟨s', hrun, hmoved⟩ :=
    SocketStream.readFixBuffer_ok (n := d.length) hs (by rw [hin]; simp)
  have htake : s.incoming.take d.length = d := by rw [hin, take_left]
  rw [htake, intOfSize_eq hd] at hrun
  rw [htake] at hmoved
  refine ⟨s', ?_, hmoved⟩
  rw [readOrBreak, bind_ok hrun]
  dsimp only
  rw [bind_ok (breakIf_neg (by omega) s'), pure_run]

end

/-! Control frames. -/

/-- The bytes of `WSPing` and `WSPong`. -/
def controlHead (opcode : WSOpcode) : WSFrameHead :=
  { WSFrameHead.zero with fin := true, opcode := opcode.code }

theorem takes_sendControl (owner : Bool) (opcode : WSOpcode) :
    Takes (sendControl owner opcode) 2 [] (controlHead opcode).bytes := by
  intro s rest hs _
  obtain ⟨s', hrun, hmoved⟩ := SocketStream.writeFixBuffer_ok (controlHead opcode).bytes hs
  refine ⟨s', ?_, hmoved⟩
  have htwo : intOfSize (controlHead opcode).bytes.length = 2 :=
    intOfSize_eq (by simp [WSFrameHead.bytes])
  rw [htwo] at hrun
  rw [sendControl]
  exact bind_ok hrun

theorem ofBytes_bytes (h : WSFrameHead) :
    WSFrameHead.ofBytes (h.bytes.getD 0 0) (h.bytes.getD 1 0) = h := by
  obtain ⟨opcode, rsv1, rsv2, rsv3, fin, payload, mask⟩ := h
  have hfirst : ∀ (o : BitVec 4) (r₁ r₂ r₃ f : Bool),
      let b := BitVec.ofBool f ++
        (BitVec.ofBool r₃ ++ (BitVec.ofBool r₂ ++ (BitVec.ofBool r₁ ++ o)))
      b.extractLsb' 0 4 = o ∧ b.getLsbD 4 = r₁ ∧ b.getLsbD 5 = r₂ ∧ b.getLsbD 6 = r₃ ∧
        b.getLsbD 7 = f := by
    decide +kernel
  have hsecond : ∀ (p : BitVec 7) (m : Bool),
      (BitVec.ofBool m ++ p).extractLsb' 0 7 = p ∧ (BitVec.ofBool m ++ p).getLsbD 7 = m := by
    decide +kernel
  obtain ⟨ho, h₁, h₂, h₃, hf⟩ := hfirst opcode rsv1 rsv2 rsv3 fin
  obtain ⟨hp, hm⟩ := hsecond payload mask
  simp only [WSFrameHead.ofBytes, WSFrameHead.bytes, getD_cons_zero, getD_cons_succ,
    ho, h₁, h₂, h₃, hf, hp, hm]

theorem takes_readHead (h : WSFrameHead) : Takes readHead h h.bytes [] := by
  have hread : Takes (readOrBreak h.bytes.length) h.bytes h.bytes [] :=
    takes_readOrBreak (by simp [WSFrameHead.bytes]) (by simp [WSFrameHead.bytes])
  have hmap := hread.map fun d => WSFrameHead.ofBytes (d.getD 0 0) (d.getD 1 0)
  rwa [ofBytes_bytes] at hmap

variable {head : WSFrameHead}

theorem takes_readLength_field {n : ℕ}
    (hcode : head.payload.toNat = WSFrame.lengthCode n) {field : ℕ → List UInt8}
    (hsize : ∀ k, (field k).length = k) :
    Takes (readLength head)
      (if n < 126 then n else if n < 65536 then ofLeBytes (field 2) else ofLeBytes (field 8))
      (if n < 126 then [] else if n < 65536 then field 2 else field 8) [] := by
  have hfield (k : ℕ) (hk : 0 < k) (hk31 : k < 2 ^ 31) :
      Takes (do let len ← readOrBreak k; pure (toLittleEndian (ofLeBytes len)))
        (ofLeBytes (field k)) (field k) [] := by
    have hlen := hsize k
    have hread : Takes (readOrBreak (field k).length) (field k) (field k) [] :=
      takes_readOrBreak (length_pos_iff.mp (by omega)) (by omega)
    have hmap := hread.map fun len => toLittleEndian (ofLeBytes len)
    rwa [hlen] at hmap
  have hpayload (code : BitVec 7) :
      head.payload = code ↔ WSFrame.lengthCode n = code.toNat := by
    rw [← hcode, BitVec.toNat_inj]
  have h126 : (126 : BitVec 7).toNat = 126 := rfl
  have h127 : (127 : BitVec 7).toNat = 127 := rfl
  rw [readLength]
  simp only [hpayload, h126, h127, hcode, WSFrame.lengthCode]
  by_cases h₁ : n < 126
  · have hne126 : n ≠ 126 := by omega
    have hne127 : n ≠ 127 := by omega
    simp only [h₁, hne126, hne127, if_true, if_false]
    exact takes_pure _
  · by_cases h₂ : n < 65536
    · simp only [h₁, h₂, if_true, if_false]
      exact hfield 2 (by simp) (by simp)
    · simp only [h₁, h₂, if_false]
      exact hfield 8 (by simp) (by simp)

/-! Frames with data. -/

section

variable {msg : WSFrameMessage} {masked fin : Bool} {randValue : UInt32}

theorem takes_readLength (hlen : msg.data.length < 2 ^ 63) :
    Takes (readLength (sendHead msg masked fin)) msg.data.length
      (hostLength msg.data.length) [] := by
  have hread := takes_readLength_field (sendHead_payload msg masked fin)
    fun k => length_leBytes k msg.data.length
  have hvalue : (if msg.data.length < 126 then msg.data.length
      else if msg.data.length < 65536 then ofLeBytes (leBytes 2 msg.data.length)
      else ofLeBytes (leBytes 8 msg.data.length)) = msg.data.length := by
    simp only [ofLeBytes_leBytes]
    split_ifs <;> omega
  rwa [hvalue] at hread

theorem takes_readMask : ∃ key, Takes (readMask (sendHead msg masked fin)) key
      (if masked then leBytes 4 randValue.toNat else []) [] ∧
    (masked = true → key = leBytes 4 randValue.toNat) := by
  cases masked with
  | false => exact ⟨[0, 0, 0, 0], takes_pure _, by simp⟩
  | true =>
    have hread : Takes (readOrBreak (leBytes 4 randValue.toNat).length)
        (leBytes 4 randValue.toNat) (leBytes 4 randValue.toNat) [] :=
      takes_readOrBreak (by simp [leBytes]) (by simp [leBytes])
    exact ⟨_, hread, fun _ => rfl⟩

theorem applyMask_applyMask (mask data : List UInt8) :
    applyMask mask (applyMask mask data) = data := by
  rw [applyMask_eq_transform, applyMask_eq_transform, WSFrame.transform_transform]

def Assembly.extend (a : Assembly) (opcode : WSOpcode) (data : List UInt8) : Assembly where
  opcode := if a.opcode = 0 ∧ opcode ≠ .cont then opcode.code.toNat else a.opcode
  data := a.data ++ data
  curLen := a.curLen + data.length

theorem code_injective : Function.Injective WSOpcode.code := by
  intro a b h
  cases a <;> cases b <;> first | rfl | exact absurd h (by decide)

theorem ofInt_code (opcode : WSOpcode) : BitVec.ofInt 4 (opcode.code.toNat : ℤ) = opcode.code := by
  cases opcode <;> rfl

theorem Assembly.data_resize {a : Assembly} {length : ℕ} (ha : a.curLen = a.data.length)
    (hroom : a.data.length + length < 2 ^ 64) :
    (a.resize length).data = a.data ++ replicate length 0 := by
  have hsize : ((a.curLen + length) % 2 ^ 64).toNat = a.data.length + length := by omega
  rw [Assembly.resize, hsize, take_of_length_le (Nat.le_add_right _ _), Nat.add_sub_cancel_left]

theorem readPayload_resize {a : Assembly} {length : ℕ} (ha : a.curLen = a.data.length)
    (hroom : a.data.length + length < 2 ^ 64) :
    readPayload (a.resize length) length = readOrBreak length := by
  have hcur : (a.resize length).curLen = a.data.length := ha
  rw [readPayload, if_neg]
  rw [hcur, data_resize ha hroom, length_append]
  omega

def Assembly.collect (a : Assembly) (opcode : WSOpcode) (data : List UInt8) : Assembly where
  opcode := if a.opcode = 0 ∧ opcode ≠ .cont then opcode.code.toNat else a.opcode
  data := a.data ++ data
  curLen := intOfSize (a.data.length + data.length)

@[simp] theorem Assembly.curLen_resize (a : Assembly) (length : ℕ) :
    (a.resize length).curLen = a.curLen := rfl

theorem Assembly.append_eq {a : Assembly} {opcode : WSOpcode}
    {key data : List UInt8} (ha : a.curLen = a.data.length) (hop : head.opcode = opcode.code)
    (hunmask : (if head.mask then applyMask key d else d) = data)
    (hroom : a.data.length + data.length < 2 ^ 64)
    (hindex : head.mask = true → a.data.length + data.length ≤ 2 ^ 31) :
    (a.resize data.length).append head key d data.length = pure (a.collect opcode data) := by
  have htake : (a.resize data.length).data.take a.curLen.toNat = a.data := by
    rw [data_resize ha hroom, ha, Int.toNat_natCast, take_left]
  rw [Assembly.append, if_neg, hunmask, curLen_resize, htake, hop]
  · simp only [ne_eq, code_injective.eq_iff, Assembly.collect, Assembly.resize, ha]
    rfl
  · rw [curLen_resize, ha]
    rintro ⟨hm, hlarge⟩
    have := hindex hm
    omega

variable {owner client : Bool} {maxSize : ℕ} {a : Assembly} {opcode : WSOpcode} {data : List UInt8}

theorem takes_recvData_of {key field keyBytes : List UInt8}
    (ha : a.curLen = a.data.length) (h0 : data ≠ []) (hdlen : d.length = data.length)
    (hlen : data.length < 2 ^ 31) (hn : a.data.length < 2 ^ 31)
    (hroom : a.data.length + data.length < maxSize) (hmasked : client = false → head.mask = true)
    (hindex : head.mask = true → a.data.length + data.length ≤ 2 ^ 31)
    (hop : head.opcode = opcode.code) (hlength : Takes (readLength head) data.length field [])
    (hkey : Takes (readMask head) key keyBytes [])
    (hunmask : (if head.mask then applyMask key d else d) = data) :
    Takes (recvData client maxSize head a) (a.collect opcode data)
      (field ++ (keyBytes ++ d)) [] := by
  have hpos := length_pos_iff.mpr h0
  have hpayload : Takes (readPayload (a.resize data.length) data.length) d d [] := by
    rw [readPayload_resize ha (by omega), ← hdlen]
    exact takes_readOrBreak (length_pos_iff.mp (by omega)) (by omega)
  have hadded : Takes ((a.resize data.length).append head key d data.length)
      (a.collect opcode data) [] [] := by
    rw [append_eq ha hop hunmask (by omega) hindex]
    exact takes_pure _
  have hrest := hpayload.bind
    (f := fun d => (a.resize data.length).append head key d data.length) hadded
  rw [append_nil] at hrest
  rw [recvData]
  refine (takes_breakIf ?_).bind_nil
    (hlength.bind ((takes_breakIf ?_).bind_nil (hkey.bind hrest)))
  · rintro ⟨hc, hm⟩
    exact Bool.false_ne_true (hm.symm.trans (hmasked hc))
  · rw [tooLong, ha]
    omega

theorem recvFrame_data (hcode : head.opcode = opcode.code)
    (hop : opcode = .cont ∨ opcode = .textFrame ∨ opcode = .binFrame) :
    recvFrame owner client maxSize head a =
      (recvData client maxSize head a >>= fun a => pure (some a)) := by
  rw [recvFrame]
  simp only [hcode, code_injective.eq_iff]
  rcases hop with rfl | rfl | rfl <;> rfl

theorem takes_recvFrame_data (randValue : UInt32)
    (hop : opcode = .cont ∨ opcode = .textFrame ∨ opcode = .binFrame)
    (ha : a.curLen = a.data.length) (h0 : data ≠ []) (hmax : maxSize < 2 ^ 31)
    (hroom : a.data.length + data.length < maxSize) (hmasked : client = false → masked = true) :
    Takes (recvFrame owner client maxSize (sendHead ⟨opcode.code.toNat, data⟩ masked fin) a)
      (some (a.extend opcode data))
      (hostLength data.length ++ WSFrame.encodePayload (maskOf masked randValue) data) [] := by
  obtain ⟨key, hkey, hkeyEq⟩ : ∃ key,
      Takes (readMask (sendHead ⟨opcode.code.toNat, data⟩ masked fin)) key
        (if masked then leBytes 4 randValue.toNat else []) [] ∧
      (masked = true → key = leBytes 4 randValue.toNat) := takes_readMask
  have hextend : a.extend opcode data = a.collect opcode data := by
    rw [Assembly.extend, Assembly.collect, ha, intOfSize_eq (by omega)]
    rfl
  rw [encodePayload_maskOf masked randValue ⟨opcode.code.toNat, data⟩, hextend]
  rw [recvFrame_data (ofInt_code opcode) hop]
  refine (takes_recvData_of ha h0 (length_sentMessage ..) (by omega) (by omega) hroom hmasked
    (fun _ => by omega) (ofInt_code opcode) (takes_readLength (by dsimp only; omega)) hkey ?_).map
    some
  cases masked with
  | false => rfl
  | true =>
    rw [hkeyEq rfl]
    exact applyMask_applyMask _ _

end

/-! Whole messages. -/

inductive WSControl where
  | ping
  | pong
  deriving DecidableEq

namespace WSControl

def opcode : WSControl → WSOpcode
  | ping => .ping
  | pong => .pong

def answer : WSControl → List UInt8
  | ping => (controlHead .pong).bytes
  | pong => []

def send (owner : Bool) : WSControl → Run Unit Socket ℤ
  | ping => wsPing owner
  | pong => wsPong owner

def bytes (c : WSControl) : List UInt8 := (controlHead c.opcode).bytes

theorem takes_send (owner : Bool) (c : WSControl) : Takes (c.send owner) 2 [] c.bytes := by
  cases c <;> exact takes_sendControl owner _

end WSControl

/-- A fragment, with the control frames that are sent before it. -/
structure Fragment where
  controls : List WSControl
  data : List UInt8
  masked : Bool
  randValue : UInt32

def sendControls (owner : Bool) : List WSControl → Run Unit Socket Unit
  | [] => pure ()
  | c :: cs => do
    discard (c.send owner)
    sendControls owner cs

/-- Sending fragments, the first with `opcode` and the others with `CONTINUE`, the last one
with `fin`; what the calls of `WSSendMessage` return. -/
def sendResults (owner : Bool) : WSOpcode → List Fragment → Run Unit Socket (List ℤ)
  | _, [] => pure []
  | opcode, f :: fs => do
    sendControls owner f.controls
    let (rt, _) ← Run.withObject ⟨opcode.code.toNat, f.data⟩
      (wsSendMessage owner f.masked fs.isEmpty f.randValue)
    let rts ← sendResults owner .cont fs
    pure (rt :: rts)

def sendFragments (owner : Bool) (opcode : WSOpcode) (fs : List Fragment) : Run Unit Socket Unit :=
  discard (sendResults owner opcode fs)

def wire : WSOpcode → List Fragment → List UInt8
  | _, [] => []
  | opcode, f :: fs =>
    f.controls.flatMap WSControl.bytes ++
      (sentBytes f.masked fs.isEmpty f.randValue ⟨opcode.code.toNat, f.data⟩ ++ wire .cont fs)

theorem takes_sendControls (owner : Bool) (cs : List WSControl) :
    Takes (sendControls owner cs) () [] (cs.flatMap WSControl.bytes) := by
  induction cs with
  | nil => exact takes_pure ()
  | cons c cs ih =>
    have hsend : Takes (discard (c.send owner)) () [] c.bytes :=
      (c.takes_send owner).map fun _ => ()
    exact hsend.bind ih

theorem takes_wsSendMessage (owner mask fin : Bool) (randValue : UInt32) {m : WSFrameMessage}
    (hdata : m.data ≠ []) (hlen : m.data.length < 2 ^ 31) :
    Takes (Run.withObject m (wsSendMessage owner mask fin randValue))
      (intOfSize (m.data.length + 2), sentMessage mask randValue m) []
      (sentBytes mask fin randValue m) := by
  intro s rest hs _
  obtain ⟨s', hrun, hmoved⟩ := wsSendMessage_ok hs hdata hlen owner mask fin randValue
  exact ⟨s', Run.withObject_ok hrun, hmoved⟩

variable {fs : List Fragment}

theorem takes_sendResults (owner : Bool) (hdata : ∀ f ∈ fs, f.data ≠ [])
    (hlen : ∀ f ∈ fs, f.data.length < 2 ^ 31) (opcode : WSOpcode) :
    Takes (sendResults owner opcode fs) (fs.map fun f => intOfSize (f.data.length + 2)) []
      (wire opcode fs) := by
  induction fs generalizing opcode with
  | nil => exact takes_pure []
  | cons f fs ih =>
    have hmsg := takes_wsSendMessage (m := ⟨opcode.code.toNat, f.data⟩) owner f.masked fs.isEmpty
      f.randValue (hdata f (by simp)) (hlen f (by simp))
    have hrest := ih (fun g hg => hdata g (by simp [hg])) (fun g hg => hlen g (by simp [hg])) .cont
    exact (takes_sendControls owner f.controls).bind (hmsg.bind (hrest.map _))

section

variable {owner client : Bool} {maxSize : ℕ} {m : WSFrameMessage} {i o : List UInt8}

theorem takes_recvFrame_control {opcode : WSOpcode} (hhead : head.opcode = opcode.code)
    (hop : opcode = .close ∨ opcode = .ping ∨ opcode = .pong) (a : Assembly) :
    Takes (recvFrame owner client maxSize head a) none []
      (if opcode = .ping then (controlHead .pong).bytes else []) := by
  rw [recvFrame, hhead]
  simp only [code_injective.eq_iff]
  rcases hop with rfl | rfl | rfl
  · exact takes_pure none
  · have hpong := (takes_sendControl owner .pong).bind (f := fun rt => do
      breakIf (rt ≤ 0)
      pure (none : Option Assembly)) ((takes_breakIf (by simp)).bind_nil (takes_pure none))
    rwa [append_nil, append_nil] at hpong
  · exact takes_pure none

theorem WSControl.takes_recvFrame (a : Assembly) (c : WSControl) :
    Takes (recvFrame owner client maxSize (controlHead c.opcode) a) none [] c.answer := by
  cases c with
  | ping => exact takes_recvFrame_control rfl (.inr (.inl rfl)) a
  | pong => exact takes_recvFrame_control rfl (.inr (.inr rfl)) a

theorem takes_recvLoop_control {a : Assembly} {rounds : ℕ} (c : WSControl)
    (h : Takes (recvLoop owner client maxSize rounds a) m i o) :
    Takes (recvLoop owner client maxSize (rounds + 1) a) m (c.bytes ++ i) (c.answer ++ o) :=
  (takes_readHead (controlHead c.opcode)).bind ((c.takes_recvFrame a).bind h)

theorem takes_recvLoop_controls {a : Assembly} {rounds : ℕ} (cs : List WSControl)
    (h : Takes (recvLoop owner client maxSize rounds a) m i o) :
    Takes (recvLoop owner client maxSize (rounds + cs.length) a) m
      (cs.flatMap WSControl.bytes ++ i) (cs.flatMap WSControl.answer ++ o) := by
  induction cs with
  | nil => exact h
  | cons c cs ih =>
    have hstep := takes_recvLoop_control c ih
    rwa [← append_assoc, ← append_assoc] at hstep

def frameCount (fs : List Fragment) : ℕ := (fs.map fun f => f.controls.length + 1).sum

theorem takes_recvLoop_fragments (hmax : maxSize < 2 ^ 31) :
    ∀ (a : Assembly) (opcode : WSOpcode) (rounds : ℕ), fs ≠ [] → (∀ f ∈ fs, f.data ≠ []) →
    (client = false → ∀ f ∈ fs, f.masked = true) →
    (opcode = .cont ∨ opcode = .textFrame ∨ opcode = .binFrame) → a.curLen = a.data.length →
    a.data.length + (fs.flatMap Fragment.data).length < maxSize → frameCount fs ≤ rounds →
    Takes (recvLoop owner client maxSize rounds a)
      ⟨(a.extend opcode []).opcode, a.data ++ fs.flatMap Fragment.data⟩ (wire opcode fs)
      (fs.flatMap fun f => f.controls.flatMap WSControl.answer) := by
  induction fs with
  | nil =>
    intro a opcode rounds hne
    exact absurd rfl hne
  | cons f fs ih =>
    intro a opcode rounds _ hdata hmasked hop ha hroom hrounds
    rw [frameCount, map_cons, sum_cons] at hrounds
    obtain ⟨k, rfl⟩ : ∃ k, rounds = k + 1 + f.controls.length :=
      ⟨rounds - 1 - f.controls.length, by omega⟩
    rw [flatMap_cons, length_append] at hroom
    have hframe : Takes (recvFrame owner client maxSize
        (sendHead ⟨opcode.code.toNat, f.data⟩ f.masked fs.isEmpty) a)
        (some (a.extend opcode f.data)) (hostLength f.data.length ++
          WSFrame.encodePayload (maskOf f.masked f.randValue) f.data) [] :=
      takes_recvFrame_data _ hop ha (hdata f (by simp)) hmax (by omega)
        fun hc => hmasked hc f (by simp)
    have hhead := takes_readHead (sendHead ⟨opcode.code.toNat, f.data⟩ f.masked fs.isEmpty)
    have hrest : Takes
        (if (sendHead ⟨opcode.code.toNat, f.data⟩ f.masked fs.isEmpty).fin then
          pure ⟨(a.extend opcode f.data).opcode, (a.extend opcode f.data).data⟩
        else recvLoop owner client maxSize k (a.extend opcode f.data))
        ⟨(a.extend opcode []).opcode, a.data ++ (f :: fs).flatMap Fragment.data⟩
        (wire .cont fs) (fs.flatMap fun f => f.controls.flatMap WSControl.answer) := by
      cases fs with
      | nil =>
        have hpure := takes_pure (⟨(a.extend opcode f.data).opcode,
          (a.extend opcode f.data).data⟩ : WSFrameMessage)
        simpa [sendHead, Assembly.extend, wire] using hpure
      | cons g gs =>
        have hlater := ih (a.extend opcode f.data) .cont k (by simp)
          (fun h hh => hdata h (by simp [hh])) (fun hc h hh => hmasked hc h (by simp [hh]))
          (.inl rfl) (by simp [Assembly.extend, ha]) (by simp [Assembly.extend] at hroom ⊢; omega)
          (by rw [frameCount]; omega)
        simpa [sendHead, Assembly.extend] using hlater
    have hround : Takes (recvLoop owner client maxSize (k + 1) a) _ _ _ :=
      hhead.bind (hframe.bind hrest)
    have hmessage := takes_recvLoop_controls f.controls hround
    simpa [wire, sentBytes] using hmessage

end

theorem length_wire_ge (opcode : WSOpcode) (fs : List Fragment) :
    frameCount fs ≤ (wire opcode fs).length := by
  induction fs generalizing opcode with
  | nil => exact Nat.zero_le _
  | cons f fs ih =>
    have hrest := ih .cont
    have hcontrols : (f.controls.flatMap WSControl.bytes).length = 2 * f.controls.length := by
      induction f.controls with
      | nil => rfl
      | cons c cs ihc =>
        rw [flatMap_cons, length_append, ihc, length_cons, WSControl.bytes,
          WSFrameHead.bytes, length_cons, length_singleton]
        omega
    rw [frameCount] at hrest ⊢
    rw [map_cons, sum_cons, wire, length_append, length_append, hcontrols,
      sentBytes, length_append, length_append, WSFrameHead.bytes, length_cons,
      length_singleton]
    omega

theorem frameCount_le {s : Socket} {opcode : WSOpcode} {rest : List UInt8}
    (hin : s.incoming = wire opcode fs ++ rest) : frameCount fs ≤ s.incoming.length + 1 := by
  have hwire := length_wire_ge opcode fs
  rw [hin, length_append]
  omega

def pingCount (fs : List Fragment) : ℕ := (fs.map fun f => f.controls.count .ping).sum

theorem answers_eq (fs : List Fragment) :
    fs.flatMap (fun f => f.controls.flatMap WSControl.answer) =
      (replicate (pingCount fs) (controlHead .pong).bytes).flatten := by
  have hcontrols (cs : List WSControl) : cs.flatMap WSControl.answer =
      (replicate (cs.count .ping) (controlHead .pong).bytes).flatten := by
    induction cs with
    | nil => rfl
    | cons c cs ih =>
      rw [flatMap_cons, ih]
      cases c <;> simp [WSControl.answer, replicate_succ]
  induction fs with
  | nil => rfl
  | cons f fs ih =>
    rw [flatMap_cons, ih, hcontrols, pingCount, pingCount, map_cons, sum_cons,
      replicate_add, flatten_append]

theorem length_data_le {f : Fragment} (hf : f ∈ fs) :
    f.data.length ≤ (fs.flatMap Fragment.data).length := by
  rw [flatMap_def]
  exact (sublist_flatten_of_mem (mem_map_of_mem hf)).length_le

theorem wsRecvMessage_eq_some_iff {owner client : Bool} {maxSize : ℕ} {s s' : Socket}
    {msg : WSFrameMessage} :
    wsRecvMessage owner client maxSize s = .ok (some msg) s' ↔
      recvLoop owner client maxSize (s.incoming.length + 1) ⟨0, [], 0⟩ s = .ok msg s' := by
  rw [wsRecvMessage, bind_ok (get_run _)]
  cases h : recvLoop owner client maxSize (s.incoming.length + 1) ⟨0, [], 0⟩ s with
  | ok m t =>
    rw [tryCatch_ok (map_ok some h)]
    simp
  | raised e t =>
    have hraised : (some <$> recvLoop owner client maxSize (s.incoming.length + 1) ⟨0, [], 0⟩) s =
        .raised e t := bind_raised h
    rw [tryCatch_raised hraised]
    cases owner <;> simp [SocketStream.close, Socket.close, bind, pure]
  | crash =>
    have hcrash : (some <$> recvLoop owner client maxSize (s.incoming.length + 1) ⟨0, [], 0⟩) s =
        .crash := bind_crash h
    simp [Run.tryCatch, hcrash]

theorem takes_wsRecvMessage {opcode : WSOpcode} (hop : opcode = .textFrame ∨ opcode = .binFrame)
    (hne : fs ≠ []) (hdata : ∀ f ∈ fs, f.data ≠ []) {maxSize : ℕ}
    (hmax : maxSize < 2 ^ 31) (htotal : (fs.flatMap Fragment.data).length < maxSize)
    {client : Bool} (hmasked : client = false → ∀ f ∈ fs, f.masked = true) (owner : Bool) :
    Takes (wsRecvMessage owner client maxSize)
      (some ⟨opcode.code.toNat, fs.flatMap Fragment.data⟩) (wire opcode fs)
      (fs.flatMap fun f => f.controls.flatMap WSControl.answer) := by
  intro receiver rest hreceiver hin
  have hloop : Takes (recvLoop owner client maxSize (receiver.incoming.length + 1) ⟨0, [], 0⟩)
      _ _ _ :=
    takes_recvLoop_fragments hmax ⟨0, [], 0⟩ opcode _ hne hdata hmasked (.inr hop) rfl
      (by simpa using htotal) (frameCount_le hin)
  obtain ⟨receiver', hrecv, hmoved⟩ := hloop receiver rest hreceiver hin
  refine ⟨receiver', wsRecvMessage_eq_some_iff.mpr ?_, hmoved⟩
  rcases hop with rfl | rfl <;> exact hrecv

/-- One call of `WSRecvMessage` returns the message that was sent in fragments, answers every
ping with a pong and reads exactly what was sent. -/
theorem wsRecvMessage_fragments (opcode : WSOpcode)
    (hop : opcode = .textFrame ∨ opcode = .binFrame) (fs : List Fragment) (hne : fs ≠ [])
    (hdata : ∀ f ∈ fs, f.data ≠ []) (maxSize : ℕ) (hmax : maxSize < 2 ^ 31)
    (htotal : (fs.flatMap Fragment.data).length < maxSize) (client : Bool)
    (hmasked : client = false → ∀ f ∈ fs, f.masked = true) (sender : Socket)
    (hsender : sender.connected = true) (ownerS ownerR : Bool) :
    ∃ sent sender', sendFragments ownerS opcode fs sender = .ok () sender' ∧
      sender'.outgoing = sender.outgoing ++ sent ∧
      ∀ (receiver : Socket) (rest : List UInt8), receiver.connected = true →
        receiver.incoming = sent ++ rest →
        ∃ receiver', wsRecvMessage ownerR client maxSize receiver =
            .ok (some ⟨opcode.code.toNat, fs.flatMap Fragment.data⟩) receiver' ∧
          receiver'.incoming = rest ∧ receiver'.connected = true ∧
          receiver'.outgoing = receiver.outgoing ++
            (replicate (pingCount fs) (controlHead .pong).bytes).flatten := by
  have hlen : ∀ f ∈ fs, f.data.length < 2 ^ 31 := by
    intro f hf
    have hle := length_data_le hf
    omega
  obtain ⟨sender', hsend, hmoved⟩ :=
    ((takes_sendResults ownerS hdata hlen opcode).map fun _ => ()) sender _ hsender rfl
  refine ⟨wire opcode fs, sender', hsend, hmoved.outgoing, ?_⟩
  intro receiver rest hreceiver hin
  obtain ⟨receiver', hrecv, hconnected, hrest, hout⟩ :=
    (takes_wsRecvMessage hop hne hdata hmax htotal hmasked ownerR).run hreceiver hin
  exact ⟨receiver', hrecv, hrest, hconnected, by rw [hout, answers_eq]⟩

theorem wsRecvMessage_fragments_two : ∃ sent sender' receiver',
    sendFragments true .textFrame
      [⟨[.ping], [104, 105], true, 7⟩, ⟨[.pong, .ping], [33], true, 0⟩]
      ⟨true, [], [], fun _ => 1⟩ = .ok () sender' ∧
    sender'.outgoing = sent ∧
    wsRecvMessage true false 100 ⟨true, sent, [], fun i => i⟩ =
      .ok (some ⟨1, [104, 105, 33]⟩) receiver' ∧
    receiver'.incoming = [] ∧ receiver'.outgoing = [0x8a, 0x00, 0x8a, 0x00] := by
  obtain ⟨sent, sender', hsend, hout, hrecv⟩ := wsRecvMessage_fragments .textFrame
    (.inl rfl) [⟨[.ping], [104, 105], true, 7⟩, ⟨[.pong, .ping], [33], true, 0⟩]
    (by simp) (by simp) 100 (by simp) (by decide) false (by simp)
    ⟨true, [], [], fun _ => 1⟩ rfl true true
  obtain ⟨receiver', hrun, hrest, -, hanswer⟩ :=
    hrecv ⟨true, sent, [], fun i => i⟩ [] rfl (by simp)
  exact ⟨sent, sender', receiver', hsend, hout, hrun, hrest, hanswer.trans rfl⟩

end JKYi.Http
