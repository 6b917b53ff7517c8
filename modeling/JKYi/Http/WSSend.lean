import JKYi.Http.WSSession

/-!
# What the senders put on the wire

The wire format of a websocket frame, as any peer reads it, and the bytes that
`WSSendMessage` sends. They differ in the extended length: the format has it in
network byte order, the code sends it in the byte order of the host.
-/

namespace JKYi.Http

open List Run Option

/-- A frame of the wire format; `maskKey` holds the four bytes of the key. -/
structure WSFrame where
  fin : Bool
  opcode : BitVec 4
  maskKey : Option (Fin 4 → UInt8)
  payload : List UInt8
  deriving DecidableEq

variable {n : ℕ}

namespace WSFrame

def transform (key : Fin 4 → UInt8) (payload : List UInt8) : List UInt8 :=
  payload.mapIdx fun i b => b ^^^ key (Fin.ofNat 4 i)

def lengthCode (n : ℕ) : ℕ := if n < 126 then n else if n < 65536 then 126 else 127

def extendedLength (n : ℕ) : List UInt8 :=
  if n < 126 then [] else if n < 65536 then (leBytes 2 n).reverse else (leBytes 8 n).reverse

def encodePayload (maskKey : Option (Fin 4 → UInt8)) (payload : List UInt8) : List UInt8 :=
  match maskKey with
  | none => payload
  | some key => ofFn key ++ transform key payload

def encode (f : WSFrame) : List UInt8 :=
  [UInt8.ofNat (f.fin.toNat * 128 + f.opcode.toNat),
   UInt8.ofNat (f.maskKey.isSome.toNat * 128 + lengthCode f.payload.length)] ++
  extendedLength f.payload.length ++ encodePayload f.maskKey f.payload

def splitExact (n : ℕ) (l : List UInt8) : Option (List UInt8 × List UInt8) :=
  if n ≤ l.length then some (l.take n, l.drop n) else none

def decodeLength (code : ℕ) (l : List UInt8) : Option (ℕ × List UInt8) :=
  if code < 126 then some (code, l)
  else do
    let (len, l) ← splitExact (if code = 126 then 2 else 8) l
    pure (ofLeBytes len.reverse, l)

def decodePayload (masked : Bool) (len : ℕ) (l : List UInt8) :
    Option (Option (Fin 4 → UInt8) × List UInt8 × List UInt8) :=
  if masked then do
    let (key, l) ← splitExact 4 l
    let (payload, l) ← splitExact len l
    let key : Fin 4 → UInt8 := fun i => key.getD i 0
    pure (some key, transform key payload, l)
  else do
    let (payload, l) ← splitExact len l
    pure (none, payload, l)

/-- A peer that reads one frame and leaves what follows it. -/
def decode : List UInt8 → Option (WSFrame × List UInt8)
  | b₀ :: b₁ :: l =>
    if b₀.toNat / 16 % 8 ≠ 0 then none
    else do
      let (len, l) ← decodeLength (b₁.toNat % 128) l
      let (key, payload, l) ← decodePayload (128 ≤ b₁.toNat) len l
      pure (⟨128 ≤ b₀.toNat, .ofNat 4 b₀.toNat, key, payload⟩, l)
  | _ => none

@[simp] theorem length_transform (key : Fin 4 → UInt8) (payload : List UInt8) :
    (transform key payload).length = payload.length := by
  simp [transform]

theorem transform_transform (key : Fin 4 → UInt8) (payload : List UInt8) :
    transform key (transform key payload) = payload := by
  rw [transform, transform, mapIdx_mapIdx]
  apply ext_getElem
  · simp
  · intro i h₁ h₂
    rw [getElem_mapIdx, Function.comp_apply, UInt8.xor_assoc, UInt8.xor_self, UInt8.xor_zero]

theorem splitExact_append {d : List UInt8} (h : d.length = n) (l : List UInt8) :
    splitExact n (d ++ l) = some (d, l) := by
  subst h
  simp [splitExact]

theorem decodeLength_append (hn : n < 2 ^ 63) (l : List UInt8) :
    decodeLength (lengthCode n) (extendedLength n ++ l) = some (n, l) := by
  unfold decodeLength lengthCode extendedLength
  by_cases h₁ : n < 126
  · simp [h₁]
  · by_cases h₂ : n < 65536
    · have hvalue := ofLeBytes_leBytes 2 n
      simp [h₁, h₂, splitExact_append (n := 2), hvalue]
    · have hvalue := ofLeBytes_leBytes 8 n
      rw [Nat.mod_eq_of_lt (by omega)] at hvalue
      simp [h₁, h₂, splitExact_append (n := 8), hvalue]

theorem decodePayload_append (maskKey : Option (Fin 4 → UInt8)) (payload l : List UInt8) :
    decodePayload maskKey.isSome payload.length (encodePayload maskKey payload ++ l) =
      some (maskKey, payload, l) := by
  cases maskKey with
  | none => simp [decodePayload, encodePayload, splitExact_append]
  | some key =>
    have hkey : (fun i : Fin 4 => (ofFn key).getD i 0) = key := by
      funext i
      fin_cases i <;> rfl
    simp only [decodePayload, encodePayload, isSome_some, if_true, append_assoc]
    rw [splitExact_append (by simp)]
    simp only [bind_eq_bind, bind_some]
    rw [splitExact_append (by simp)]
    simp only [bind_some, hkey, transform_transform]
    rfl

theorem toNat_flagged (b : Bool) (hn : n < 128) :
    (UInt8.ofNat (b.toNat * 128 + n)).toNat = b.toNat * 128 + n := by
  apply UInt8.toNat_ofNat_of_lt'
  have := Bool.toNat_le b
  rw [UInt8.size]
  omega

theorem flag_of_flagged (b : Bool) (hn : n < 128) :
    decide (128 ≤ b.toNat * 128 + n) = b := by
  cases b <;> simp [hn]

theorem lengthCode_lt (n : ℕ) : lengthCode n < 128 := by
  unfold lengthCode
  split
  · omega
  · split <;> norm_num

theorem decode_encode {f : WSFrame} (hf : f.payload.length < 2 ^ 63) (rest : List UInt8) :
    decode (f.encode ++ rest) = some (f, rest) := by
  obtain ⟨fin, opcode, maskKey, payload⟩ := f
  have hcode := lengthCode_lt payload.length
  have hrsv : (fin.toNat * 128 + opcode.toNat) / 16 % 8 = 0 := by omega
  have hopcode : BitVec.ofNat 4 (fin.toNat * 128 + opcode.toNat) = opcode := by
    apply BitVec.eq_of_toNat_eq
    rw [BitVec.toNat_ofNat]
    omega
  have hlow : (maskKey.isSome.toNat * 128 + lengthCode payload.length) % 128 =
      lengthCode payload.length := by
    omega
  have hlength := decodeLength_append hf (encodePayload maskKey payload ++ rest)
  have hpayload := decodePayload_append maskKey payload rest
  simp only [encode, cons_append, nil_append, append_assoc, decode,
    toNat_flagged _ (by omega : opcode.toNat < 128), toNat_flagged _ hcode, hrsv, hlow, hlength,
    hpayload, flag_of_flagged _ (by omega : opcode.toNat < 128), flag_of_flagged _ hcode, hopcode,
    ne_eq, not_true_eq_false, if_false, Option.bind_eq_bind, Option.bind_some, Option.pure_def]

end WSFrame

/-! The bytes that are sent. -/

theorem breakIf_neg {σ : Type} {c : Prop} [Decidable c] (h : ¬ c) (s : σ) :
    breakIf c s = .ok () s := by
  rw [breakIf, if_neg h, pure_run]

theorem breakIf_pos {σ : Type} {c : Prop} [Decidable c] (h : c) (s : σ) :
    breakIf c s = .raised () s := by
  rw [breakIf, if_pos h, throw_run]

variable {s : Socket}

theorem writeOrBreak_cases (d : List UInt8) (hs : s.connected = true) :
    ∃ s', s.Moved [] d s' ∧ writeOrBreak d s =
      if 0 < intOfSize d.length then .ok () s' else .raised () s' := by
  obtain ⟨s', hrun, hmoved⟩ := SocketStream.writeFixBuffer_ok d hs
  refine ⟨s', hmoved, ?_⟩
  rw [writeOrBreak, bind_ok hrun]
  split
  · rename_i hpos
    exact breakIf_neg (not_le.mpr hpos) s'
  · rename_i hneg
    exact breakIf_pos (not_lt.mp hneg) s'

theorem writeOrBreak_ok {d : List UInt8} (h0 : d ≠ []) (hd : d.length < 2 ^ 31)
    (hs : s.connected = true) : ∃ s', writeOrBreak d s = .ok () s' ∧ s.Moved [] d s' := by
  have hpos := length_pos_iff.mpr h0
  obtain ⟨s', hmoved, hrun⟩ := writeOrBreak_cases d hs
  rw [intOfSize_eq hd, if_pos (by exact_mod_cast hpos)] at hrun
  exact ⟨s', hrun, hmoved⟩

def hostLength (n : ℕ) : List UInt8 :=
  if n < 126 then [] else if n < 65536 then leBytes 2 n else leBytes 8 n

def maskOf (client : Bool) (randValue : UInt32) : Option (Fin 4 → UInt8) :=
  if client then some fun i => (leBytes 4 randValue.toNat).getD i 0 else none

def sentMessage (client : Bool) (randValue : UInt32) (msg : WSFrameMessage) : WSFrameMessage :=
  if client then { msg with data := applyMask (leBytes 4 randValue.toNat) msg.data } else msg

def sentBytes (client fin : Bool) (randValue : UInt32) (msg : WSFrameMessage) : List UInt8 :=
  (sendHead msg client fin).bytes ++ hostLength msg.data.length ++
    WSFrame.encodePayload (maskOf client randValue) msg.data

@[simp] theorem length_applyMask (mask data : List UInt8) :
    (applyMask mask data).length = data.length := by
  simp [applyMask]

@[simp] theorem length_sentMessage (client : Bool) (randValue : UInt32) (msg : WSFrameMessage) :
    (sentMessage client randValue msg).data.length = msg.data.length := by
  cases client <;> simp [sentMessage]

theorem applyMask_eq_transform (mask data : List UInt8) :
    applyMask mask data = WSFrame.transform (fun i => mask.getD i 0) data := rfl

theorem ofFn_leBytes (randValue : UInt32) :
    ofFn (fun i : Fin 4 => (leBytes 4 randValue.toNat).getD i 0) =
      leBytes 4 randValue.toNat := by
  simp [leBytes]

theorem encodePayload_maskOf (client : Bool) (randValue : UInt32) (msg : WSFrameMessage) :
    WSFrame.encodePayload (maskOf client randValue) msg.data =
      (if client then leBytes 4 randValue.toNat else []) ++
        (sentMessage client randValue msg).data := by
  cases client with
  | false => rfl
  | true =>
    simp only [maskOf, sentMessage, if_true, WSFrame.encodePayload, ofFn_leBytes,
      applyMask_eq_transform]

theorem sendHead_payload (msg : WSFrameMessage) (client fin : Bool) :
    (sendHead msg client fin).payload.toNat = WSFrame.lengthCode msg.data.length := by
  simp only [sendHead, WSFrame.lengthCode]
  split
  · rw [BitVec.toNat_ofNat]
    omega
  · split <;> rfl

theorem payload_eq_iff (msg : WSFrameMessage) (client fin : Bool) (code : BitVec 7) :
    (sendHead msg client fin).payload = code ↔
      WSFrame.lengthCode msg.data.length = code.toNat := by
  rw [← sendHead_payload msg client fin, BitVec.toNat_inj]

theorem writeLength_eq (msg : WSFrameMessage) (client fin : Bool) :
    writeLength (sendHead msg client fin) msg.data.length =
      if msg.data.length < 126 then pure () else writeOrBreak (hostLength msg.data.length) := by
  rw [writeLength, hostLength]
  simp only [payload_eq_iff, WSFrame.lengthCode, toLittleEndian]
  by_cases h₁ : msg.data.length < 126
  · have h126 : msg.data.length ≠ (126 : BitVec 7).toNat := by
      rw [show (126 : BitVec 7).toNat = 126 from rfl]
      omega
    have h127 : msg.data.length ≠ (127 : BitVec 7).toNat := by
      rw [show (127 : BitVec 7).toNat = 127 from rfl]
      omega
    simp only [h₁, if_true, h126, h127, if_false]
  · by_cases h₂ : msg.data.length < 65536
    · simp [h₁, h₂, Nat.mod_eq_of_lt h₂]
    · simp [h₁, h₂]

theorem writeLength_ok (hs : s.connected = true) (msg : WSFrameMessage)
    (client fin : Bool) : ∃ s',
      writeLength (sendHead msg client fin) msg.data.length s = .ok () s' ∧
      s.Moved [] (hostLength msg.data.length) s' := by
  rw [writeLength_eq]
  split_ifs with h₁
  · rw [hostLength, if_pos h₁]
    exact ⟨s, rfl, Socket.Moved.refl s⟩
  · have hlen : 0 < (hostLength msg.data.length).length ∧
        (hostLength msg.data.length).length < 2 ^ 31 := by
      rw [hostLength, if_neg h₁]
      split <;> simp [leBytes]
    exact writeOrBreak_ok (length_pos_iff.mp hlen.1) hlen.2 hs

theorem writeMask_ok (hs : s.connected = true) (msg : WSFrameMessage)
    (client : Bool) (randValue : UInt32) : ∃ s',
      writeMask client randValue (msg, s) = .ok () (sentMessage client randValue msg, s') ∧
      s.Moved [] (if client then leBytes 4 randValue.toNat else []) s' := by
  cases client with
  | false => exact ⟨s, rfl, Socket.Moved.refl s⟩
  | true =>
    obtain ⟨s', hrun, hmoved⟩ : ∃ s', writeOrBreak (leBytes 4 randValue.toNat) s = .ok () s' ∧
        s.Moved [] (leBytes 4 randValue.toNat) s' :=
      writeOrBreak_ok (by simp [leBytes]) (by simp [leBytes]) hs
    exact ⟨s', onSnd_ok _ hrun, hmoved⟩

theorem sendBlock_cases (hs : s.connected = true) (msg : WSFrameMessage)
    (client fin : Bool) (randValue : UInt32) :
    ∃ s', s.Moved [] (sentBytes client fin randValue msg) s' ∧
      sendBlock client fin randValue (msg, s) =
        if 0 < intOfSize msg.data.length then
          .ok (intOfSize (msg.data.length + 2)) (sentMessage client randValue msg, s')
        else .raised () (sentMessage client randValue msg, s') := by
  obtain ⟨s₁, hhead, hmoved₁⟩ : ∃ s', writeOrBreak (sendHead msg client fin).bytes s = .ok () s' ∧
      s.Moved [] (sendHead msg client fin).bytes s' :=
    writeOrBreak_ok (by simp [WSFrameHead.bytes]) (by simp [WSFrameHead.bytes]) hs
  have hs₁ := hmoved₁.connected hs
  obtain ⟨s₂, hlength, hmoved₂⟩ := writeLength_ok hs₁ msg client fin
  have hs₂ := hmoved₂.connected hs₁
  obtain ⟨s₃, hmask, hmoved₃⟩ := writeMask_ok hs₂ msg client randValue
  have hs₃ := hmoved₃.connected hs₂
  obtain ⟨s', hmoved₄, hdata⟩ := writeOrBreak_cases (sentMessage client randValue msg).data hs₃
  refine ⟨s', ?_, ?_⟩
  · rw [sentBytes, encodePayload_maskOf]
    exact (hmoved₁.trans hmoved₂).trans (hmoved₃.trans hmoved₄)
  · rw [sendBlock, bind_ok (get_run _)]
    dsimp only
    rw [bind_ok (onSnd_ok msg hhead), bind_ok (onSnd_ok msg hlength),
      bind_ok hmask, bind_ok (get_run _)]
    rw [length_sentMessage] at hdata
    split
    · rename_i hpos
      rw [if_pos hpos] at hdata
      rw [bind_ok (onSnd_ok _ hdata), pure_run]
    · rename_i hneg
      rw [if_neg hneg] at hdata
      rw [bind_raised (onSnd_raised _ hdata)]

theorem wsSendMessage_ok (hs : s.connected = true) {msg : WSFrameMessage}
    (h0 : msg.data ≠ []) (hlen : msg.data.length < 2 ^ 31) (owner client fin : Bool)
    (randValue : UInt32) : ∃ s',
      wsSendMessage owner client fin randValue (msg, s) =
        .ok (intOfSize (msg.data.length + 2)) (sentMessage client randValue msg, s') ∧
      s.Moved [] (sentBytes client fin randValue msg) s' := by
  have hpos := length_pos_iff.mpr h0
  obtain ⟨s', hmoved, hrun⟩ := sendBlock_cases hs msg client fin randValue
  rw [intOfSize_eq hlen, if_pos (by exact_mod_cast hpos)] at hrun
  exact ⟨s', tryCatch_ok hrun, hmoved⟩

/-- The stream is still open behind a send: it is closed by its owner if the size of the data is
not positive as an `int`. -/
def staysOpen (owner : Bool) (msg : WSFrameMessage) : Bool :=
  !owner || decide (0 < intOfSize msg.data.length)

theorem wsSendMessage_open (hs : s.connected = true) (msg : WSFrameMessage)
    (owner client fin : Bool) (randValue : UInt32) : ∃ s',
      wsSendMessage owner client fin randValue (msg, s) =
        .ok (if 0 < intOfSize msg.data.length then intOfSize (msg.data.length + 2) else -1)
          (sentMessage client randValue msg, s') ∧ s'.connected = staysOpen owner msg ∧
      s'.outgoing = s.outgoing ++ sentBytes client fin randValue msg := by
  obtain ⟨s', hmoved, hrun⟩ := sendBlock_cases hs msg client fin randValue
  have hs' := hmoved.connected hs
  split_ifs at hrun ⊢ with hpos
  · exact ⟨s', tryCatch_ok hrun, by simp [staysOpen, hpos, hs'], hmoved.outgoing⟩
  · rw [wsSendMessage, tryCatch_raised hrun]
    cases owner with
    | false => exact ⟨s', rfl, hs', hmoved.outgoing⟩
    | true =>
      exact ⟨{ s' with connected := false }, rfl, by simp [staysOpen, hpos], hmoved.outgoing⟩

/-- The length field reads the same in both byte orders. -/
def OrderFree (n : ℕ) : Prop :=
  n < 126 ∨ n < 65536 ∧ byteswap 2 n = n ∨ 65536 ≤ n ∧ byteswap 8 n = n

instance (n : ℕ) : Decidable (OrderFree n) := inferInstanceAs (Decidable (_ ∨ _ ∨ _))

theorem leBytes_eq_reverse_iff {k : ℕ} (hn : n < 256 ^ k) :
    leBytes k n = (leBytes k n).reverse ↔ byteswap k n = n := by
  constructor
  · intro h
    rw [byteswap, ← h, ofLeBytes_leBytes, Nat.mod_eq_of_lt hn]
  · intro h
    conv_lhs => rw [← h, leBytes_byteswap]

theorem hostLength_eq_iff (hn : n < 2 ^ 63) :
    hostLength n = WSFrame.extendedLength n ↔ OrderFree n := by
  unfold hostLength WSFrame.extendedLength OrderFree
  by_cases h₁ : n < 126
  · simp [h₁]
  · by_cases h₂ : n < 65536
    · have hswap := leBytes_eq_reverse_iff (k := 2) (n := n) (by omega)
      simp only [h₁, h₂, if_false, if_true, hswap]
      simp [h₂.not_ge]
    · have hswap := leBytes_eq_reverse_iff (k := 8) (n := n) (by omega)
      simp only [h₁, h₂, if_false, hswap]
      simp [not_lt.mp h₂]

theorem flag_byte : ∀ (fin : Bool) (opcode : BitVec 4),
    UInt8.ofBitVec (BitVec.ofBool fin ++ (BitVec.ofBool false ++ (BitVec.ofBool false ++
      (BitVec.ofBool false ++ opcode)))) = UInt8.ofNat (fin.toNat * 128 + opcode.toNat) := by
  decide +kernel

theorem length_byte : ∀ (mask : Bool) (payload : BitVec 7),
    UInt8.ofBitVec (BitVec.ofBool mask ++ payload) =
      UInt8.ofNat (mask.toNat * 128 + payload.toNat) := by
  decide +kernel

theorem bytes_sendHead (msg : WSFrameMessage) (client fin : Bool) :
    (sendHead msg client fin).bytes =
      [UInt8.ofNat (fin.toNat * 128 + (BitVec.ofInt 4 msg.opcode).toNat),
       UInt8.ofNat (client.toNat * 128 + WSFrame.lengthCode msg.data.length)] := by
  rw [← sendHead_payload msg client fin]
  simp only [WSFrameHead.bytes, length_byte]
  simp only [sendHead, WSFrameHead.zero, flag_byte]

def messageFrame (client fin : Bool) (randValue : UInt32) (opcode : BitVec 4)
    (data : List UInt8) : WSFrame :=
  ⟨fin, opcode, maskOf client randValue, data⟩

theorem sentBytes_eq_iff (client fin : Bool) (randValue : UInt32) (opcode : BitVec 4)
    {data : List UInt8} (hdata : data.length < 2 ^ 63) :
    sentBytes client fin randValue ⟨opcode.toNat, data⟩ =
      (messageFrame client fin randValue opcode data).encode ↔ OrderFree data.length := by
  have hsome : (maskOf client randValue).isSome = client := by
    cases client <;> rfl
  have hop : BitVec.ofInt 4 ((opcode.toNat : ℕ) : ℤ) = opcode := by
    rw [BitVec.ofInt_natCast, BitVec.ofNat_toNat, BitVec.setWidth_eq]
  rw [← hostLength_eq_iff hdata, sentBytes, bytes_sendHead, messageFrame, WSFrame.encode]
  rw [hsome, hop, append_left_inj, append_right_inj]

/-- What `WSSendMessage` writes is the frame of the message exactly if the length field does
not depend on the byte order; every peer decodes that frame to the message. -/
theorem wsSendMessage_writes_frame (s : Socket) (hs : s.connected = true)
    (owner client fin : Bool) (randValue : UInt32) (opcode : BitVec 4) (data : List UInt8)
    (hdata : data.length < 2 ^ 63) :
    (∀ rest, WSFrame.decode ((messageFrame client fin randValue opcode data).encode ++ rest) =
      some (messageFrame client fin randValue opcode data, rest)) ∧
    ∃ rt msg s', wsSendMessage owner client fin randValue (⟨opcode.toNat, data⟩, s) =
        .ok rt (msg, s') ∧
      (s'.outgoing = s.outgoing ++ (messageFrame client fin randValue opcode data).encode ↔
        OrderFree data.length) := by
  refine ⟨WSFrame.decode_encode hdata, ?_⟩
  obtain ⟨s', hrun, -, hout⟩ :=
    wsSendMessage_open hs ⟨opcode.toNat, data⟩ owner client fin randValue
  refine ⟨_, _, s', hrun, ?_⟩
  rw [hout, append_right_inj, sentBytes_eq_iff _ _ _ _ hdata]

theorem wsSendMessage_writes_frame_hi : ∃ rt msg s',
    wsSendMessage true false true 0 (⟨1, [104, 105]⟩, ⟨true, [], [], fun _ => 1⟩) =
      .ok rt (msg, s') ∧ s'.outgoing = [0x81, 0x02, 104, 105] := by
  obtain ⟨-, rt, msg, s', hrun, hiff⟩ := wsSendMessage_writes_frame ⟨true, [], [], fun _ => 1⟩ rfl
    true false true 0 1 [104, 105] (by simp)
  exact ⟨rt, msg, s', hrun, hiff.mpr (by decide)⟩

/-- A text of 126 bytes: the length is sent as `7e 00`, so a peer waits for 32256 bytes. -/
theorem wsSendMessage_swaps_length : ∃ rt msg s',
    wsSendMessage true false true 0
      (⟨1, replicate 126 97⟩, ⟨true, [], [], fun _ => 1⟩) = .ok rt (msg, s') ∧
    s'.outgoing = [0x81, 0x7e, 0x7e, 0x00] ++ replicate 126 97 ∧
    (messageFrame false true 0 1 (replicate 126 97)).encode =
      [0x81, 0x7e, 0x00, 0x7e] ++ replicate 126 97 ∧
    WSFrame.decode s'.outgoing = none := by
  obtain ⟨s', hrun, -, hout⟩ := wsSendMessage_open (s := ⟨true, [], [], fun _ => 1⟩) rfl
    ⟨1, replicate 126 97⟩ true false true 0
  have hbytes : s'.outgoing = [0x81, 0x7e, 0x7e, 0x00] ++ replicate 126 97 := by
    rw [hout]
    decide +kernel
  refine ⟨_, _, s', hrun, hbytes, by decide +kernel, ?_⟩
  rw [hbytes]
  decide +kernel

end JKYi.Http
