import JKYi.Http.WSLimits

/-!
# Control frames of a conforming peer

A control frame may have a key and a payload of up to 125 bytes. `WSRecvMessage` reads only its
head, so that the next round takes what is left of the frame for a head.
-/

namespace JKYi.Http

open WSFrame Run List

namespace WSFrame

def head (f : WSFrame) : WSFrameHead :=
  { WSFrameHead.zero with
    fin := f.fin
    opcode := f.opcode
    mask := f.maskKey.isSome
    payload := .ofNat 7 (lengthCode f.payload.length) }

def keyBytes (f : WSFrame) : List UInt8 := (f.maskKey.map ofFn).getD []

def maskedPayload (f : WSFrame) : List UInt8 :=
  (f.maskKey.map fun key => transform key f.payload).getD f.payload

theorem length_maskedPayload (f : WSFrame) : f.maskedPayload.length = f.payload.length := by
  rw [maskedPayload]
  cases f.maskKey <;> simp

def body (f : WSFrame) : List UInt8 :=
  extendedLength f.payload.length ++ (f.keyBytes ++ f.maskedPayload)

theorem toNat_head_payload (f : WSFrame) :
    f.head.payload.toNat = lengthCode f.payload.length := by
  rw [head, BitVec.toNat_ofNat]
  exact Nat.mod_eq_of_lt (lengthCode_lt _)

theorem encode_eq (f : WSFrame) : f.encode = f.head.bytes ++ f.body := by
  have hbytes : f.head.bytes = [UInt8.ofNat (f.fin.toNat * 128 + f.opcode.toNat),
      UInt8.ofNat (f.maskKey.isSome.toNat * 128 + lengthCode f.payload.length)] := by
    rw [← toNat_head_payload]
    simp only [WSFrameHead.bytes, length_byte]
    simp only [head, WSFrameHead.zero, flag_byte]
  have hpayload : encodePayload f.maskKey f.payload = f.keyBytes ++ f.maskedPayload := by
    rw [keyBytes, maskedPayload]
    cases f.maskKey <;> rfl
  rw [encode, hbytes, hpayload, body, append_assoc]

end WSFrame

def swappedLength (n : ℕ) : ℕ :=
  if n < 126 then n else if n < 65536 then byteswap 2 n else byteswap 8 n

theorem swappedLength_eq_iff (n : ℕ) : swappedLength n = n ↔ OrderFree n := by
  unfold swappedLength OrderFree
  by_cases h₁ : n < 126
  · simp [h₁]
  · by_cases h₂ : n < 65536
    · simp [h₁, h₂]
    · simp [h₁, h₂, not_lt.mp h₂]

section

variable {f : WSFrame}

theorem takes_readLength_peer : Takes (readLength f.head) (swappedLength f.payload.length)
    (extendedLength f.payload.length) [] := by
  have hsize (k : ℕ) : (leBytes k f.payload.length).reverse.length = k := by
    rw [length_reverse, length_leBytes]
  have hread := takes_readLength_field f.toNat_head_payload hsize
  rwa [swappedLength, extendedLength, byteswap, byteswap]

theorem takes_readMask_peer : ∃ key, Takes (readMask f.head) key f.keyBytes [] ∧
    (if f.head.mask then applyMask key f.maskedPayload else f.maskedPayload) = f.payload := by
  have hmask : f.head.mask = f.maskKey.isSome := rfl
  rw [readMask, hmask, keyBytes, maskedPayload]
  cases f.maskKey with
  | none => exact ⟨[0, 0, 0, 0], takes_pure _, rfl⟩
  | some key =>
    have hread : Takes (readOrBreak (ofFn key).length) (ofFn key) (ofFn key) [] :=
      takes_readOrBreak (by simp) (by simp)
    refine ⟨_, hread, ?_⟩
    have hkey : (fun i : Fin 4 => (ofFn key).getD i 0) = key := by
      funext i
      fin_cases i <;> rfl
    change applyMask (ofFn key) (WSFrame.transform key f.payload) = f.payload
    rw [applyMask_eq_transform, hkey, transform_transform]

end

/-! Frames with data. -/

variable {opcode : WSOpcode}

section

variable {client : Bool} {maxSize : ℕ} {a : Assembly} {f : WSFrame}

/-- The conditions under which a frame with data is added to `n` bytes. -/
structure Taken (client : Bool) (maxSize n : ℕ) (mask : Bool) (data : List UInt8) : Prop where
  nonempty : data ≠ []
  orderFree : OrderFree data.length
  masked : client = false → mask = true
  below : n + data.length < maxSize
  count : n < 2 ^ 31 ∧ data.length < 2 ^ 31
  index : mask = true → n + data.length ≤ 2 ^ 31

theorem Taken.counted {mask : Bool} {data : List UInt8} (opcode : WSOpcode)
    (h : Taken client maxSize a.data.length mask data) :
    Counted maxSize (a.collect opcode data) := by
  refine ⟨?_, .inr ?_⟩
  · rw [Assembly.collect, length_append]
  · rw [Assembly.collect, length_append]
    exact h.below

theorem takes_recvData_peer (hop : f.opcode = opcode.code)
    (ha : Counted maxSize a)
    (h : Taken client maxSize a.data.length f.maskKey.isSome f.payload) :
    Takes (recvData client maxSize f.head a) (a.collect opcode f.payload) f.body [] := by
  obtain ⟨h0, horder, hmasked, hbelow, ⟨hn, hlen⟩, hindex⟩ := h
  have hcur : a.curLen = a.data.length := by rw [ha.curLen, intOfSize_eq hn]
  have hlength : Takes (readLength f.head) f.payload.length
      (extendedLength f.payload.length) [] := by
    have hread := takes_readLength_peer (f := f)
    rwa [(swappedLength_eq_iff _).mpr horder] at hread
  obtain ⟨key, hkey, hunmask⟩ := takes_readMask_peer (f := f)
  rw [WSFrame.body]
  exact takes_recvData_of hcur h0 f.length_maskedPayload hlen hn hbelow hmasked hindex hop hlength
    hkey hunmask

theorem taken_of_recvData {a' : Assembly} {s s' : Socket} {rest : List UInt8}
    (hmax : maxSize < 2 ^ 32) (ha : Counted maxSize a) (hs : s.connected = true)
    (hin : s.incoming = f.body ++ rest) (h : recvData client maxSize f.head a s = .ok a' s')
    (hrest : s'.incoming = rest) :
    Taken client maxSize a.data.length f.maskKey.isSome f.payload := by
  obtain ⟨length, s₁, mask, s₂, d, hmasked, hlength, hmask, hd, hcur, hbelow, hindex, -, -⟩ :=
    recvData_inv hmax ha h
  rw [WSFrame.body, append_assoc, append_assoc] at hin
  obtain ⟨t₁, hlength', hs₁, hin₁, -⟩ := takes_readLength_peer.run hs hin
  cases hlength'.symm.trans hlength
  obtain ⟨key, hkey, -⟩ := takes_readMask_peer (f := f)
  obtain ⟨t₂, hkey', -, hin₂, -⟩ := hkey.run hs₁ hin₁
  cases hkey'.symm.trans hmask
  obtain ⟨hpos, hle, -, hdrop⟩ := readOrBreak_inv hd
  -- what is left has the length of `rest`, so that the declared length was the right one
  have hswap : swappedLength f.payload.length = f.payload.length := by
    have hcount := congrArg length (hdrop.symm.trans hrest)
    rw [length_drop, hin₂, length_append, f.length_maskedPayload] at hcount
    rw [hin₂, length_append, f.length_maskedPayload] at hle
    omega
  rw [hswap] at hpos hbelow hindex
  have hlen : f.payload.length < 2 ^ 31 := by
    by_contra hlarge
    rw [intOfSize_high (not_lt.mp hlarge) (by omega)] at hpos
    omega
  have hn : a.data.length < 2 ^ 31 := by
    by_contra hlarge
    have hcount := ha.curLen
    rw [intOfSize_high (not_lt.mp hlarge) (by omega), hcur] at hcount
    omega
  refine ⟨?_, (swappedLength_eq_iff _).mp hswap, hmasked, hbelow, ⟨hn, hlen⟩, hindex⟩
  rintro h0
  rw [h0, length_nil, intOfSize_eq (by simp)] at hpos
  exact absurd hpos (lt_irrefl _)

end

/-! Control frames. -/

/-- A control frame as the format allows it. -/
structure ControlFrame where
  opcode : WSOpcode
  maskKey : Option (Fin 4 → UInt8)
  payload : List UInt8
  control : opcode = .close ∨ opcode = .ping ∨ opcode = .pong
  short : payload.length ≤ 125

namespace ControlFrame

variable (c : ControlFrame)

def frame : WSFrame := ⟨true, c.opcode.code, c.maskKey, c.payload⟩

/-- The frame is its head. -/
def Bare : Prop := c.maskKey = none ∧ c.payload = []

def answer : List UInt8 := if c.opcode = .ping then (controlHead .pong).bytes else []

theorem body_eq_nil_iff : c.frame.body = [] ↔ c.Bare := by
  obtain ⟨opcode, maskKey, payload, hc, hshort⟩ := c
  have hlength : extendedLength payload.length = [] := by
    rw [extendedLength, if_pos (by omega)]
  simp only [frame, Bare, WSFrame.body, hlength, keyBytes, maskedPayload]
  cases maskKey <;> simp

theorem takes_recvFrame (owner client : Bool) (maxSize : ℕ) (a : Assembly) :
    Takes (recvFrame owner client maxSize c.frame.head a) none [] c.answer :=
  takes_recvFrame_control rfl c.control a

end ControlFrame

/-! Streams of frames. -/

def recvRounds (owner client : Bool) (maxSize : ℕ) : ℕ → Assembly → Run Unit Socket Assembly
  | 0, a => pure a
  | n + 1, a => do
    let head ← readHead
    let r ← recvFrame owner client maxSize head a
    recvRounds owner client maxSize n (r.getD a)

/-- Every round begins where a frame begins. -/
def InStep (owner client : Bool) (maxSize : ℕ) (frames : List WSFrame) (rest : List UInt8)
    (a : Assembly) (s : Socket) : Prop :=
  ∀ k < frames.length, ∃ a' s', recvRounds owner client maxSize k a s = .ok a' s' ∧
    s'.incoming = (frames.drop k).flatMap WSFrame.encode ++ rest

/-- The frames are read one by one, and the loop ends behind them with the message. -/
def Delivers (owner client : Bool) (maxSize rounds : ℕ) (frames : List WSFrame)
    (rest : List UInt8) (msg : WSFrameMessage) (a : Assembly) (s : Socket) : Prop :=
  InStep owner client maxSize frames rest a s ∧
    ∃ s', recvLoop owner client maxSize rounds a s = .ok msg s' ∧ s'.incoming = rest

section

variable {owner client : Bool} {maxSize rounds : ℕ} {a : Assembly} {s s₁ s₂ : Socket}
  {f : WSFrame} {frames : List WSFrame} {rest : List UInt8} {msg : WSFrameMessage}
  {head : WSFrameHead} {r : Option Assembly}

theorem InStep.incoming (h : InStep owner client maxSize frames rest a s) (hne : frames ≠ []) :
    s.incoming = frames.flatMap WSFrame.encode ++ rest := by
  obtain ⟨a', s', hrun, hin⟩ := h 0 (length_pos_iff.mpr hne)
  cases hrun
  exact hin

theorem recvRounds_succ (hhead : readHead s = .ok head s₁)
    (hframe : recvFrame owner client maxSize head a s₁ = .ok r s₂) (n : ℕ) :
    recvRounds owner client maxSize (n + 1) a s =
      recvRounds owner client maxSize n (r.getD a) s₂ := by
  rw [recvRounds, bind_ok hhead, bind_ok hframe]

theorem readHead_frame (hs : s.connected = true) {w : List UInt8}
    (hin : s.incoming = f.encode ++ w) :
    ∃ s₁, readHead s = .ok f.head s₁ ∧ s₁.connected = true ∧ s₁.incoming = f.body ++ w := by
  rw [f.encode_eq, append_assoc] at hin
  obtain ⟨s₁, hhead, hs₁, hin₁, -⟩ := (takes_readHead f.head).run hs hin
  exact ⟨s₁, hhead, hs₁, hin₁⟩

theorem incoming_cons (hin : s.incoming = (f :: frames).flatMap WSFrame.encode ++ rest) :
    s.incoming = f.encode ++ (frames.flatMap WSFrame.encode ++ rest) := by
  rw [hin, flatMap_cons, append_assoc]

theorem inStep_cons (hhead : readHead s = .ok head s₁)
    (hframe : recvFrame owner client maxSize head a s₁ = .ok r s₂) :
    InStep owner client maxSize (f :: frames) rest a s ↔
      s.incoming = (f :: frames).flatMap WSFrame.encode ++ rest ∧
        InStep owner client maxSize frames rest (r.getD a) s₂ := by
  constructor
  · intro h
    refine ⟨h.incoming (cons_ne_nil _ _), fun k hk => ?_⟩
    obtain ⟨a', s', hrun, hin⟩ := h (k + 1) (Nat.succ_lt_succ hk)
    exact ⟨a', s', (recvRounds_succ hhead hframe k).symm.trans hrun, hin⟩
  · rintro ⟨hin, h⟩ k hk
    cases k with
    | zero => exact ⟨a, s, rfl, hin⟩
    | succ k =>
      obtain ⟨a', s', hrun, hin'⟩ := h k (Nat.lt_of_succ_lt_succ hk)
      exact ⟨a', s', (recvRounds_succ hhead hframe k).trans hrun, hin'⟩

theorem InStep.round (h : InStep owner client maxSize (f :: frames) rest a s) (hne : frames ≠ []) :
    ∃ head s₁ r s₂, readHead s = .ok head s₁ ∧
      recvFrame owner client maxSize head a s₁ = .ok r s₂ := by
  have hpos := length_pos_iff.mpr hne
  obtain ⟨a', s', hrun, -⟩ := h 1 (by rw [length_cons]; omega)
  obtain ⟨head, s₁, hhead, hrest⟩ := bind_eq_ok_iff.mp hrun
  obtain ⟨r, s₂, hframe, -⟩ := bind_eq_ok_iff.mp hrest
  exact ⟨head, s₁, r, s₂, hhead, hframe⟩

theorem delivers_step (hin : s.incoming = (f :: frames).flatMap WSFrame.encode ++ rest)
    (hhead : readHead s = .ok head s₁)
    (hframe : recvFrame owner client maxSize head a s₁ = .ok r s₂)
    (hgo : r = none ∨ head.fin = false) :
    Delivers owner client maxSize (rounds + 1) (f :: frames) rest msg a s ↔
      Delivers owner client maxSize rounds frames rest msg (r.getD a) s₂ := by
  have hstep : RecvStep owner client maxSize (a, s) head (r.getD a, s₂) := by
    refine ⟨s₁, r, hhead, hframe, ?_⟩
    cases r with
    | none => exact .inl ⟨rfl, rfl⟩
    | some a' => exact .inr ⟨rfl, hgo.resolve_left (Option.some_ne_none a')⟩
  rw [Delivers, Delivers, inStep_cons hhead hframe, hstep.recvLoop]
  simp only [hin, true_and]

/-- Control frames are passed exactly if they end with their heads. -/
theorem delivers_controls {Q : Prop} (hne : frames ≠ [])
    (h : ∀ s, s.connected = true → s.incoming = frames.flatMap WSFrame.encode ++ rest →
      (Delivers owner client maxSize rounds frames rest msg a s ↔ Q)) (cs : List ControlFrame) :
    ∀ s, s.connected = true →
      s.incoming = (cs.map ControlFrame.frame ++ frames).flatMap WSFrame.encode ++ rest →
      (Delivers owner client maxSize (rounds + cs.length) (cs.map ControlFrame.frame ++ frames)
        rest msg a s ↔ (∀ c ∈ cs, c.Bare) ∧ Q) := by
  induction cs with
  | nil =>
    intro s hs hin
    rw [map_nil, nil_append, length_nil, Nat.add_zero, h s hs hin]
    simp
  | cons c cs ih =>
    intro s hs hin
    rw [map_cons, cons_append] at hin ⊢
    obtain ⟨s₁, hhead, hs₁, hin₁⟩ := readHead_frame hs (incoming_cons hin)
    obtain ⟨s₂, hframe, hs₂, hin₂, -⟩ :=
      (c.takes_recvFrame owner client maxSize a).run hs₁ (hin₁.trans (nil_append _).symm)
    have hmore : cs.map ControlFrame.frame ++ frames ≠ [] :=
      append_ne_nil_of_right_ne_nil _ hne
    rw [length_cons, ← Nat.add_assoc, delivers_step hin hhead hframe (.inl rfl),
      Option.getD_none, forall_mem_cons, and_assoc]
    constructor
    · intro hd
      have hbody : c.frame.body = [] := by
        have hcancel := hin₂.symm.trans (hd.1.incoming hmore)
        exact append_left_eq_self.mp hcancel
      rw [hbody, nil_append] at hin₂
      exact ⟨c.body_eq_nil_iff.mp hbody, (ih s₂ hs₂ hin₂).mp hd⟩
    · rintro ⟨hbare, hrest⟩
      rw [c.body_eq_nil_iff.mpr hbare, nil_append] at hin₂
      exact (ih s₂ hs₂ hin₂).mpr hrest

theorem delivers_data {Q : Prop} (hmax : maxSize < 2 ^ 32)
    (hf : f.opcode = opcode.code)
    (hop : opcode = .cont ∨ opcode = .textFrame ∨ opcode = .binFrame) (hfin : f.fin = false)
    (hne : frames ≠ []) (ha : Counted maxSize a) (hs : s.connected = true)
    (hin : s.incoming = (f :: frames).flatMap WSFrame.encode ++ rest)
    (h : Taken client maxSize a.data.length f.maskKey.isSome f.payload → ∀ s,
      s.connected = true → s.incoming = frames.flatMap WSFrame.encode ++ rest →
      (Delivers owner client maxSize rounds frames rest msg (a.collect opcode f.payload) s ↔ Q)) :
    Delivers owner client maxSize (rounds + 1) (f :: frames) rest msg a s ↔
      Taken client maxSize a.data.length f.maskKey.isSome f.payload ∧ Q := by
  obtain ⟨s₁, hhead, hs₁, hin₁⟩ := readHead_frame hs (incoming_cons hin)
  have hdata : recvFrame owner client maxSize f.head a = _ := recvFrame_data hf hop
  have hforward (ht : Taken client maxSize a.data.length f.maskKey.isSome f.payload) :
      Delivers owner client maxSize (rounds + 1) (f :: frames) rest msg a s ↔ Q := by
    obtain ⟨s₂, hrun, hs₂, hin₂, -⟩ := (takes_recvData_peer hf ha ht).run hs₁ hin₁
    have hframe : recvFrame owner client maxSize f.head a s₁ =
        .ok (some (a.collect opcode f.payload)) s₂ := by
      rw [hdata]
      exact bind_ok hrun
    rw [delivers_step hin hhead hframe (.inr hfin)]
    exact h ht s₂ hs₂ hin₂
  constructor
  · intro hd
    obtain ⟨head, t₁, r, s₂, hhead', hframe⟩ := hd.1.round hne
    cases hhead.symm.trans hhead'
    have hd' := (inStep_cons hhead hframe).mp hd.1
    rw [hdata] at hframe
    obtain ⟨a', t₂, hrun, hsome⟩ := bind_eq_ok_iff.mp hframe
    cases hsome
    have ht := taken_of_recvData hmax ha hs₁ hin₁ hrun (hd'.2.incoming hne)
    exact ⟨ht, (hforward ht).mp hd⟩
  · rintro ⟨ht, hq⟩
    exact (hforward ht).mpr hq

theorem delivers_last (hmax : maxSize < 2 ^ 32) (hf : f.opcode = opcode.code)
    (hop : opcode = .cont ∨ opcode = .textFrame ∨ opcode = .binFrame) (hfin : f.fin = true)
    (ha : Counted maxSize a) (hs : s.connected = true) (hin : s.incoming = f.encode ++ rest) :
    Delivers owner client maxSize (rounds + 1) [f] rest
        ⟨(a.extend opcode []).opcode, a.data ++ f.payload⟩ a s ↔
      Taken client maxSize a.data.length f.maskKey.isSome f.payload := by
  obtain ⟨s₁, hhead, hs₁, hin₁⟩ := readHead_frame hs hin
  have hdata : recvFrame owner client maxSize f.head a = _ := recvFrame_data hf hop
  have hloop : recvLoop owner client maxSize (rounds + 1) a s = (do
      let a ← recvData client maxSize f.head a
      pure ⟨a.opcode, a.data⟩ : Run Unit Socket WSFrameMessage) s₁ := by
    have hfin' : f.head.fin = true := hfin
    rw [recvLoop, bind_ok hhead, hdata, bind_assoc]
    simp only [hfin', if_true]
    rfl
  constructor
  · rintro ⟨-, s', hrun, hrest⟩
    rw [hloop] at hrun
    obtain ⟨a', t, hrun', hmsg⟩ := bind_eq_ok_iff.mp hrun
    obtain ⟨-, rfl⟩ := Outcome.ok.inj hmsg
    exact taken_of_recvData hmax ha hs₁ hin₁ hrun' hrest
  · intro ht
    obtain ⟨s₂, hrun, -, hin₂, -⟩ := (takes_recvData_peer hf ha ht).run hs₁ hin₁
    refine ⟨?_, s₂, hloop.trans (bind_ok hrun), hin₂⟩
    intro k hk
    obtain rfl : k = 0 := by simpa using hk
    exact ⟨a, s, rfl, by simpa using hin⟩

end

/-- A frame with data, and the control frames that are sent before it. -/
structure PeerFragment where
  controls : List ControlFrame
  maskKey : Option (Fin 4 → UInt8)
  data : List UInt8

/-- A message in fragments: the first one has `opcode` and the others `CONTINUE`, the last one
has `fin`. -/
def peerFrames : WSOpcode → List PeerFragment → List WSFrame
  | _, [] => []
  | opcode, f :: fs =>
    f.controls.map ControlFrame.frame ++
      ⟨fs.isEmpty, opcode.code, f.maskKey, f.data⟩ :: peerFrames .cont fs

/-- Every frame with data is added to those before it, and to `n` bytes. -/
def AllTaken (client : Bool) (maxSize : ℕ) : ℕ → List PeerFragment → Prop
  | _, [] => True
  | n, f :: fs => Taken client maxSize n f.maskKey.isSome f.data ∧
    AllTaken client maxSize (n + f.data.length) fs

theorem peerFrames_ne_nil {fs : List PeerFragment} (h : fs ≠ []) :
    peerFrames opcode fs ≠ [] := by
  cases fs with
  | nil => exact absurd rfl h
  | cons f fs => simp [peerFrames]

theorem delivers_iff (owner client : Bool) {maxSize : ℕ} {rest : List UInt8}
    (hmax : maxSize < 2 ^ 32) {fs : List PeerFragment} :
    ∀ (opcode : WSOpcode) (a : Assembly) (rounds : ℕ) (s : Socket), fs ≠ [] →
    (opcode = .cont ∨ opcode = .textFrame ∨ opcode = .binFrame) → Counted maxSize a →
    s.connected = true → s.incoming = (peerFrames opcode fs).flatMap WSFrame.encode ++ rest →
    (peerFrames opcode fs).length ≤ rounds →
    (Delivers owner client maxSize rounds (peerFrames opcode fs) rest
        ⟨(a.extend opcode []).opcode, a.data ++ fs.flatMap PeerFragment.data⟩ a s ↔
      (∀ f ∈ fs, ∀ c ∈ f.controls, c.Bare) ∧ AllTaken client maxSize a.data.length fs) := by
  induction fs with
  | nil =>
    intro opcode a rounds s hne
    exact absurd rfl hne
  | cons f fs ih =>
    intro opcode a rounds s _ hop ha hs hin hrounds
    rw [peerFrames, length_append, length_map, length_cons] at hrounds
    obtain ⟨k, rfl⟩ : ∃ k, rounds = k + 1 + f.controls.length :=
      ⟨rounds - 1 - f.controls.length, by omega⟩
    rw [AllTaken, forall_mem_cons, and_assoc, and_left_comm (a := ∀ f ∈ fs, _)]
    refine delivers_controls (cons_ne_nil _ _) ?_ f.controls s hs hin
    intro s hs hin
    cases fs with
    | nil =>
      have hlast : Delivers owner client maxSize (k + 1) [⟨true, opcode.code, f.maskKey, f.data⟩]
          rest ⟨(a.extend opcode []).opcode, a.data ++ f.data⟩ a s ↔
          Taken client maxSize a.data.length f.maskKey.isSome f.data :=
        delivers_last hmax rfl hop rfl ha hs (by simpa [peerFrames] using hin)
      simpa [peerFrames, AllTaken] using hlast
    | cons g gs =>
      refine delivers_data hmax rfl hop rfl (peerFrames_ne_nil (by simp)) ha hs hin ?_
      intro ht s hs hin
      have hlater := ih .cont (a.collect opcode f.data) k s (by simp) (.inl rfl)
        (ht.counted opcode) hs hin (by omega)
      simpa [Assembly.collect, Assembly.extend] using hlater

theorem length_le_encode (frames : List WSFrame) :
    frames.length ≤ (frames.flatMap WSFrame.encode).length := by
  induction frames with
  | nil => exact Nat.zero_le _
  | cons f frames ih =>
    rw [flatMap_cons, length_append, length_cons, f.encode_eq, length_append,
      WSFrameHead.bytes, length_cons]
    omega

/-- A call reads a message of a conforming peer frame by frame and returns it, exactly if no
control frame has a key or a payload and every frame with data can be added. -/
theorem control_frames_consumed_iff (owner client : Bool) (maxSize : UInt32) (opcode : WSOpcode)
    (hop : opcode = .textFrame ∨ opcode = .binFrame) (fs : List PeerFragment) (hne : fs ≠ [])
    (s : Socket) (hs : s.connected = true) (rest : List UInt8)
    (hin : s.incoming = (peerFrames opcode fs).flatMap WSFrame.encode ++ rest) :
    (InStep owner client maxSize.toNat (peerFrames opcode fs) rest ⟨0, [], 0⟩ s ∧
      ∃ s', wsRecvMessage owner client maxSize.toNat s =
          .ok (some ⟨opcode.code.toNat, fs.flatMap PeerFragment.data⟩) s' ∧ s'.incoming = rest) ↔
      (∀ f ∈ fs, ∀ c ∈ f.controls, c.Bare) ∧ AllTaken client maxSize.toNat 0 fs := by
  have hcount : (peerFrames opcode fs).length ≤ s.incoming.length + 1 := by
    have := length_le_encode (peerFrames opcode fs)
    rw [hin, length_append]
    omega
  have hstart : Counted maxSize.toNat ⟨0, [], 0⟩ := ⟨(intOfSize_eq (by simp)).symm, .inl rfl⟩
  have hcode : (Assembly.extend ⟨0, [], 0⟩ opcode []).opcode = opcode.code.toNat := by
    rcases hop with rfl | rfl <;> rfl
  have hdelivers := delivers_iff owner client maxSize.toNat_lt opcode ⟨0, [], 0⟩
    (s.incoming.length + 1) s hne (.inr hop) hstart hs hin hcount
  rw [hcode, nil_append] at hdelivers
  simp only [wsRecvMessage_eq_some_iff]
  exact hdelivers

theorem control_frames_consumed_bare : ∃ s',
    wsRecvMessage true true 100 ⟨true, [0x8a, 0, 0x81, 2, 104, 105], [], fun _ => 1⟩ =
      .ok (some ⟨1, [104, 105]⟩) s' ∧ s'.incoming = [] := by
  have htaken : AllTaken true 100 0 [⟨[⟨.pong, none, [], by simp, by simp⟩], none, [104, 105]⟩] :=
    ⟨⟨by simp, .inl (by simp), by simp, by simp, by simp, by simp⟩, trivial⟩
  exact ((control_frames_consumed_iff true true 100 .textFrame (.inl rfl)
    [⟨[⟨.pong, none, [], by simp, by simp⟩], none, [104, 105]⟩] (by simp)
    ⟨true, [0x8a, 0, 0x81, 2, 104, 105], [], fun _ => 1⟩ rfl [] rfl).mpr
    ⟨by simp [ControlFrame.Bare], htaken⟩).2

def pingKey : Fin 4 → UInt8 := fun i => [0x37, 0xfa, 0x21, 0x3d].getD i 0

/-- A client sends a ping with a key, as it has to, and a text behind it. The first half of the
key is taken for a frame with an unknown opcode, the second half for a text without a mask. -/
theorem masked_ping_breaks : ∃ bytes s',
    (peerFrames .textFrame [⟨[⟨.ping, some pingKey, [], by simp, by simp⟩], some pingKey,
      [104, 105]⟩]).flatMap WSFrame.encode = bytes ∧
    wsRecvMessage true false 100 ⟨true, bytes, [], fun _ => 1⟩ = .ok none s' := by
  have hread : ∃ s', wsRecvMessage true false 100 ⟨true, [0x89, 0x80, 0x37, 0xfa, 0x21, 0x3d, 0x81,
      0x82, 0x37, 0xfa, 0x21, 0x3d, 0x5f, 0x93], [], fun _ => 1⟩ = .ok none s' := by
    decide +kernel
  obtain ⟨s', hrun⟩ := hread
  exact ⟨_, s', by decide, hrun⟩

end JKYi.Http
