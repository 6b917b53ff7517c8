import Mathlib.Data.LawfulXor.Basic
import JKYi.Http.WSRecv

/-!
# Sending a message more than once

`WSSendMessage` masks the data of the message in place. The next send of the same object starts
from the masked data, and its receiver gets that.
-/

namespace JKYi.Http

open List Run

/-- `WSSendMessage(stream, msg, true, fin)` with the same message, once for each `rand_value`. -/
def sendRepeatedly (owner fin : Bool) : List UInt32 → Run Unit (WSFrameMessage × Socket) Unit
  | [] => pure ()
  | r :: rs => do
    discard (wsSendMessage owner true fin r)
    sendRepeatedly owner fin rs

/-- `WSRecvMessage(stream, client)`, called `n` times. -/
def recvRepeatedly (owner client : Bool) (maxSize : ℕ) :
    ℕ → Run Unit Socket (List (Option WSFrameMessage))
  | 0 => pure []
  | n + 1 => do
    let msg ← wsRecvMessage owner client maxSize
    let msgs ← recvRepeatedly owner client maxSize n
    pure (msg :: msgs)

/-- The bytes of `rand_value` that meet a byte of the data are zero. -/
def Vanishes (r : UInt32) (length : ℕ) : Prop :=
  ∀ i < 4, i < length → (leBytes 4 r.toNat).getD i 0 = 0

instance (r : UInt32) (length : ℕ) : Decidable (Vanishes r length) :=
  inferInstanceAs (Decidable (∀ i < 4, _))

section

variable {mask data : List UInt8}

theorem applyMask_eq_self_iff :
    applyMask mask data = data ↔ ∀ i < data.length, mask.getD (i % 4) 0 = 0 := by
  constructor
  · intro h i hi
    have hbyte : (applyMask mask data)[i]? = data[i]? := by rw [h]
    rw [applyMask, getElem?_mapIdx, getElem?_eq_getElem hi, Option.map_some,
      Option.some_inj] at hbyte
    exact xor_left_eq_self_iff.mp hbyte
  · intro h
    apply ext_getElem
    · simp
    · intro i h₁ h₂
      simp only [applyMask, getElem_mapIdx]
      exact xor_left_eq_self_iff.mpr (h i h₂)

theorem sentMessage_eq_self_iff {r : UInt32} {msg : WSFrameMessage} :
    sentMessage true r msg = msg ↔ Vanishes r msg.data.length := by
  obtain ⟨opcode, data⟩ := msg
  have hdata : sentMessage true r ⟨opcode, data⟩ = ⟨opcode, data⟩ ↔
      applyMask (leBytes 4 r.toNat) data = data := by
    simp [sentMessage]
  rw [hdata, applyMask_eq_self_iff]
  constructor
  · intro h i hi hlen
    have := h i hlen
    rwa [Nat.mod_eq_of_lt hi] at this
  · intro h i hi
    exact h (i % 4) (Nat.mod_lt _ (by simp)) (lt_of_le_of_lt (Nat.mod_le _ _) hi)

end

section

variable {owner fin : Bool} {msg : WSFrameMessage} {s : Socket} {r : UInt32} {rs : List UInt32}

theorem wsSendMessage_closed (hs : s.connected = false) (owner fin : Bool) (msg : WSFrameMessage)
    (r : UInt32) : ∃ s', wsSendMessage owner true fin r (msg, s) = .ok (-1) (msg, s') ∧
      s'.connected = false := by
  have hwrite : writeOrBreak (sendHead msg true fin).bytes s = .raised () s := by
    rw [writeOrBreak, bind_ok (SocketStream.writeFixBuffer_closed hs (by simp [WSFrameHead.bytes]))]
    exact breakIf_pos (by simp) s
  have hblock : sendBlock true fin r (msg, s) = .raised () (msg, s) := by
    rw [sendBlock, bind_ok (get_run _)]
    exact bind_raised (onSnd_raised msg hwrite)
  rw [wsSendMessage, tryCatch_raised hblock]
  cases owner with
  | false => exact ⟨s, rfl, hs⟩
  | true => exact ⟨{ s with connected := false }, rfl, rfl⟩

/-- However often the message has been sent, it is what it was. -/
def LeavesUnchanged (owner fin : Bool) (msg : WSFrameMessage) (s : Socket) (rs : List UInt32) :
    Prop :=
  ∀ rs', rs' <+: rs → ∃ s', sendRepeatedly owner fin rs' (msg, s) = .ok () (msg, s')

theorem leavesUnchanged_nil : LeavesUnchanged owner fin msg s [] := by
  intro rs' h
  rw [prefix_nil.mp h]
  exact ⟨s, rfl⟩

theorem leavesUnchanged_cons {rt : ℤ} {msg' : WSFrameMessage} {s' : Socket}
    (hsend : wsSendMessage owner true fin r (msg, s) = .ok rt (msg', s')) :
    LeavesUnchanged owner fin msg s (r :: rs) ↔
      msg' = msg ∧ LeavesUnchanged owner fin msg s' rs := by
  have hrun (rs' : List UInt32) : sendRepeatedly owner fin (r :: rs') (msg, s) =
      sendRepeatedly owner fin rs' (msg', s') :=
    bind_ok (discard_ok hsend)
  constructor
  · intro h
    obtain ⟨s₁, hone⟩ := h [r] (prefix_cons_inj r |>.mpr (List.nil_prefix))
    rw [hrun] at hone
    cases hone
    refine ⟨rfl, fun rs' hrs' => ?_⟩
    obtain ⟨s₂, hmore⟩ := h (r :: rs') ((prefix_cons_inj r).mpr hrs')
    exact ⟨s₂, (hrun rs').symm.trans hmore⟩
  · rintro ⟨rfl, h⟩ rs' hrs'
    cases rs' with
    | nil => exact ⟨s, rfl⟩
    | cons r' rs' =>
      obtain ⟨rfl, hrest⟩ := cons_prefix_cons.mp hrs'
      obtain ⟨s₂, hmore⟩ := h rs' hrest
      exact ⟨s₂, (hrun rs').trans hmore⟩

def performed (owner : Bool) (msg : WSFrameMessage) (connected : Bool) (rs : List UInt32) :
    List UInt32 :=
  if connected then if staysOpen owner msg then rs else rs.take 1 else []

theorem performed_cons :
    performed owner msg true (r :: rs) = r :: performed owner msg (staysOpen owner msg) rs := by
  cases h : staysOpen owner msg <;> simp [performed, h]

theorem leavesUnchanged_iff :
    LeavesUnchanged owner fin msg s rs ↔
      ∀ r ∈ performed owner msg s.connected rs, Vanishes r msg.data.length := by
  induction rs generalizing s with
  | nil =>
    have hnone : performed owner msg s.connected [] = [] := by simp [performed]
    rw [hnone]
    simp [leavesUnchanged_nil]
  | cons r rs ih =>
    cases hs : s.connected with
    | false =>
      obtain ⟨s', hsend, hs'⟩ := wsSendMessage_closed hs owner fin msg r
      rw [leavesUnchanged_cons hsend, ih, hs']
      simp [performed]
    | true =>
      obtain ⟨s', hsend, hs', -⟩ := wsSendMessage_open hs msg owner true fin r
      rw [leavesUnchanged_cons hsend, ih, hs', performed_cons, sentMessage_eq_self_iff,
        forall_mem_cons]

def resentMessages : List UInt32 → WSFrameMessage → List WSFrameMessage
  | [], _ => []
  | r :: rs, msg => msg :: resentMessages rs (sentMessage true r msg)

def resentBytes (fin : Bool) : List UInt32 → WSFrameMessage → List UInt8
  | [], _ => []
  | r :: rs, msg => sentBytes true fin r msg ++ resentBytes fin rs (sentMessage true r msg)

theorem sendRepeatedly_outgoing (hs : s.connected = true) (hopen : staysOpen owner msg = true) :
    ∃ msg' s', sendRepeatedly owner fin rs (msg, s) = .ok () (msg', s') ∧
      s'.outgoing = s.outgoing ++ resentBytes fin rs msg := by
  induction rs generalizing msg s with
  | nil => exact ⟨msg, s, rfl, (append_nil _).symm⟩
  | cons r rs ih =>
    obtain ⟨s₁, hsend, hs₁, hout₁⟩ := wsSendMessage_open hs msg owner true fin r
    have hopen₁ : staysOpen owner (sentMessage true r msg) = true := by
      rwa [staysOpen, length_sentMessage]
    obtain ⟨msg', s', hmore, hout⟩ := ih (hs₁.trans hopen) hopen₁
    refine ⟨msg', s', (bind_ok (discard_ok hsend)).trans hmore, ?_⟩
    rw [hout, hout₁, resentBytes, append_assoc]

end

section

variable {msg : WSFrameMessage} {maxSize : ℕ} {r : UInt32} {rs : List UInt32}

/-- `WSRecvMessage` can return the message. -/
structure Receivable (maxSize : ℕ) (msg : WSFrameMessage) : Prop where
  opcode : msg.opcode = WSOpcode.textFrame.code.toNat ∨ msg.opcode = WSOpcode.binFrame.code.toNat
  nonempty : msg.data ≠ []
  below : msg.data.length < maxSize
  limit : maxSize < 2 ^ 31

theorem Receivable.sentMessage (h : Receivable maxSize msg) (r : UInt32) :
    Receivable maxSize (sentMessage true r msg) := by
  refine ⟨h.opcode, ?_, ?_, h.limit⟩
  · rw [← length_pos_iff, length_sentMessage, length_pos_iff]
    exact h.nonempty
  · rw [length_sentMessage]
    exact h.below

theorem Receivable.staysOpen (h : Receivable maxSize msg) (owner : Bool) :
    staysOpen owner msg = true := by
  have hlen := h.below.trans h.limit
  have hpos := length_pos_iff.mpr h.nonempty
  simp [Http.staysOpen, intOfSize_eq hlen, hpos]

theorem takes_wsRecvMessage_one (h : Receivable maxSize msg) (owner : Bool) (r : UInt32) :
    Takes (wsRecvMessage owner false maxSize) (some msg) (sentBytes true true r msg) [] := by
  obtain ⟨opcode, data⟩ := msg
  obtain ⟨hop, hdata, hbelow, hlimit⟩ := h
  obtain ⟨code, hcode, rfl⟩ : ∃ code : WSOpcode, (code = .textFrame ∨ code = .binFrame) ∧
      opcode = code.code.toNat := by
    rcases hop with hop | hop
    · exact ⟨.textFrame, .inl rfl, hop⟩
    · exact ⟨.binFrame, .inr rfl, hop⟩
  have hrecv : Takes (wsRecvMessage owner false maxSize) _ (wire code [⟨[], data, true, r⟩]) _ :=
    takes_wsRecvMessage hcode (by simp) (by simpa using hdata) hlimit (by simpa using hbelow)
      (by simp) owner
  simpa [wire] using hrecv

theorem takes_recvRepeatedly (h : Receivable maxSize msg) (owner : Bool) (rs : List UInt32) :
    Takes (recvRepeatedly owner false maxSize rs.length) ((resentMessages rs msg).map some)
      (resentBytes true rs msg) [] := by
  induction rs generalizing msg with
  | nil => exact takes_pure []
  | cons r rs ih =>
    have hrest := (ih (h.sentMessage r)).map fun msgs => some msg :: msgs
    exact (takes_wsRecvMessage_one h owner r).bind hrest

theorem resentMessages_eq (h : ∀ r ∈ rs, Vanishes r msg.data.length) :
    resentMessages rs msg = replicate rs.length msg := by
  induction rs with
  | nil => rfl
  | cons r rs ih =>
    obtain ⟨hr, hrs⟩ := forall_mem_cons.mp h
    rw [resentMessages, sentMessage_eq_self_iff.mpr hr, ih hrs, length_cons, replicate_succ]

end

/-- Whoever reads what the sends have written gets the same message from every call. -/
def SamePayload (owner ownerR fin : Bool) (maxSize : ℕ) (msg : WSFrameMessage) (s : Socket)
    (rs : List UInt32) : Prop :=
  ∀ (msg' : WSFrameMessage) (s' : Socket) (sent : List UInt8),
    sendRepeatedly owner fin rs (msg, s) = .ok () (msg', s') →
    s'.outgoing = s.outgoing ++ sent →
    ∀ (receiver : Socket) (rest : List UInt8), receiver.connected = true →
      receiver.incoming = sent ++ rest →
      ∃ receiver', recvRepeatedly ownerR false maxSize rs.length receiver =
        .ok (replicate rs.length (some msg)) receiver'

theorem samePayload_of_vanishes {owner ownerR : Bool} {maxSize : ℕ} {msg : WSFrameMessage}
    {s : Socket} {rs : List UInt32} (hs : s.connected = true) (hmsg : Receivable maxSize msg)
    (h : ∀ r ∈ rs, Vanishes r msg.data.length) :
    SamePayload owner ownerR true maxSize msg s rs := by
  intro msg' s' sent hsend hsent receiver rest hreceiver hin
  obtain ⟨msg₁, s₁, hsend₁, hout⟩ : ∃ msg₁ s₁, sendRepeatedly owner true rs (msg, s) =
      .ok () (msg₁, s₁) ∧ s₁.outgoing = s.outgoing ++ resentBytes true rs msg :=
    sendRepeatedly_outgoing hs (hmsg.staysOpen owner)
  cases hsend₁.symm.trans hsend
  have hbytes := append_cancel_left (hsent.symm.trans hout)
  rw [hbytes] at hin
  obtain ⟨receiver', hrecv, -⟩ := takes_recvRepeatedly hmsg ownerR rs receiver rest hreceiver hin
  rw [resentMessages_eq h, map_replicate] at hrecv
  exact ⟨receiver', hrecv⟩

/-- A message is left as it was, and received the same every time, exactly if every key that is
applied to it has zeros where the message has data. -/
theorem resend_unchanged_iff (owner ownerR fin : Bool) (maxSize : ℕ) (msg : WSFrameMessage)
    (s : Socket) (rs : List UInt32) :
    (LeavesUnchanged owner fin msg s rs ∧
      (fin = true → s.connected = true → Receivable maxSize msg →
        SamePayload owner ownerR fin maxSize msg s rs)) ↔
      ∀ r ∈ performed owner msg s.connected rs, Vanishes r msg.data.length := by
  rw [leavesUnchanged_iff]
  constructor
  · rintro ⟨h, -⟩
    exact h
  · intro h
    refine ⟨h, ?_⟩
    rintro rfl hs hmsg
    rw [hs, performed, if_pos rfl, if_pos (hmsg.staysOpen owner)] at h
    exact samePayload_of_vanishes hs hmsg h

/-- The text `h`, sent twice with the key 01 00 00 00, is `i` after the first send, and that is
what the second receiver gets. -/
theorem resend_changes_message : ∃ s' s'' receiver',
    sendRepeatedly true true [1] (⟨1, [104]⟩, ⟨true, [], [], fun _ => 1⟩) =
      .ok () (⟨1, [105]⟩, s') ∧
    sendRepeatedly true true [1, 1] (⟨1, [104]⟩, ⟨true, [], [], fun _ => 1⟩) =
      .ok () (⟨1, [104]⟩, s'') ∧
    recvRepeatedly true false 100 2 ⟨true, s''.outgoing, [], fun _ => 1⟩ =
      .ok [some ⟨1, [104]⟩, some ⟨1, [105]⟩] receiver' := by
  let sender : Socket := ⟨true, [], [], fun _ => 1⟩
  let bytes : List UInt8 := [129, 129, 1, 0, 0, 0, 105, 129, 129, 1, 0, 0, 0, 104]
  have hruns : (∃ p, sendRepeatedly true true [1] (⟨1, [104]⟩, sender) = .ok () p ∧
        p.1 = ⟨1, [105]⟩) ∧
      (∃ p, sendRepeatedly true true [1, 1] (⟨1, [104]⟩, sender) = .ok () p ∧ p.1 = ⟨1, [104]⟩ ∧
        p.2.outgoing = bytes) ∧
      ∃ receiver', recvRepeatedly true false 100 2 ⟨true, bytes, [], fun _ => 1⟩ =
        .ok [some ⟨1, [104]⟩, some ⟨1, [105]⟩] receiver' := by
    decide +kernel
  obtain ⟨⟨⟨_, s'⟩, hone, rfl⟩, ⟨⟨_, s''⟩, htwo, rfl, hsent⟩, receiver', hrecv⟩ := hruns
  exact ⟨s', s'', receiver', hone, htwo, hsent ▸ hrecv⟩

end JKYi.Http
