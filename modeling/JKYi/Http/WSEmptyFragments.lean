import JKYi.Http.WSLimits

/-!
# Messages with empty fragments

`readFixSize` and `writeFixSize` return the number of bytes they were asked for, and their callers
take a result of 0 for a failure. So the frame of an empty fragment is written, but reported as
failed, and its receiver gives the message up.
-/

namespace JKYi.Http

open List Run

variable {fs : List Fragment}

section

variable {owner client : Bool} {maxSize : ℕ} {f : Fragment} {s s' : Socket} {rest : List UInt8}

/-- A frame that is taken has a mask where one is needed, a payload, and its message is short
enough. -/
theorem accepted_of_recvData {a a' : Assembly} {opcode : WSOpcode} {fin : Bool}
    (hmax : maxSize < 2 ^ 31) (ha : Counted maxSize a) (hsize : f.data.length < 2 ^ 63)
    (hs : s.connected = true) (hin : s.incoming = hostLength f.data.length ++ rest)
    (h : recvData client maxSize (sendHead ⟨opcode.code.toNat, f.data⟩ f.masked fin) a s =
      .ok a' s') :
    f.data ≠ [] ∧ a.data.length + f.data.length < maxSize ∧
      (client = false → f.masked = true) := by
  obtain ⟨length, s₁, mask, s₂, d, hmasked, hlength, -, hd, -, hbelow, -⟩ :=
    recvData_inv (by omega) ha h
  have htakes : Takes (readLength (sendHead ⟨opcode.code.toNat, f.data⟩ f.masked fin)) _ _ _ :=
    takes_readLength hsize
  obtain ⟨t, hlength', -⟩ := htakes.run hs hin
  cases hlength'.symm.trans hlength
  refine ⟨?_, hbelow, hmasked⟩
  rintro h0
  have hpos := (readOrBreak_inv hd).1
  simp [h0, intOfSize_eq] at hpos

theorem recvLoop_controls (a : Assembly) (rounds : ℕ) (cs : List WSControl)
    (hs : s.connected = true) (hin : s.incoming = cs.flatMap WSControl.bytes ++ rest) :
    ∃ s', recvLoop owner client maxSize (rounds + cs.length) a s =
        recvLoop owner client maxSize rounds a s' ∧ s'.connected = true ∧ s'.incoming = rest := by
  induction cs generalizing s with
  | nil => exact ⟨s, rfl, hs, hin⟩
  | cons c cs ih =>
    rw [flatMap_cons, append_assoc] at hin
    obtain ⟨s₁, hhead, hs₁, hin₁, -⟩ := (takes_readHead (controlHead c.opcode)).run hs hin
    have hcontrol : Takes (recvFrame owner client maxSize _ a) _ _ _ := c.takes_recvFrame a
    obtain ⟨s₂, hframe, hs₂, hin₂, -⟩ := hcontrol.run hs₁ hin₁
    obtain ⟨s', hloop, hrest⟩ := ih hs₂ hin₂
    refine ⟨s', ?_, hrest⟩
    rw [← hloop, length_cons, ← Nat.add_assoc, recvLoop, bind_ok hhead, bind_ok hframe]

def Acceptable (client : Bool) (maxSize len : ℕ) (fs : List Fragment) : Prop :=
  (∀ f ∈ fs, f.data ≠ []) ∧ len + (fs.flatMap Fragment.data).length < maxSize ∧
    (client = false → ∀ f ∈ fs, f.masked = true)

theorem Acceptable.cons {len : ℕ}
    (hf : f.data ≠ [] ∧ len + f.data.length < maxSize ∧ (client = false → f.masked = true))
    (hfs : Acceptable client maxSize (len + f.data.length) fs) :
    Acceptable client maxSize len (f :: fs) := by
  obtain ⟨h0, -, hmask⟩ := hf
  obtain ⟨hdata, hroom, hmasked⟩ := hfs
  refine ⟨forall_mem_cons.mpr ⟨h0, hdata⟩, ?_, ?_⟩
  · rw [flatMap_cons, length_append]
    omega
  · exact fun hc => forall_mem_cons.mpr ⟨hmask hc, hmasked hc⟩

theorem acceptable_of_recvLoop (hmax : maxSize < 2 ^ 31) :
    ∀ (a : Assembly) (opcode : WSOpcode) (rounds : ℕ) (s s' : Socket) (m : WSFrameMessage),
    fs ≠ [] → (∀ f ∈ fs, f.data.length < 2 ^ 63) →
    (opcode = .cont ∨ opcode = .textFrame ∨ opcode = .binFrame) → Counted maxSize a →
    frameCount fs ≤ rounds → s.connected = true → s.incoming = wire opcode fs ++ rest →
    recvLoop owner client maxSize rounds a s = .ok m s' →
    Acceptable client maxSize a.data.length fs := by
  induction fs with
  | nil =>
    intro a opcode rounds s s' m hne
    exact absurd rfl hne
  | cons f fs ih =>
    intro a opcode rounds s s' m _ hsize hop ha hrounds hs hin hloop
    obtain ⟨hf, hfs⟩ := forall_mem_cons.mp hsize
    rw [frameCount, map_cons, sum_cons] at hrounds
    obtain ⟨k, rfl⟩ : ∃ k, rounds = k + 1 + f.controls.length :=
      ⟨rounds - 1 - f.controls.length, by omega⟩
    rw [wire, sentBytes, append_assoc, append_assoc, append_assoc] at hin
    obtain ⟨s₁, hskip, hs₁, hin₁⟩ := recvLoop_controls a (k + 1) f.controls hs hin
    obtain ⟨s₂, hhead, hs₂, hin₂, -⟩ := (takes_readHead _).run hs₁ hin₁
    rw [hskip, recvLoop, bind_ok hhead] at hloop
    obtain ⟨r, s₃, hframe, hrest⟩ := bind_eq_ok_iff.mp hloop
    have hdata := hframe
    rw [recvFrame_data (ofInt_code opcode) hop] at hdata
    obtain ⟨a', t, hdata, -⟩ := bind_eq_ok_iff.mp hdata
    have haccept := accepted_of_recvData hmax ha hf hs₂ hin₂ hdata
    obtain ⟨h0, hbelow, hmasked⟩ := id haccept
    have hcur : a.curLen = a.data.length := by
      have hshort := ha.below
      rw [ha.curLen, intOfSize_eq (by omega)]
    have htakes : Takes (recvFrame owner client maxSize
        (sendHead ⟨opcode.code.toNat, f.data⟩ f.masked fs.isEmpty) a) _ _ [] :=
      takes_recvFrame_data f.randValue hop hcur h0 hmax hbelow hmasked
    obtain ⟨t₃, hframe', hs₃, hin₃, -⟩ := htakes.run hs₂ (hin₂.trans (append_assoc ..).symm)
    cases hframe'.symm.trans hframe
    refine Acceptable.cons haccept ?_
    cases fs with
    | nil => exact ⟨by simp, by simpa using hbelow, by simp⟩
    | cons g gs =>
      have hlength : (a.extend opcode f.data).data.length = a.data.length + f.data.length :=
        length_append
      have hcounted : Counted maxSize (a.extend opcode f.data) := by
        refine ⟨?_, .inr (by omega)⟩
        rw [intOfSize_eq (by omega), hlength, Assembly.extend, hcur]
        rfl
      rw [← hlength]
      exact ih (a.extend opcode f.data) .cont k s₃ s' m (by simp) hfs (.inl rfl) hcounted
        (by rw [frameCount]; omega) hs₃ hin₃ hrest

end

theorem intOfSize_add_two_ne {n : ℕ} (hn : n < 2 ^ 31) : intOfSize (n + 2) ≠ -1 := by
  unfold intOfSize
  rw [Int.bmod_def]
  split <;> omega

/-- A message gets through exactly if none of its fragments is empty and the receiver admits its
length and its masks. -/
theorem message_delivered_iff (opcode : WSOpcode) (hop : opcode = .textFrame ∨ opcode = .binFrame)
    (fs : List Fragment) (hne : fs ≠ []) (hsize : ∀ f ∈ fs, f.data.length < 2 ^ 63) (maxSize : ℕ)
    (hmax : maxSize < 2 ^ 31) (client ownerS ownerR : Bool) (sender receiver : Socket)
    (hsender : sender.connected = true) (hreceiver : receiver.connected = true)
    (rest : List UInt8) (hin : receiver.incoming = wire opcode fs ++ rest) :
    ((∃ results sender', sendResults ownerS opcode fs sender = .ok results sender' ∧ -1 ∉ results) ∧
      ∃ receiver', wsRecvMessage ownerR client maxSize receiver =
          .ok (some ⟨opcode.code.toNat, fs.flatMap Fragment.data⟩) receiver' ∧
        receiver'.connected = true) ↔
    (∀ f ∈ fs, f.data ≠ []) ∧ (fs.flatMap Fragment.data).length < maxSize ∧
      (client = false → ∀ f ∈ fs, f.masked = true) := by
  constructor
  · rintro ⟨-, receiver', hrecv, -⟩
    have hstart : Counted maxSize ⟨0, [], 0⟩ := ⟨(intOfSize_eq (by simp)).symm, .inl rfl⟩
    have haccept := acceptable_of_recvLoop hmax ⟨0, [], 0⟩ opcode _ _ _ _ hne hsize (.inr hop)
      hstart (frameCount_le hin) hreceiver hin (wsRecvMessage_eq_some_iff.mp hrecv)
    simpa [Acceptable] using haccept
  · rintro ⟨hdata, htotal, hmasked⟩
    have hlen : ∀ f ∈ fs, f.data.length < 2 ^ 31 := by
      intro f hf
      have hle := length_data_le hf
      omega
    obtain ⟨sender', hsend, -⟩ :=
      takes_sendResults ownerS hdata hlen opcode sender sender.incoming hsender rfl
    obtain ⟨receiver', hrecv, hmoved⟩ :=
      takes_wsRecvMessage hop hne hdata hmax htotal hmasked ownerR receiver rest hreceiver hin
    refine ⟨⟨_, sender', hsend, ?_⟩, receiver', hrecv, hmoved.connected hreceiver⟩
    intro hfail
    obtain ⟨f, hf, hrt⟩ := mem_map.mp hfail
    exact intOfSize_add_two_ne (hlen f hf) hrt

theorem message_delivered_iff_two : ∃ results sender' receiver',
    sendResults true .textFrame [⟨[.ping], [104], true, 7⟩, ⟨[], [105], true, 0⟩]
      ⟨true, [], [], fun _ => 1⟩ = .ok results sender' ∧ -1 ∉ results ∧
    wsRecvMessage true false 100
      ⟨true, wire .textFrame [⟨[.ping], [104], true, 7⟩, ⟨[], [105], true, 0⟩], [], fun i => i⟩ =
        .ok (some ⟨1, [104, 105]⟩) receiver' := by
  obtain ⟨⟨results, sender', hsend, hresults⟩, receiver', hrecv, -⟩ :=
    (message_delivered_iff .textFrame (.inl rfl)
      [⟨[.ping], [104], true, 7⟩, ⟨[], [105], true, 0⟩] (by simp) (by simp) 100 (by simp)
      false true true ⟨true, [], [], fun _ => 1⟩
      ⟨true, wire .textFrame [⟨[.ping], [104], true, 7⟩, ⟨[], [105], true, 0⟩], [], fun i => i⟩
      rfl rfl [] (by simp)).mpr (by simp)
  exact ⟨results, sender', receiver', hsend, hresults, hrecv⟩

/-- The empty message is sent, but the sender is told of a failure and the receiver gets the null
pointer; both close. -/
theorem empty_message_lost :
    (∃ sender', sendResults true .textFrame [⟨[], [], true, 7⟩] ⟨true, [], [], fun _ => 1⟩ =
      .ok [-1] sender' ∧ sender'.connected = false ∧
        sender'.outgoing = wire .textFrame [⟨[], [], true, 7⟩]) ∧
    ∃ receiver', wsRecvMessage true false 100
      ⟨true, wire .textFrame [⟨[], [], true, 7⟩], [], fun _ => 1⟩ = .ok none receiver' ∧
        receiver'.connected = false := by
  decide +kernel

end JKYi.Http
