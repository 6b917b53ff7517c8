import JKYi.Http.WSRecv

/-!
# The sessions of a server

The loop of `WSServer::handleClient`. Messages are received and handled until one does not
arrive or its handler does not return zero.
-/

namespace JKYi.Http

open List Run

variable {σ : Type} {maxSize : ℕ}

/-- `handle` is that of the servlet, with what the servlet keeps between the calls. -/
def messageLoop (maxSize : ℕ) (handle : σ → WSFrameMessage → Run Unit Socket (ℤ × σ)) :
    ℕ → σ → Run Unit Socket σ
  | 0, _ => Run.crash
  | rounds + 1, st => do
    match ← wsRecvMessage true false maxSize with
    | none => pure st
    | some msg =>
      let (rt, st) ← handle st msg
      if rt = 0 then messageLoop maxSize handle rounds st else pure st

/-- A message as a client sends it. -/
structure ClientMessage (maxSize : ℕ) where
  opcode : WSOpcode
  fragments : List Fragment
  opcode_data : opcode = .textFrame ∨ opcode = .binFrame
  fragments_ne : fragments ≠ []
  data_ne : ∀ f ∈ fragments, f.data ≠ []
  masked : ∀ f ∈ fragments, f.masked = true
  short : (fragments.flatMap Fragment.data).length < maxSize

namespace ClientMessage

variable (m : ClientMessage maxSize)

def bytes : List UInt8 := wire m.opcode m.fragments

def message : WSFrameMessage := ⟨m.opcode.code.toNat, m.fragments.flatMap Fragment.data⟩

def pongs : List UInt8 := (replicate (pingCount m.fragments) (controlHead .pong).bytes).flatten

end ClientMessage

/-- What becomes of the servlet and what is written: `react` says what `handle` returns, keeps
and sends. -/
def serve (react : σ → WSFrameMessage → ℤ × σ × List UInt8) :
    σ → List (ClientMessage maxSize) → σ × List UInt8
  | st, [] => (st, [])
  | st, m :: ms =>
    let (rt, st, reply) := react st m.message
    let rest := if rt = 0 then serve react st ms else (st, [])
    (rest.1, m.pongs ++ (reply ++ rest.2))

theorem wsRecvMessage_end {s : Socket} (hs : s.connected = true) (hin : s.incoming = []) :
    wsRecvMessage true false maxSize s = .ok none { s.received 0 with connected := false } := by
  have hread : (SocketStream.readFixBuffer 2 : Run Unit _ _) s = .ok (0, []) (s.received 0) :=
    withObject_ok (Stream.fixSize_fails (by simp) (SocketStream.readBuffer_end 2 [] hs hin)
      le_rfl)
  have hhead : readOrBreak 2 s = .raised () (s.received 0) := by
    rw [readOrBreak, bind_ok hread]
    exact bind_raised (breakIf_pos (by simp) _)
  have hloop : (some <$> recvLoop true false maxSize (s.incoming.length + 1) ⟨0, [], 0⟩) s =
      .raised () (s.received 0) := bind_raised (bind_raised (bind_raised hhead))
  rw [wsRecvMessage, bind_ok (get_run _), tryCatch_raised hloop]
  rfl

/-- However the bytes are cut, the servlet gets each message once and in order, up to the first
one whose handler does not return zero. -/
theorem messageLoop_serves {handle : σ → WSFrameMessage → Run Unit Socket (ℤ × σ)}
    {react : σ → WSFrameMessage → ℤ × σ × List UInt8} (hmax : maxSize < 2 ^ 31)
    (hreact : ∀ st msg, Takes (handle st msg) ((react st msg).1, (react st msg).2.1) []
      (react st msg).2.2) (ms : List (ClientMessage maxSize)) (st : σ) (s : Socket)
    (hs : s.connected = true) (hin : s.incoming = ms.flatMap ClientMessage.bytes) (rounds : ℕ)
    (hrounds : ms.length < rounds) :
    ∃ s', messageLoop maxSize handle rounds st s = .ok (serve react st ms).1 s' ∧
      s'.outgoing = s.outgoing ++ (serve react st ms).2 := by
  induction ms generalizing st s rounds with
  | nil =>
    obtain ⟨k, rfl⟩ := Nat.exists_eq_succ_of_ne_zero (Nat.ne_zero_of_lt hrounds)
    refine ⟨_, bind_ok (wsRecvMessage_end hs hin), ?_⟩
    simp [serve, Socket.received]
  | cons m ms ih =>
    obtain ⟨k, rfl⟩ := Nat.exists_eq_succ_of_ne_zero (Nat.ne_zero_of_lt hrounds)
    obtain ⟨s₁, hrecv, hs₁, hin₁, hout₁⟩ := (takes_wsRecvMessage m.opcode_data m.fragments_ne
      m.data_ne hmax m.short (fun _ => m.masked) true).run hs hin
    obtain ⟨s₂, hhandle, hs₂, hin₂, hout₂⟩ := (hreact st m.message).run hs₁ hin₁
    rw [answers_eq] at hout₁
    have hround : messageLoop maxSize handle (k + 1) st s = (if (react st m.message).1 = 0 then
        messageLoop maxSize handle k (react st m.message).2.1
        else pure (react st m.message).2.1) s₂ :=
      (bind_ok hrecv).trans (bind_ok hhandle)
    rw [hround, serve]
    dsimp only
    split_ifs with hrt
    · obtain ⟨s₃, hloop, hout₃⟩ := ih _ s₂ hs₂ hin₂ k (Nat.lt_of_succ_lt_succ hrounds)
      refine ⟨s₃, hloop, ?_⟩
      rw [hout₃, hout₂, hout₁, append_assoc, append_assoc]
      rfl
    · refine ⟨s₂, rfl, ?_⟩
      rw [hout₂, hout₁, append_nil, append_assoc]
      rfl

/-- A servlet that counts the messages and ends the session with the second one. -/
theorem messageLoop_serves_two : ∃ m : ClientMessage 100, m.message = ⟨1, [104]⟩ ∧
    ∃ s', messageLoop 100 (fun n _ => pure (n, n + 1)) 4 0
      ⟨true, [m, m, m].flatMap ClientMessage.bytes, [], fun _ => 1⟩ = .ok (2 : ℤ) s' ∧
      s'.outgoing = [0x8a, 0x00, 0x8a, 0x00] := by
  let m : ClientMessage 100 := ⟨.textFrame, [⟨[.ping], [104], true, 7⟩], .inl rfl, by simp, by simp,
    by simp, by simp⟩
  obtain ⟨s', hrun, hout⟩ := @messageLoop_serves ℤ 100 (fun n _ => pure (n, n + 1))
    (fun n _ => (n, n + 1, [])) (by simp) (fun n _ => takes_pure _) [m, m, m] 0
    ⟨true, [m, m, m].flatMap ClientMessage.bytes, [], fun _ => 1⟩ rfl rfl 4 (by simp)
  exact ⟨m, rfl, s', hrun, hout⟩

end JKYi.Http
