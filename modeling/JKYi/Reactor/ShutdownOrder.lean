import JKYi.Reactor.ConnectionOutput

/-!
# What is sent before shutdown

A `send` of another thread is queued to the loop, and a `shutdown` on the loop thread is not, so it
comes before what is still queued. All writes are accepted by the socket here.
-/

namespace JKYi.Net.TcpConnection

open List

def Functor.bytes : Functor → List UInt8
  | .sendInLoop message => message
  | _ => []

/-- The bytes that wait in the queue of the loop. -/
def pending (c : TcpConnection) : List UInt8 := c.functors.flatMap Functor.bytes

/-- A `send` on the loop thread or on another one, or the loop runs its next functor. -/
inductive Op where
  | send (message : List UInt8) (inLoop : Bool)
  | functor

def Op.bytes : Op → List UInt8
  | send message _ => message
  | functor => []

/-- The socket takes all that is written to it. -/
def Op.label (c : TcpConnection) : Op → Label
  | send message inLoop => .call (.send message) inLoop (.ok message.length)
  | functor => .functor (.ok (c.functors.head?.elim [] Functor.bytes).length)

def execAll : List Op → TcpConnection → Option TcpConnection
  | [], c => some c
  | op :: ops, c => (c.exec (op.label c)).bind (execAll ops)

/-- The functors here. -/
def Functor.Plain (f : Functor) : Prop :=
  f = .writeCompleteCallback ∨ f = .shutdownInLoop ∨ ∃ message, f = .sendInLoop message

/-- What waits behind `shutdownInLoop`. -/
def behind : List Functor → List UInt8
  | [] => []
  | f :: fs => if f = .shutdownInLoop then fs.flatMap Functor.bytes else behind fs

/-- `sent` is written or waits in the queue, in front of `shutdownInLoop`. -/
structure Flows (c : TcpConnection) (sent : List UInt8) : Prop where
  up : c.state ≠ .kDisconnected
  idle : c.channel.writing = false
  empty : c.outputBuffer.readableBytes = 0
  plain : ∀ f ∈ c.functors, Functor.Plain f
  bytes : (c.written ++ c.pending).Perm sent
  order : c.pending = [] ∨ c.shutdownWrites = [] ∧ behind c.functors = []
  connected : c.state = .kConnected → .shutdownInLoop ∉ c.functors ∧ c.shutdownWrites = []

variable {c : TcpConnection} {sent : List UInt8} {fs : List Functor}

theorem behind_append {f : Functor} (h : Functor.bytes f = []) :
    behind (fs ++ [f]) = behind fs := by
  induction fs with
  | nil => simp [behind]
  | cons g fs ih => simp [behind, ih, h]

theorem behind_of_notMem (h : .shutdownInLoop ∉ fs) : behind fs = [] := by
  induction fs with
  | nil => rfl
  | cons f fs ih =>
    obtain ⟨hf, hfs⟩ := not_or.1 (mt mem_cons.2 h)
    rw [behind, if_neg (Ne.symm hf), ih hfs]

theorem Flows.of_perm {sent' : List UInt8} (h : Flows c sent) (hperm : sent.Perm sent') :
    Flows c sent' :=
  { h with bytes := h.bytes.trans hperm }

theorem Flows.queue (h : Flows c sent) {f : Functor} (hf : Functor.Plain f)
    (hbytes : Functor.bytes f = []) (hstate : c.state = .kConnected → f ≠ .shutdownInLoop) :
    Flows (c.queueInLoop f) sent := by
  have hpending : (c.queueInLoop f).pending = c.pending := by
    simp [pending, queueInLoop, hbytes]
  refine ⟨h.up, h.idle, h.empty, forall_mem_append.2 ⟨h.plain, forall_mem_singleton.2 hf⟩,
    hpending ▸ h.bytes, ?_, fun hup => ⟨?_, (h.connected hup).2⟩⟩
  · rw [hpending, queueInLoop, behind_append hbytes]
    exact h.order
  · simpa [queueInLoop, (hstate hup).symm] using (h.connected hup).1

theorem Flows.write (h : Flows c sent) (message : List UInt8) (messages : List (List UInt8)) :
    Flows { c with messages := messages, written := c.written ++ message } (sent ++ message) := by
  refine ⟨h.up, h.idle, h.empty, h.plain, ?_, h.order, h.connected⟩
  calc c.written ++ message ++ c.pending
      = c.written ++ (message ++ c.pending) := append_assoc ..
    _ ~ c.written ++ (c.pending ++ message) := perm_append_comm.append_left _
    _ = c.written ++ c.pending ++ message := (append_assoc ..).symm
    _ ~ sent ++ message := h.bytes.append_right _

theorem Flows.sendInLoop (h : Flows c sent) (message : List UInt8) :
    ∃ c', c.sendInLoop message (.ok message.length) = some c' ∧ c'.state = c.state ∧
      Flows c' (sent ++ message) := by
  have hwrite : c.writeAtOnce (.ok message.length) = (message.length, false) := by
    simp [writeAtOnce, h.idle, h.empty]
  obtain ⟨b, hsend⟩ := sendInLoop_eq message h.up hwrite le_rfl
  refine ⟨c.accepted b message message.length, by simpa using hsend, rfl, ?_⟩
  have hwritten := h.write message (c.messages ++ [message])
  rw [accepted, take_length]
  cases b with
  | false => exact hwritten
  | true => exact hwritten.queue (.inl rfl) rfl (by simp)

theorem Flows.shutdownInLoop (h : Flows c sent) (hdown : c.state ≠ .kConnected)
    (hpending : c.pending = []) : Flows c.shutdownInLoop sent := by
  rw [TcpConnection.shutdownInLoop, h.idle]
  exact ⟨h.up, h.idle, h.empty, h.plain, h.bytes, .inl hpending, fun hup => absurd hup hdown⟩

/-- The next functor is taken from the queue. -/
theorem Flows.pop {f : Functor} (h : Flows c sent) (hfs : c.functors = f :: fs) :
    ∃ rest, Flows { c with functors := fs } rest ∧ (rest ++ Functor.bytes f).Perm sent ∧
      (f = .shutdownInLoop → fs.flatMap Functor.bytes = []) := by
  obtain ⟨hup, hidle, hempty, hplain, hbytes, horder, hconnected⟩ := h
  simp only [pending, hfs, flatMap_cons, append_eq_nil_iff, behind] at *
  have horder' : fs.flatMap Functor.bytes = [] ∨
      c.shutdownWrites = [] ∧ behind fs = [] ∧ f ≠ .shutdownInLoop := by
    split at horder <;> tauto
  refine ⟨_, ⟨hup, hidle, hempty, (forall_mem_cons.1 hplain).2, .refl _, ?_, ?_⟩, ?_, ?_⟩
  · exact horder'.imp_right fun h => ⟨h.1, h.2.1⟩
  · exact fun h => ⟨mt (mem_cons_of_mem f) (hconnected h).1, (hconnected h).2⟩
  · rw [append_assoc]
    exact (perm_append_comm.append_left _).trans hbytes
  · exact fun h => horder'.resolve_right fun h' => h'.2.2 h

theorem Flows.step (h : Flows c sent) (op : Op) : ∃ c', c.exec (op.label c) = some c' ∧
    c'.state = c.state ∧ Flows c' (if c.state = .kConnected then sent ++ op.bytes else sent) := by
  cases op with
  | send message inLoop =>
    simp only [Op.label, exec, call, send]
    split
    · rename_i hup
      cases inLoop with
      | true => exact h.sendInLoop message
      | false =>
        have hnotMem : .shutdownInLoop ∉ c.functors ++ [.sendInLoop message] := by
          simpa using (h.connected hup).1
        refine ⟨_, rfl, rfl, h.up, h.idle, h.empty, ?_, ?_, .inr ⟨?_, ?_⟩, ?_⟩
        · exact forall_mem_append.2 ⟨h.plain, forall_mem_singleton.2 (.inr (.inr ⟨_, rfl⟩))⟩
        · simpa [queueInLoop, pending, Functor.bytes, Op.bytes] using h.bytes.append_right message
        · exact (h.connected hup).2
        · exact behind_of_notMem hnotMem
        · exact fun _ => ⟨hnotMem, (h.connected hup).2⟩
    · exact ⟨c, rfl, rfl, h⟩
  | functor =>
    simp only [Op.bytes, append_nil, ite_self, Op.label, exec]
    split
    · exact ⟨c, rfl, rfl, h⟩
    · rename_i f fs hfs
      obtain ⟨rest, hrest, hperm, hlast⟩ := h.pop hfs
      rw [hfs]
      rcases h.plain f (hfs ▸ mem_cons_self) with rfl | rfl | ⟨message, rfl⟩
      · exact ⟨_, rfl, rfl, hrest.of_perm (append_nil rest ▸ hperm)⟩
      · have hdown : c.state ≠ .kConnected :=
          fun hup => (h.connected hup).1 (hfs ▸ mem_cons_self)
        exact ⟨_, rfl, shutdownInLoop_state,
          (hrest.of_perm (append_nil rest ▸ hperm)).shutdownInLoop hdown (hlast rfl)⟩
      · obtain ⟨c', hsend, hstate, hc'⟩ := hrest.sendInLoop message
        exact ⟨c', hsend, hstate, hc'.of_perm hperm⟩

theorem Flows.run (h : Flows c sent) (ops : List Op) : ∃ c', execAll ops c = some c' ∧
    c'.state = c.state ∧
    Flows c' (if c.state = .kConnected then sent ++ ops.flatMap Op.bytes else sent) := by
  induction ops generalizing c sent with
  | nil => exact ⟨c, rfl, rfl, by simpa using h⟩
  | cons op ops ih =>
    obtain ⟨c₁, h₁, hstate₁, hc₁⟩ := h.step op
    obtain ⟨c', hrun, hstate, hc'⟩ := ih hc₁
    refine ⟨c', by rw [execAll, h₁]; exact hrun, hstate.trans hstate₁, ?_⟩
    split at hc' <;> simp_all

/-- A connection that is established. -/
def started (writeComplete highWater : Bool) (mark : ℕ) : Option TcpConnection :=
  (create writeComplete highWater mark).bind (·.exec (.functor (.ok 0)))

theorem started_spec (writeComplete highWater : Bool) (mark : ℕ) :
    ∃ c, started writeComplete highWater mark = some c ∧ c.state = .kConnected ∧ Flows c [] := by
  obtain ⟨input, output, -, hwf, hnil, hcreate⟩ := create_spec writeComplete highWater mark
  refine ⟨_, by rw [started, hcreate]; rfl, rfl, ?_⟩
  exact ⟨nofun, rfl, hwf.contents_eq_nil_iff.1 hnil, nofun, .nil, .inl rfl,
    fun _ => ⟨not_mem_nil, rfl⟩⟩

/-- All sends are written before the socket is shut down exactly where `shutdown` is called by
another thread, or no send is queued then. -/
theorem sent_before_shutdown_iff (writeComplete highWater : Bool) (mark : ℕ) (ops : List Op)
    (inLoop : Bool) :
    ∃ c d, (started writeComplete highWater mark).bind (execAll ops) = some c ∧
      c.shutdown inLoop (.ok 0) = some d ∧
      ((∀ later, ∃ t, execAll later d = some t ∧
        (t.shutdownWrites ≠ [] → t.written.Perm (ops.flatMap Op.bytes))) ↔
          inLoop = false ∨ c.pending = []) := by
  obtain ⟨c₀, hstarted, hstate₀, h₀⟩ := started_spec writeComplete highWater mark
  obtain ⟨c, hrun, hstate, hc⟩ := h₀.run ops
  rw [if_pos hstate₀, nil_append] at hc
  have hup := hstate.trans hstate₀
  have hc' : Flows { c with state := .kDisconnecting } (ops.flatMap Op.bytes) :=
    { hc with up := by simp, connected := by simp }
  have hlater : ∀ d, Flows d (ops.flatMap Op.bytes) → d.state = .kDisconnecting → ∀ later, ∃ t,
      execAll later d = some t ∧
        (t.shutdownWrites ≠ [] → t.written.Perm (ops.flatMap Op.bytes)) := by
    intro d hd hstate later
    obtain ⟨t, hrun, -, ht⟩ := hd.run later
    rw [if_neg (by simp [hstate])] at ht
    refine ⟨t, hrun, fun hne => ?_⟩
    have hbytes := ht.bytes
    rwa [ht.order.resolve_right fun h => hne h.1, append_nil] at hbytes
  rw [hstarted, Option.bind_some]
  cases inLoop with
  | false =>
    refine ⟨c, _, hrun, by rw [shutdown, if_pos hup]; rfl, iff_of_true ?_ (.inl rfl)⟩
    exact hlater _ (hc'.queue (.inr (.inl rfl)) rfl (by simp)) rfl
  | true =>
    refine ⟨c, _, hrun, by rw [shutdown, if_pos hup]; rfl, fun h => .inr ?_, fun h => ?_⟩
    · obtain ⟨t, ht, hwritten⟩ := h []
      cases ht
      rw [shutdownInLoop, hc'.idle] at hwritten
      have hall := hwritten (append_ne_nil_of_right_ne_nil _ (cons_ne_nil _ _))
      simpa using (hc.bytes.trans hall.symm).length_eq
    · have hpending := h.resolve_left (by simp)
      exact hlater _ (hc'.shutdownInLoop (by simp) hpending) shutdownInLoop_state

/-- A byte is sent by another thread, and the socket is shut down before it is written. -/
theorem shutdown_before_send : ∃ c d,
    (started false false 0).bind (execAll [.send [1] false]) = some c ∧
      c.shutdown true (.ok 0) = some d ∧ d.shutdownWrites ≠ [] ∧ d.written = [] := by
  obtain ⟨input, output, -, -, -, hcreate⟩ := create_spec false false 0
  refine ⟨_, _, by rw [started, hcreate]; rfl, rfl, ?_, rfl⟩
  exact cons_ne_nil _ []

end JKYi.Net.TcpConnection
