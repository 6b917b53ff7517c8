import JKYi.Reactor.ConnectionOutput

/-!
# The life of a connection

A connection is established, used and disconnected, by the peer, by the user or by
`connectDestroyed`. Two steps make an assertion fail: a read of zero bytes behind the
close handler of the same poll result, and `connectDestroyed` while the connection is
`kDisconnecting`. In all other runs the callbacks come in order.
-/

namespace JKYi.Net

open Buffer Channel List Option

namespace StateE

/-- `kConnected` or `kDisconnecting`. -/
def live : StateE → Bool
  | .kConnected => true
  | .kDisconnecting => true
  | _ => false

/-- What `connected()` was in the calls of `connectionCallback_` up to a state. -/
def callbacks : StateE → List Bool
  | .kConnecting => []
  | .kConnected => [true]
  | .kDisconnecting => [true]
  | .kDisconnected => [true, false]

variable {st : StateE}

theorem live_iff : st.live = true ↔ st = .kConnected ∨ st = .kDisconnecting := by
  cases st <;> simp [live]

theorem live_iff_ne : st.live = true ↔ st ≠ .kConnecting ∧ st ≠ .kDisconnected := by
  cases st <;> simp [live]

theorem callbacks_of_live (h : st.live = true) : st.callbacks = [true] := by
  rcases live_iff.1 h with rfl | rfl
  · rfl
  · rfl

end StateE

def Revents.closes (r : Revents) : Bool := r.pollhup && !r.pollin

namespace Handler

def rank : Handler → ℕ
  | .close => 0
  | .error => 1
  | .read => 2
  | .write => 3

end Handler

namespace Channel

variable {ch : Channel}

structure Open (ch : Channel) : Prop where
  reading : ch.reading = true
  index : ch.index = .kAdded
  registered : ch.registered = true

structure Idle (ch : Channel) : Prop where
  reading : ch.reading = false
  writing : ch.writing = false
  registered : ch.registered = false

theorem Open.update (h : Open ch) : ch.update = { ch with addedToLoop := true } := by
  simp [Channel.update, h.index, isNoneEvent, h.reading]

/-- `enableWriting` and `disableWriting`. -/
theorem Open.setWriting (h : Open ch) (b : Bool) : Open { ch with writing := b }.update := by
  have hw : Open { ch with writing := b } := ⟨h.reading, h.index, h.registered⟩
  rw [hw.update]
  exact ⟨h.reading, h.index, h.registered⟩

theorem Open.disableAll (h : Open ch) : Idle ch.disableAll := by
  simp only [Channel.disableAll, Channel.update, h.index, isNoneEvent]
  exact ⟨rfl, rfl, rfl⟩

theorem update_revents (ch : Channel) : ch.update.revents = ch.revents := by
  unfold Channel.update
  split
  · rfl
  · rfl
  · split <;> rfl

theorem Idle.isNoneEvent (h : Idle ch) : ch.isNoneEvent = true := by
  simp [Channel.isNoneEvent, h.reading, h.writing]

theorem create_enableReading : Open create.enableReading := ⟨rfl, rfl, rfl⟩

theorem handleEventWithGuard_sorted (r : Revents) :
    (handleEventWithGuard r).Pairwise fun a b => a.rank < b.rank := by
  unfold handleEventWithGuard
  split <;> split <;> split <;> split <;> decide

theorem close_mem_handleEventWithGuard {r : Revents} :
    .close ∈ handleEventWithGuard r ↔ r.closes = true := by
  unfold handleEventWithGuard Revents.closes
  split <;> split <;> split <;> split <;> simp [*]

end Channel

namespace TcpConnection

variable {c c' c₁ : TcpConnection} {io : Except ℕ ℕ}

def Functor.later : Functor → Bool
  | .connectEstablished => false
  | .startReadInLoop => false
  | .stopReadInLoop => false
  | _ => true

/-- The invariant of a connection. While a poll result is handled, the read handler finds the
connection disconnected just when the close handler has run before it. -/
structure Life (c : TcpConnection) : Prop where
  input : c.inputBuffer.Wf
  output : c.outputBuffer.Wf
  connecting : c.state = .kConnecting → c.pass = [] ∧ c.channel = Channel.create ∧
    ∃ fs, c.functors = .connectEstablished :: fs ∧ ∀ f ∈ fs, Functor.later f = true
  functors : c.state ≠ .kConnecting → ∀ f ∈ c.functors, Functor.later f = true
  isOpen : c.state.live = true → c.channel.Open
  idle : c.state.live = false → c.channel.Idle
  callbacks : c.connectionCallbacks = c.state.callbacks
  closes : c.closeCallbacks ≤ if c.state = .kDisconnected then 1 else 0
  sorted : c.pass.Pairwise fun a b => a.rank < b.rank
  passClose : .close ∈ c.pass → c.state ≠ .kDisconnected ∧ c.channel.revents.closes = true
  passRead : .read ∈ c.pass →
    (c.state = .kDisconnected ↔ c.channel.revents.closes = true ∧ .close ∉ c.pass)
  destroyed : c.destroyed = true → c.state = .kDisconnected ∧ c.channel.addedToLoop = false

/-- Steps that neither establish nor disconnect. -/
structure Calm (c c' : TcpConnection) : Prop where
  input : c.inputBuffer.Wf → c'.inputBuffer.Wf
  output : c.outputBuffer.Wf → c'.outputBuffer.Wf
  state : c'.state = c.state ∨ c.state.live = true ∧ c'.state = .kDisconnecting
  functors : ∃ new, c'.functors = c.functors ++ new ∧ ∀ f ∈ new, Functor.later f = true
  channel : c.state.live = false → c'.channel = c.channel
  isOpen : c.channel.Open → c'.channel.Open
  revents : c'.channel.revents = c.channel.revents
  same : (c'.pass, c'.connectionCallbacks, c'.closeCallbacks, c'.destroyed) =
    (c.pass, c.connectionCallbacks, c.closeCallbacks, c.destroyed)

variable {f : Functor}

theorem Calm.keep (hinput : c.inputBuffer.Wf → c'.inputBuffer.Wf)
    (houtput : c.outputBuffer.Wf → c'.outputBuffer.Wf)
    (hsame : (c'.state, c'.functors, c'.channel, c'.pass, c'.connectionCallbacks,
        c'.closeCallbacks, c'.destroyed) =
      (c.state, c.functors, c.channel, c.pass, c.connectionCallbacks, c.closeCallbacks,
        c.destroyed)) : Calm c c' := by
  simp only [Prod.mk.injEq] at hsame
  obtain ⟨hstate, hfunctors, hchannel, hrest⟩ := hsame
  refine ⟨hinput, houtput, .inl hstate, ⟨[], ?_, by simp⟩, fun _ => hchannel, ?_, ?_, ?_⟩
  · rw [hfunctors, append_nil]
  · rw [hchannel]
    exact id
  · rw [hchannel]
  · simp only [hrest]

theorem Calm.refl (c : TcpConnection) : Calm c c := .keep id id rfl

theorem Calm.state_facts (h : Calm c c') : c'.state.live = c.state.live ∧
    (c'.state = .kConnecting ↔ c.state = .kConnecting) ∧
    (c'.state = .kDisconnected ↔ c.state = .kDisconnected) ∧
    c'.state.callbacks = c.state.callbacks := by
  rcases h.state with heq | ⟨hlive, heq⟩
  · rw [heq]
    exact ⟨rfl, Iff.rfl, Iff.rfl, rfl⟩
  · obtain ⟨hconnecting, hdisconnected⟩ := StateE.live_iff_ne.1 hlive
    rw [heq, hlive, StateE.callbacks_of_live hlive]
    exact ⟨rfl, iff_of_false (by decide) hconnecting, iff_of_false (by decide) hdisconnected, rfl⟩

theorem Calm.trans (h : Calm c c₁) (h' : Calm c₁ c') : Calm c c' := by
  obtain ⟨hlive, -, -, -⟩ := h.state_facts
  obtain ⟨new, hnew, hlater⟩ := h.functors
  obtain ⟨new', hnew', hlater'⟩ := h'.functors
  refine ⟨h'.input ∘ h.input, h'.output ∘ h.output, ?_, ⟨new ++ new', ?_, ?_⟩, ?_,
    h'.isOpen ∘ h.isOpen, h'.revents.trans h.revents, h'.same.trans h.same⟩
  · rcases h'.state with heq | ⟨hlive', heq⟩
    · rw [heq]
      exact h.state
    · exact .inr ⟨hlive.symm.trans hlive', heq⟩
  · rw [hnew', hnew, append_assoc]
  · exact forall_mem_append.2 ⟨hlater, hlater'⟩
  · intro hdown
    rw [h'.channel (hlive.trans hdown), h.channel hdown]

theorem Life.calm (h : Life c) (hc : Calm c c') : Life c' := by
  obtain ⟨hlive, hconnecting, hdown, hcallbacks⟩ := hc.state_facts
  obtain ⟨new, hnew, hlater⟩ := hc.functors
  have hsame := hc.same
  simp only [Prod.mk.injEq] at hsame
  obtain ⟨hpass, hconnection, hclose, hdestroyed⟩ := hsame
  have hchannel := hc.channel
  constructor
  · exact hc.input h.input
  · exact hc.output h.output
  · intro hstate
    obtain ⟨hnil, hcreate, fs, hfs, hall⟩ := h.connecting (hconnecting.1 hstate)
    refine ⟨hpass.trans hnil, ?_, fs ++ new, ?_, ?_⟩
    · rw [hchannel (by rw [hconnecting.1 hstate]; rfl), hcreate]
    · rw [hnew, hfs, cons_append]
    · exact forall_mem_append.2 ⟨hall, hlater⟩
  · intro hstate
    rw [hnew]
    exact forall_mem_append.2 ⟨h.functors (mt hconnecting.2 hstate), hlater⟩
  · intro hup
    exact hc.isOpen (h.isOpen (hlive.symm.trans hup))
  · intro hoff
    rw [hchannel (hlive.symm.trans hoff)]
    exact h.idle (hlive.symm.trans hoff)
  · rw [hconnection, hcallbacks]
    exact h.callbacks
  · rw [hclose]
    simp only [hdown]
    exact h.closes
  · rw [hpass]
    exact h.sorted
  · rw [hpass, hc.revents, Ne, hdown]
    exact h.passClose
  · rw [hpass, hc.revents, hdown]
    exact h.passRead
  · intro hd
    obtain ⟨hstate, hadded⟩ := h.destroyed (hdestroyed.symm.trans hd)
    refine ⟨hdown.2 hstate, ?_⟩
    rw [hchannel (by rw [hstate]; rfl)]
    exact hadded

theorem calm_queueInLoop (hf : Functor.later f = true) : Calm c (c.queueInLoop f) :=
  ⟨id, id, .inl rfl, ⟨[f], rfl, by simpa using hf⟩, fun _ => rfl, id, rfl, rfl⟩

theorem calm_queueIf (b : Bool) (hf : Functor.later f = true) :
    Calm c (c.queueIf b f) := by
  cases b with
  | true => exact calm_queueInLoop hf
  | false => exact Calm.refl c

theorem calm_shutdownInLoop : Calm c c.shutdownInLoop := by
  unfold shutdownInLoop
  split
  · exact .keep id id rfl
  · exact Calm.refl c

theorem calm_disconnecting (hlive : c.state.live = true) :
    Calm c { c with state := .kDisconnecting } :=
  ⟨id, id, .inr ⟨hlive, rfl⟩, ⟨[], (append_nil _).symm, by simp⟩, fun _ => rfl, id, rfl, rfl⟩

theorem calm_forceClose : Calm c c.forceClose := by
  unfold forceClose
  split
  · rename_i hlive
    exact (calm_disconnecting (StateE.live_iff.2 hlive)).trans (calm_queueInLoop rfl)
  · exact Calm.refl c

theorem calm_forceCloseWithDelay : Calm c c.forceCloseWithDelay := by
  unfold forceCloseWithDelay
  split
  · rename_i hlive
    exact (calm_disconnecting (StateE.live_iff.2 hlive)).trans (.keep id id rfl)
  · exact Calm.refl c

theorem appendOutput_calm (hwf : c.outputBuffer.Wf) (hlive : c.state.live = true)
    (rest : List UInt8) : ∃ c', c.appendOutput rest = some c' ∧ Calm c c' := by
  obtain ⟨b, hb, hspec⟩ := append_spec hwf rest
  obtain ⟨full, len, happend⟩ := appendOutput_eq hb
  refine ⟨_, happend, ⟨id, fun _ => hspec.wf, .inl rfl, (calm_queueIf full rfl).functors, ?_, ?_,
    ?_, rfl⟩⟩
  · intro hdown
    rw [hlive] at hdown
    cases hdown
  · intro hopen
    change (if c.channel.writing then c.channel else c.channel.enableWriting).Open
    split
    · exact hopen
    · exact hopen.setWriting true
  · change (if c.channel.writing then c.channel else c.channel.enableWriting).revents = _
    split
    · rfl
    · exact update_revents _

theorem writeAtOnce_le {len nwrote : ℕ} {fault : Bool} (hfits : Fits io len)
    (h : c.writeAtOnce io = (nwrote, fault)) : nwrote ≤ len := by
  unfold writeAtOnce at h
  split at h
  · cases io with
    | ok n =>
      cases h
      exact hfits _ rfl
    | error errno =>
      cases h
      exact Nat.zero_le len
  · cases h
    exact Nat.zero_le len

theorem sendInLoop_calm (hstate : c.state ≠ .kConnecting) (hwf : c.outputBuffer.Wf)
    {message : List UInt8} (hfits : Fits io message.length) :
    ∃ c', c.sendInLoop message io = some c' ∧ Calm c c' := by
  by_cases hdown : c.state = .kDisconnected
  · refine ⟨{ c with messages := c.messages ++ [message] }, ?_, .keep id id rfl⟩
    rw [sendInLoop, if_pos hdown]
    rfl
  · have hlive := StateE.live_iff_ne.2 ⟨hstate, hdown⟩
    obtain ⟨nwrote, fault, hwrite⟩ : ∃ nwrote fault, c.writeAtOnce io = (nwrote, fault) :=
      ⟨_, _, rfl⟩
    obtain ⟨b, hsend⟩ := sendInLoop_eq message hdown hwrite (writeAtOnce_le hfits hwrite)
    have haccept : Calm c (c.accepted b message nwrote) :=
      ⟨id, id, .inl rfl, (calm_queueIf b rfl).functors, fun _ => rfl, id, rfl, rfl⟩
    rw [hsend]
    split
    · obtain ⟨c', happend, hcalm⟩ := appendOutput_calm (c := c.accepted b message nwrote) hwf hlive
        (message.drop nwrote)
      exact ⟨c', happend, haccept.trans hcalm⟩
    · exact ⟨_, rfl, haccept⟩

theorem Life.live_of_not_idle (h : Life c) (hidle : ¬ c.channel.Idle) : c.state.live = true := by
  by_contra hoff
  exact hidle (h.idle (Bool.eq_false_of_not_eq_true hoff))

theorem handleWrite_calm (h : Life c) (hfits : Fits io c.outputBuffer.readableBytes) :
    ∃ c', c.handleWrite io = some c' ∧ Calm c c' := by
  obtain ⟨c', hrun, hwrote⟩ := handleWrite_wrote h.output hfits
  refine ⟨c', hrun, ?_⟩
  cases hwrote with
  | idle => exact Calm.refl c
  | part hwriting hspec hmore => exact .keep id (fun _ => hspec.wf) rfl
  | @all n b c₁ hwriting hspec hdone hdrained =>
    have hlive := h.live_of_not_idle fun hidle => by simp [hidle.writing] at hwriting
    have hcalm : Calm c c₁ := by
      subst hdrained
      exact ⟨id, fun _ => hspec.wf, .inl rfl, (calm_queueIf _ rfl).functors,
        fun hoff => absurd (hlive.symm.trans hoff) (by decide),
        fun hopen => hopen.setWriting false, update_revents _, rfl⟩
    split
    · exact hcalm.trans calm_shutdownInLoop
    · exact hcalm

variable {pass : List Handler} {rd : Except ℕ (List UInt8)}

theorem Life.down (h : Life c) (hlive : c.state.live = true)
    (hbuffers : (c'.inputBuffer, c'.outputBuffer) = (c.inputBuffer, c.outputBuffer))
    (hdown : (c'.state, c'.channel, c'.functors, c'.connectionCallbacks, c'.destroyed) =
      (.kDisconnected, c.channel.disableAll, c.functors, c.connectionCallbacks ++ [false],
        c.destroyed))
    (hcloses : c'.closeCallbacks ≤ c.closeCallbacks + 1)
    (hsorted : c'.pass.Pairwise fun a b => a.rank < b.rank) (hclose : .close ∉ c'.pass)
    (hread : .read ∈ c'.pass → c.channel.revents.closes = true) : Life c' := by
  simp only [Prod.mk.injEq] at hbuffers hdown
  obtain ⟨hinput, houtput⟩ := hbuffers
  obtain ⟨hstate, hchannel, hfunctors, hcallbacks, hdestroyed⟩ := hdown
  obtain ⟨hconnecting, hdisconnected⟩ := StateE.live_iff_ne.1 hlive
  have hzero := h.closes
  rw [if_neg hdisconnected] at hzero
  have hrevents : c'.channel.revents = c.channel.revents := by
    rw [hchannel]
    exact update_revents _
  constructor
  · rw [hinput]
    exact h.input
  · rw [houtput]
    exact h.output
  · intro hnew
    cases hstate.symm.trans hnew
  · intro _
    rw [hfunctors]
    exact h.functors hconnecting
  · intro hup
    rw [hstate] at hup
    cases hup
  · intro _
    rw [hchannel]
    exact (h.isOpen hlive).disableAll
  · rw [hcallbacks, h.callbacks, StateE.callbacks_of_live hlive, hstate]
    rfl
  · rw [if_pos hstate]
    omega
  · exact hsorted
  · intro hpass
    exact absurd hpass hclose
  · intro hpass
    rw [hrevents]
    exact iff_of_true hstate ⟨hread hpass, hclose⟩
  · intro hd
    exact absurd (h.destroyed (hdestroyed.symm.trans hd)).1 hdisconnected

theorem Life.closed (h : Life c) (hlive : c.state.live = true)
    (hsorted : pass.Pairwise fun a b => a.rank < b.rank) (hclose : .close ∉ pass)
    (hread : .read ∈ pass → c.channel.revents.closes = true) :
    Life { c with pass := pass }.closed :=
  h.down hlive rfl rfl le_rfl hsorted hclose hread

theorem Life.established (h : Life c) (hstate : c.state = .kConnecting) {fs : List Functor}
    (hfs : c.functors = .connectEstablished :: fs) :
    Life { c with functors := fs }.established := by
  obtain ⟨hpass, hchannel, fs', hfs', hlater⟩ := h.connecting hstate
  cases hfs.symm.trans hfs'
  have hcallbacks := h.callbacks
  have hcloses := h.closes
  rw [hstate] at hcallbacks hcloses
  constructor
  · exact h.input
  · exact h.output
  · exact nofun
  · intro _
    exact hlater
  · intro _
    change Channel.Open c.channel.enableReading
    rw [hchannel]
    exact create_enableReading
  · exact nofun
  · change c.connectionCallbacks ++ [true] = [true]
    rw [hcallbacks]
    rfl
  · exact hcloses
  · exact h.sorted
  · intro (hmem : _ ∈ c.pass)
    rw [hpass] at hmem
    cases hmem
  · intro (hmem : _ ∈ c.pass)
    rw [hpass] at hmem
    cases hmem
  · intro hd
    cases hstate.symm.trans (h.destroyed hd).1

theorem Life.tail (h : Life c) (hstate : c.state ≠ .kConnecting) {fs : List Functor}
    (hfs : c.functors = f :: fs) :
    Functor.later f = true ∧ Life { c with functors := fs } := by
  have hlater := h.functors hstate
  rw [hfs] at hlater
  refine ⟨hlater f mem_cons_self, ⟨h.input, h.output, fun hc => absurd hc hstate, ?_,
    h.isOpen, h.idle, h.callbacks, h.closes, h.sorted, h.passClose, h.passRead, h.destroyed⟩⟩
  intro _ f' hf'
  exact hlater f' (mem_cons_of_mem f hf')

theorem Life.disconnected (h : Life c) (hpass : c.pass = [])
    (hstate : c.state = .kConnected ∨ c.state = .kDisconnected) :
    Life c.disconnected ∧ c.disconnected.state = .kDisconnected := by
  rcases hstate with hstate | hstate
  · have hlive := StateE.live_iff.2 (.inl hstate)
    rw [TcpConnection.disconnected, if_pos hstate]
    refine ⟨h.down hlive rfl rfl (Nat.le_succ _) h.sorted ?_ ?_, rfl⟩
    · simp [hpass]
    · simp [hpass]
  · rw [TcpConnection.disconnected, if_neg (by rw [hstate]; decide)]
    exact ⟨h, hstate⟩

theorem connectDestroyed_spec (h : Life c) (hpass : c.pass = [])
    (hstate : c.state = .kConnected ∨ c.state = .kDisconnected) :
    ∃ c', c.connectDestroyed = some c' ∧ Life c' := by
  obtain ⟨hlife, hdown⟩ := h.disconnected hpass hstate
  have hidle := hlife.idle (by rw [hdown]; rfl)
  rw [connectDestroyed_eq, Channel.remove, assert_pos hidle.isNoneEvent]
  refine ⟨_, rfl, ⟨hlife.input, hlife.output, ?_, hlife.functors, ?_, ?_, hlife.callbacks,
    hlife.closes, hlife.sorted, hlife.passClose, hlife.passRead, fun _ => ⟨hdown, rfl⟩⟩⟩
  · intro hc
    cases hdown.symm.trans hc
  · intro hup
    change c.disconnected.state.live = true at hup
    rw [hdown] at hup
    cases hup
  · intro _
    exact ⟨hidle.reading, hidle.writing, rfl⟩

theorem connectDestroyed_eq_none (h : Life c) (hstate : c.state = .kDisconnecting) :
    c.connectDestroyed = none := by
  have hopen := h.isOpen (by rw [hstate]; rfl)
  have hevents : ¬ c.channel.isNoneEvent = true := by
    simp [isNoneEvent, hopen.reading]
  rw [connectDestroyed_eq, TcpConnection.disconnected, if_neg (by rw [hstate]; decide),
    Channel.remove, Buffer.assert, if_neg hevents]
  rfl

theorem handleRead_end (hwf : c.inputBuffer.Wf) :
    ∃ b : Buffer, b.Wf ∧ c.handleRead (.ok []) = { c with inputBuffer := b }.handleClose := by
  obtain ⟨b, hb, hspec⟩ := readFd_spec hwf []
  rw [take_nil] at hb
  refine ⟨b, hspec.wf, ?_⟩
  rw [handleRead, hb]
  rfl

theorem handleRead_end_eq_none (hwf : c.inputBuffer.Wf)
    (hstate : ¬ (c.state = .kConnected ∨ c.state = .kDisconnecting)) :
    c.handleRead (.ok []) = none := by
  obtain ⟨b, -, hread⟩ := handleRead_end hwf
  exact hread.trans (handleClose_eq_none hstate)

theorem handleRead_calm (hwf : c.inputBuffer.Wf) (hrd : rd ≠ .ok []) :
    ∃ c', c.handleRead rd = some c' ∧ Calm c c' := by
  cases rd with
  | error errno => exact ⟨_, rfl, Calm.refl c⟩
  | ok data =>
    obtain ⟨b, hb, hspec⟩ := readFd_spec hwf data
    have hroom : 0 < c.inputBuffer.readRoom := by
      unfold readRoom extraSize
      split <;> omega
    have hdata : 0 < data.length := length_pos_iff.2 fun hnil => hrd (by rw [hnil])
    have hgot : ((data.take c.inputBuffer.readRoom).length : ℤ) ≠ 0 := by
      rw [length_take]
      omega
    refine ⟨{ c with inputBuffer := b }, ?_, .keep (fun _ => hspec.wf) id rfl⟩
    rw [handleRead, hb, bind_eq_bind, bind_some]
    exact if_neg hgot

/-- The steps in question: the user neither starts nor stops reading. -/
def Label.closing : Label → Bool
  | .call .startRead _ _ => false
  | .call .stopRead _ _ => false
  | _ => true

/-- A poll result that has called the close handler does not read zero bytes, and
`connectDestroyed` does not run while the connection is `kDisconnecting`. -/
def Orderly (c : TcpConnection) : Label → Prop
  | .handle rd _ => c.pass.head? = some .read → rd = .ok [] → c.channel.revents.closes = false
  | .functor _ => c.functors.head? = some .connectDestroyed → c.state ≠ .kDisconnecting
  | _ => True

/-- A step keeps the invariant, or its assertion fails because it is not orderly. -/
def Fine (c : TcpConnection) (l : Label) : Prop :=
  (∃ c', c.exec l = some c' ∧ Life c' ∧ c.Orderly l) ∨ c.exec l = none ∧ ¬ c.Orderly l

theorem fine_of_calm {l : Label} (h : Life c) (hexec : ∃ c', c.exec l = some c' ∧ Calm c c')
    (horderly : c.Orderly l) : Fine c l := by
  obtain ⟨c', hexec, hcalm⟩ := hexec
  exact .inl ⟨c', hexec, h.calm hcalm, horderly⟩

theorem runInLoop_calm (hf : Functor.later f = true) (inLoop : Bool)
    (hrun : ∃ c', c.run f io = some c' ∧ Calm c c') :
    ∃ c', c.runInLoop inLoop f io = some c' ∧ Calm c c' := by
  cases inLoop with
  | true => exact hrun
  | false => exact ⟨_, rfl, calm_queueInLoop hf⟩

theorem call_calm (h : Life c) {u : UserCall} {inLoop : Bool}
    (hl : (Label.call u inLoop io).closing = true) (henabled : c.Enabled (.call u inLoop io)) :
    ∃ c', c.call u inLoop io = some c' ∧ Calm c c' := by
  cases u with
  | send message =>
    simp only [call, send]
    split
    · rename_i hup
      exact runInLoop_calm rfl inLoop (sendInLoop_calm (by rw [hup]; decide) h.output henabled)
    · exact ⟨c, rfl, Calm.refl c⟩
  | shutdown =>
    simp only [call, shutdown]
    split
    · rename_i hup
      have hfirst := calm_disconnecting (c := c) (by rw [hup]; rfl)
      obtain ⟨c', hrun, hcalm⟩ := runInLoop_calm (c := { c with state := .kDisconnecting })
        (f := .shutdownInLoop) rfl inLoop ⟨_, rfl, calm_shutdownInLoop⟩
      exact ⟨c', hrun, hfirst.trans hcalm⟩
    · exact ⟨c, rfl, Calm.refl c⟩
  | forceClose => exact ⟨_, rfl, calm_forceClose⟩
  | forceCloseWithDelay => exact ⟨_, rfl, calm_forceCloseWithDelay⟩
  | startRead => cases hl
  | stopRead => cases hl
  | retrieve len =>
    obtain ⟨b, hb, hspec⟩ := retrieve_spec h.input henabled
    refine ⟨{ c with inputBuffer := b }, ?_, .keep (fun _ => hspec.wf) id rfl⟩
    simp only [call, hb, bind_eq_bind, bind_some]
    rfl

theorem functor_fine (h : Life c) (henabled : c.Enabled (.functor io)) :
    Fine c (.functor io) := by
  obtain ⟨hpass, f, hf, hfits⟩ := henabled
  obtain ⟨fs, hfs⟩ := List.head?_eq_some_iff.1 hf
  have hexec : c.exec (.functor io) = { c with functors := fs }.run f io := by
    simp only [exec, hfs]
  have horderly : f ≠ .connectDestroyed → c.Orderly (.functor io) := by
    intro hne hhead
    rw [hf] at hhead
    exact absurd (Option.some.inj hhead) hne
  by_cases hstate : c.state = .kConnecting
  · obtain ⟨-, -, fs', hfs', -⟩ := h.connecting hstate
    cases hfs.symm.trans hfs'
    exact .inl ⟨_, hexec.trans (connectEstablished_eq hstate), h.established hstate hfs,
      horderly (by decide)⟩
  · obtain ⟨hlater, h₀⟩ := h.tail hstate hfs
    have hcalm : (∃ c', { c with functors := fs }.run f io = some c' ∧
        Calm { c with functors := fs } c') → f ≠ .connectDestroyed → Fine c (.functor io) := by
      rintro ⟨c', hrun, hcalm⟩ hne
      exact .inl ⟨c', hexec.trans hrun, h₀.calm hcalm, horderly hne⟩
    cases f with
    | connectEstablished | startReadInLoop | stopReadInLoop => cases hlater
    | sendInLoop message =>
      exact hcalm (sendInLoop_calm (c := { c with functors := fs }) hstate h.output hfits) (by simp)
    | shutdownInLoop => exact hcalm ⟨_, rfl, calm_shutdownInLoop⟩ (by simp)
    | writeCompleteCallback | highWaterMarkCallback len =>
      exact hcalm ⟨_, rfl, Calm.refl _⟩ (by simp)
    | forceCloseInLoop =>
      by_cases hlive : c.state = .kConnected ∨ c.state = .kDisconnecting
      · have hclosed := h₀.closed (StateE.live_iff.2 hlive) h.sorted (by rw [hpass]; simp)
          (by rw [hpass]; simp)
        refine .inl ⟨_, hexec.trans ?_, hclosed, horderly (by simp)⟩
        rw [run, forceCloseInLoop, if_pos hlive]
        exact handleClose_eq hlive
      · refine .inl ⟨_, hexec.trans ?_, h₀, horderly (by simp)⟩
        rw [run, forceCloseInLoop, if_neg hlive]
    | connectDestroyed =>
      by_cases hbusy : c.state = .kDisconnecting
      · exact .inr ⟨hexec.trans (connectDestroyed_eq_none h₀ hbusy), fun h => h hf hbusy⟩
      · have hrest : c.state = .kConnected ∨ c.state = .kDisconnected := by
          cases hc : c.state with
          | kConnecting => exact absurd hc hstate
          | kDisconnecting => exact absurd hc hbusy
          | kConnected => exact .inl rfl
          | kDisconnected => exact .inr rfl
        obtain ⟨c', hrun, hlife⟩ := connectDestroyed_spec h₀ hpass hrest
        exact .inl ⟨c', hexec.trans hrun, hlife, fun _ => hbusy⟩

theorem Life.skip (h : Life c) {hd : Handler} (hpass : c.pass = hd :: pass)
    (hhd : hd ≠ .close) : Life { c with pass := pass } := by
  have hsorted := h.sorted
  have hclose := h.passClose
  have hread := h.passRead
  rw [hpass] at hsorted hclose hread
  refine ⟨h.input, h.output, ?_, h.functors, h.isOpen, h.idle, h.callbacks, h.closes,
    hsorted.of_cons, fun hmem => hclose (mem_cons_of_mem hd hmem), ?_, h.destroyed⟩
  · intro hstate
    cases hpass.symm.trans (h.connecting hstate).1
  · intro hmem
    have hiff := hread (mem_cons_of_mem hd hmem)
    rw [mem_cons, not_or] at hiff
    exact hiff.trans ⟨fun hr => ⟨hr.1, hr.2.2⟩, fun hr => ⟨hr.1, hhd.symm, hr.2⟩⟩

theorem Life.live_of_pass (h : Life c) {hd : Handler}
    (hpass : c.pass = hd :: pass) (hstate : c.state ≠ .kDisconnected) : c.state.live = true := by
  refine StateE.live_iff_ne.2 ⟨fun hconnecting => ?_, hstate⟩
  cases hpass.symm.trans (h.connecting hconnecting).1

theorem read_fine (h : Life c) (hpass : c.pass = .read :: pass)
    : Fine c (.handle rd io) := by
  have hexec : c.exec (.handle rd io) = { c with pass := pass }.handleRead rd := by
    simp only [exec, hpass]
    rfl
  have h₀ := h.skip hpass (by decide)
  have hsorted := h.sorted
  rw [hpass] at hsorted
  have hafter : ∀ hd ∈ pass, Handler.read.rank < hd.rank := fun hd hmem =>
    rel_of_pairwise_cons hsorted hmem
  have hclose : .close ∉ pass := fun hmem => absurd (hafter _ hmem) (by decide)
  have hread : .read ∉ pass := fun hmem => absurd (hafter _ hmem) (by decide)
  have hdown : c.state = .kDisconnected ↔ c.channel.revents.closes = true := by
    have hiff := h.passRead (by rw [hpass]; exact mem_cons_self)
    rw [hpass] at hiff
    refine hiff.trans ⟨fun hr => hr.1, fun hr => ⟨hr, ?_⟩⟩
    simpa using hclose
  by_cases hrd : rd = .ok []
  · subst hrd
    cases hcloses : c.channel.revents.closes with
    | true =>
      have hstate := hdown.2 hcloses
      refine .inr ⟨hexec.trans (handleRead_end_eq_none h₀.input ?_), ?_⟩
      · change ¬ (c.state = .kConnected ∨ c.state = .kDisconnecting)
        rw [hstate]
        decide
      · intro horderly
        have := horderly (by rw [hpass]; rfl) rfl
        rw [hcloses] at this
        cases this
    | false =>
      have hlive := h.live_of_pass hpass fun hc => by simp [hdown.1 hc] at hcloses
      obtain ⟨b, hb, hrun⟩ := handleRead_end h₀.input
      have h₁ : Life { c with pass := pass, inputBuffer := b } :=
        h₀.calm (.keep (fun _ => hb) id rfl)
      exact .inl ⟨_, hexec.trans (hrun.trans (handleClose_eq (StateE.live_iff.1 hlive))),
        h₁.closed hlive hsorted.of_cons hclose (fun hmem => absurd hmem hread), fun _ _ => hcloses⟩
  · obtain ⟨c', hrun, hcalm⟩ := handleRead_calm h₀.input hrd
    exact .inl ⟨c', hexec.trans hrun, h₀.calm hcalm, fun _ hr => absurd hr hrd⟩

theorem handle_fine (h : Life c)
    (henabled : c.Enabled (.handle rd io)) : Fine c (.handle rd io) := by
  obtain ⟨hne, hfits⟩ := henabled
  obtain ⟨hd, pass, hpass⟩ := exists_cons_of_ne_nil hne
  have hexec : c.exec (.handle rd io) = { c with pass := pass }.handle hd rd io := by
    simp only [exec, hpass]
  have horderly : hd ≠ .read → c.Orderly (.handle rd io) := by
    intro hother hhead
    rw [hpass] at hhead
    exact absurd (Option.some.inj hhead) hother
  cases hd with
  | read => exact read_fine h hpass
  | error => exact .inl ⟨_, hexec, h.skip hpass (by decide), horderly (by decide)⟩
  | write =>
    obtain ⟨c', hrun, hcalm⟩ := handleWrite_calm (h.skip hpass (by decide)) hfits
    exact .inl ⟨c', hexec.trans hrun, (h.skip hpass (by decide)).calm hcalm,
      horderly (by decide)⟩
  | close =>
    obtain ⟨hstate, hcloses⟩ := h.passClose (by rw [hpass]; exact mem_cons_self)
    have hlive := h.live_of_pass hpass hstate
    have hsorted := h.sorted
    rw [hpass] at hsorted
    have hclose : .close ∉ pass := fun hmem =>
      absurd (rel_of_pairwise_cons hsorted hmem) (by decide)
    exact .inl ⟨_, hexec.trans (handleClose_eq (StateE.live_iff.1 hlive)),
      h.closed hlive hsorted.of_cons hclose (fun _ => hcloses), horderly (by decide)⟩

theorem Life.poll (h : Life c) (hregistered : c.channel.registered = true) (r : Revents) :
    Life { c with
      channel := { c.channel with revents := r }
      pass := handleEventWithGuard r } := by
  have hlive := h.live_of_not_idle fun hidle => by simp [hidle.registered] at hregistered
  have hopen := h.isOpen hlive
  obtain ⟨hconnecting, hup⟩ := StateE.live_iff_ne.1 hlive
  refine ⟨h.input, h.output, fun hc => absurd hc hconnecting, h.functors,
    fun _ => ⟨hopen.reading, hopen.index, hopen.registered⟩, ?_, h.callbacks, h.closes,
    handleEventWithGuard_sorted r, ?_, ?_, fun hd => absurd (h.destroyed hd).1 hup⟩
  · intro hoff
    cases hlive.symm.trans hoff
  · intro hmem
    exact ⟨hup, close_mem_handleEventWithGuard.1 hmem⟩
  · intro _
    refine iff_of_false hup ?_
    rintro ⟨hcloses, hmem⟩
    exact hmem (close_mem_handleEventWithGuard.2 hcloses)

theorem exec_fine (h : Life c) {l : Label} (hl : l.closing = true) (henabled : c.Enabled l) :
    Fine c l := by
  cases l with
  | call u inLoop io => exact fine_of_calm h (call_calm h hl henabled) trivial
  | functor io => exact functor_fine h henabled
  | expire =>
    have htick : Calm c { c with timers := c.timers - 1 } := .keep id id rfl
    exact fine_of_calm h ⟨_, rfl, htick.trans calm_forceClose⟩ trivial
  | poll r => exact .inl ⟨_, rfl, h.poll henabled.2 r, trivial⟩
  | handle rd wr => exact handle_fine h henabled
  | destroy => exact fine_of_calm h ⟨_, rfl, calm_queueInLoop rfl⟩ trivial

def Proper (s : Option TcpConnection) (l : Label) : Prop :=
  l.closing = true ∧ ∀ c, s = some c → c.Orderly l

theorem life_of_reachable {s : Option TcpConnection} (h : Reachable Initial Step Proper s) :
    ∃ c, s = some c ∧ Life c := by
  refine h.invariant (P := fun s => ∃ c, s = some c ∧ Life c) ?_ ?_
  · rintro s ⟨writeComplete, highWater, mark, hs⟩
    obtain ⟨input, output, hinput, houtput, -, hcreate⟩ := create_spec writeComplete highWater mark
    refine ⟨_, hs.trans hcreate, ?_⟩
    constructor
    · exact hinput
    · exact houtput
    · intro _
      exact ⟨rfl, rfl, [], rfl, nofun⟩
    · intro hstate
      exact absurd rfl hstate
    · exact nofun
    · intro _
      exact ⟨rfl, rfl, rfl⟩
    · rfl
    · exact Nat.zero_le _
    · exact List.Pairwise.nil
    all_goals exact nofun
  · rintro s l s' ⟨c, rfl, hlife⟩ ⟨hl, horderly⟩ ⟨c', hc', henabled, rfl⟩
    cases hc'
    rcases exec_fine hlife hl henabled with ⟨c', hexec, hlife', -⟩ | ⟨-, hnot⟩
    · exact ⟨c', hexec, hlife'⟩
    · exact absurd (horderly c rfl) hnot

/-- In orderly runs no assertion fails, the user is told of the connection once when it comes up and
once when it goes down, and the server or client at most once that it has been closed. In their
states the next step makes an assertion fail exactly when it is not orderly. -/
theorem orderly_lifecycle {s : Option TcpConnection} (h : Reachable Initial Step Proper s) :
    ∃ c, s = some c ∧ c.connectionCallbacks = c.state.callbacks ∧ c.closeCallbacks ≤ 1 ∧
      (c.destroyed = true → c.state = .kDisconnected ∧ c.channel.addedToLoop = false) ∧
      ∀ l, l.closing = true → c.Enabled l → (c.exec l ≠ none ↔ c.Orderly l) := by
  obtain ⟨c, rfl, hlife⟩ := life_of_reachable h
  have hcloses : c.closeCallbacks ≤ 1 := by
    refine hlife.closes.trans ?_
    split <;> decide
  refine ⟨c, rfl, hlife.callbacks, hcloses, hlife.destroyed, ?_⟩
  intro l hl henabled
  rcases exec_fine hlife hl henabled with ⟨c', hexec, -, horderly⟩ | ⟨hexec, hnot⟩
  · exact iff_of_true (by rw [hexec]; simp) horderly
  · exact iff_of_false (by rw [hexec]; simp) hnot

/-- `POLLHUP` with `POLLPRI` and a read of zero bytes; and `connectDestroyed` behind `shutdown`. -/
theorem disorderly_assertion_fails :
    (∃ c, Reachable Initial Step (fun _ l => l.closing = true) (some c) ∧
      c.channel.revents = ⟨false, true, false, true, false, false, false⟩ ∧ c.pass = [.read] ∧
      c.Enabled (.handle (.ok []) (.ok 0)) ∧ c.exec (.handle (.ok []) (.ok 0)) = none) ∧
    ∃ c, Reachable Initial Step (fun _ l => l.closing = true) (some c) ∧
      c.shutdownWrites = [(.kDisconnecting, [])] ∧ c.functors = [.connectDestroyed] ∧
      c.Enabled (.functor (.ok 0)) ∧ c.exec (.functor (.ok 0)) = none := by
  obtain ⟨input, output, hinput, -, hnil, h⟩ := reachable_fresh (C := fun _ l => l.closing = true)
    fun _ _ => rfl
  have hfits : Fits (.ok 0) output.readableBytes := fits_ok (Nat.zero_le _)
  constructor
  · have h := reachable_exec h (.poll ⟨false, true, false, true, false, false, false⟩)
      ⟨rfl, rfl⟩ rfl rfl
    have h := reachable_exec h (.handle (.ok []) (.ok 0)) ⟨by simp [handleEventWithGuard],
      hfits⟩ rfl (handleClose_eq (.inl rfl))
    refine ⟨_, h, rfl, rfl, ⟨by simp [closed], hfits⟩, ?_⟩
    exact handleRead_end_eq_none hinput (by simp [closed])
  · have h := reachable_exec h (.call .shutdown true (.ok 0)) trivial rfl rfl
    have h := reachable_exec h .destroy trivial rfl rfl
    refine ⟨_, h, ?_, rfl, ⟨rfl, .connectDestroyed, rfl, trivial⟩, rfl⟩
    change [(StateE.kDisconnecting, output.contents)] = _
    rw [hnil]

/-- The peer hangs up, and the server lets go of the connection. -/
theorem orderly_lifecycle_end : ∃ c, Reachable Initial Step Proper (some c) ∧
    c.destroyed = true ∧ c.connectionCallbacks = [true, false] ∧ c.closeCallbacks ≤ 1 := by
  obtain ⟨input, output, -, -, -, h⟩ := reachable_fresh (C := Proper)
    fun c hc => ⟨rfl, fun c' hc' hhead => by cases hc'; rw [hc] at hhead; cases hhead⟩
  have hfits : Fits (.ok 0) output.readableBytes := fits_ok (Nat.zero_le _)
  have h := reachable_exec h (.poll ⟨false, false, false, true, false, false, false⟩) ⟨rfl, rfl⟩
    ⟨rfl, fun _ _ => trivial⟩ rfl
  have h := reachable_exec h (.handle (.ok []) (.ok 0))
    ⟨by simp [handleEventWithGuard], hfits⟩
    ⟨rfl, fun c hc hhead => by cases hc; cases hhead⟩ (handleClose_eq (.inl rfl))
  have h := reachable_exec h .destroy trivial ⟨rfl, fun _ _ => trivial⟩ rfl
  have h := reachable_exec h (.functor (.ok 0)) ⟨rfl, .connectDestroyed, rfl, trivial⟩
    ⟨rfl, fun c hc _ hstate => by cases hc; cases hstate⟩ rfl
  obtain ⟨c, hc, hcallbacks, hcloses, hdestroyed, -⟩ := orderly_lifecycle h
  cases hc
  refine ⟨_, h, rfl, ?_, hcloses⟩
  rw [hcallbacks]
  rfl

end TcpConnection
end JKYi.Net
