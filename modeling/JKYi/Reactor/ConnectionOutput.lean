import JKYi.Reactor.TcpConnection

/-!
# The bytes a connection sends

A message goes to the socket at once or waits in the output buffer, and what waits
goes out when the socket can take it. While the connection is up, the bytes written
and the bytes waiting are the messages of `sendInLoop` in order.
-/

namespace JKYi.Net

open TcpConnection List Option

namespace Channel

variable (ch : Channel)

@[simp] theorem update_writing : ch.update.writing = ch.writing := by
  unfold update
  split
  · rfl
  · rfl
  · split <;> rfl

@[simp] theorem enableReading_writing : ch.enableReading.writing = ch.writing :=
  update_writing _

@[simp] theorem disableReading_writing : ch.disableReading.writing = ch.writing :=
  update_writing _

@[simp] theorem enableWriting_writing : ch.enableWriting.writing = true := update_writing _

@[simp] theorem disableWriting_writing : ch.disableWriting.writing = false := update_writing _

end Channel

namespace TcpConnection

/-- Results of `write` other than `EPIPE` and `ECONNRESET`. -/
def NoReset (io : Except ℕ ℕ) : Prop := io ≠ .error EPIPE ∧ io ≠ .error ECONNRESET

/-- While the connection is up, nothing is lost, repeated or reordered on the way to the socket,
write events are asked for while bytes wait, and the socket is shut down when none do. -/
structure OutputInv (c : TcpConnection) : Prop where
  wf : c.outputBuffer.Wf
  stream : c.state ≠ .kDisconnected → c.written ++ c.outputBuffer.contents = c.messages.flatten
  writing : c.state ≠ .kDisconnected → (c.channel.writing = true ↔ c.outputBuffer.contents ≠ [])
  shutdowns : ∀ p ∈ c.shutdownWrites, p.1 ≠ .kDisconnected → p.2 = []

/-- What the invariant is about. -/
def output (c : TcpConnection) :
    Buffer × Bool × List UInt8 × List (List UInt8) × List (StateE × List UInt8) :=
  (c.outputBuffer, c.channel.writing, c.written, c.messages, c.shutdownWrites)

variable {c c' : TcpConnection} {io : Except ℕ ℕ}

theorem OutputInv.keep (h : OutputInv c) (hsame : c'.output = c.output)
    (hstate : c'.state ≠ .kDisconnected → c.state ≠ .kDisconnected) : OutputInv c' := by
  simp only [output, Prod.mk.injEq] at hsame
  obtain ⟨hbuffer, hwriting, hwritten, hmessages, hshutdowns⟩ := hsame
  constructor
  · rw [hbuffer]
    exact h.wf
  · intro hup
    rw [hbuffer, hwritten, hmessages]
    exact h.stream (hstate hup)
  · intro hup
    rw [hbuffer, hwriting]
    exact h.writing (hstate hup)
  · rw [hshutdowns]
    exact h.shutdowns

theorem OutputInv.contents_eq_nil (h : OutputInv c) (hup : c.state ≠ .kDisconnected)
    (hidle : c.channel.writing = false) : c.outputBuffer.contents = [] := by
  by_contra hne
  rw [(h.writing hup).2 hne] at hidle
  cases hidle

theorem OutputInv.shutdownInLoop (h : OutputInv c) : OutputInv c.shutdownInLoop := by
  unfold TcpConnection.shutdownInLoop
  split
  · rename_i hidle
    refine ⟨h.wf, h.stream, h.writing, ?_⟩
    intro p hp hup
    rcases mem_append.1 hp with hp | hp
    · exact h.shutdowns p hp hup
    · rw [mem_singleton.1 hp] at hup ⊢
      exact h.contents_eq_nil hup (by simpa using hidle)
  · exact h

theorem shutdownInLoop_state : c.shutdownInLoop.state = c.state := by
  unfold shutdownInLoop
  split <;> rfl

theorem appendOutput_eq {rest : List UInt8} {b : Buffer}
    (hb : c.outputBuffer.append rest = some b) :
    ∃ full len, c.appendOutput rest = some { c.queueIf full (.highWaterMarkCallback len) with
      outputBuffer := b
      channel := if c.channel.writing then c.channel else c.channel.enableWriting } := by
  refine ⟨c.outputBuffer.readableBytes + rest.length ≥ c.highWaterMark &&
    c.outputBuffer.readableBytes < c.highWaterMark && c.highWaterMarkCallback,
    c.outputBuffer.readableBytes + rest.length, ?_⟩
  rw [appendOutput]
  simp only [queueIf, hb, bind_eq_bind, bind_some]
  rfl

theorem appendOutput_spec {rest : List UInt8} (hwf : c.outputBuffer.Wf) (hrest : rest ≠ [])
    (hstream : c.written ++ (c.outputBuffer.contents ++ rest) = c.messages.flatten)
    (hshutdowns : ∀ p ∈ c.shutdownWrites, p.1 ≠ .kDisconnected → p.2 = []) :
    ∃ c', c.appendOutput rest = some c' ∧ OutputInv c' ∧ c'.state = c.state ∧
      c'.written = c.written ∧ c'.messages = c.messages := by
  obtain ⟨b, hb, hspec⟩ := Buffer.append_spec hwf rest
  have hne : b.contents ≠ [] := by
    rw [hspec.contents_eq]
    exact append_ne_nil_of_right_ne_nil _ hrest
  have hon : (if c.channel.writing then c.channel else c.channel.enableWriting).writing = true := by
    split
    · assumption
    · exact Channel.enableWriting_writing _
  obtain ⟨full, len, happend⟩ := appendOutput_eq hb
  refine ⟨_, happend, ⟨hspec.wf, ?_, ?_, hshutdowns⟩, rfl, rfl, rfl⟩
  · intro _
    rw [hspec.contents_eq]
    exact hstream
  · intro _
    exact iff_of_true hon hne

/-- What `sendInLoop` has written at once is a first part of the message, and nothing is written
at once behind bytes that wait. -/
theorem writeAtOnce_spec (hup : c.state ≠ .kDisconnected) (h : OutputInv c) {len : ℕ}
    (hfits : Fits io len) (hio : NoReset io) :
    ∃ nwrote, c.writeAtOnce io = (nwrote, false) ∧ nwrote ≤ len ∧
      (nwrote = 0 ∨ c.outputBuffer.contents = [] ∧ c.channel.writing = false) := by
  unfold writeAtOnce
  split
  · rename_i hidle
    rw [Bool.and_eq_true, Bool.not_eq_true'] at hidle
    cases io with
    | ok n => exact ⟨n, rfl, hfits n rfl, .inr ⟨h.contents_eq_nil hup hidle.1, hidle.1⟩⟩
    | error errno =>
      have h₁ : errno ≠ EPIPE := fun he => hio.1 (by rw [he])
      have h₂ : errno ≠ ECONNRESET := fun he => hio.2 (by rw [he])
      refine ⟨0, ?_, Nat.zero_le len, .inl rfl⟩
      simp only [decide_eq_false h₁, decide_eq_false h₂, Bool.or_self]
  · exact ⟨0, rfl, Nat.zero_le len, .inl rfl⟩

def accepted (c : TcpConnection) (b : Bool) (message : List UInt8) (nwrote : ℕ) : TcpConnection :=
  { c.queueIf b .writeCompleteCallback with
    messages := c.messages ++ [message]
    written := c.written ++ message.take nwrote }

theorem sendInLoop_eq (message : List UInt8) {nwrote : ℕ} {fault : Bool}
    (hup : c.state ≠ .kDisconnected) (hwrite : c.writeAtOnce io = (nwrote, fault))
    (hle : nwrote ≤ message.length) :
    ∃ b, c.sendInLoop message io =
      if !fault && 0 < (message.drop nwrote).length then
        (c.accepted b message nwrote).appendOutput (message.drop nwrote)
      else some (c.accepted b message nwrote) := by
  refine ⟨!c.channel.writing && c.outputBuffer.readableBytes = 0 && io.isOk &&
    (message.drop nwrote).length = 0 && c.writeCompleteCallback, ?_⟩
  have hwrite' : { c with messages := c.messages ++ [message] }.writeAtOnce io = (nwrote, fault) :=
    hwrite
  rw [sendInLoop]
  simp only [if_neg hup, hwrite', Buffer.assert_pos hle, bind_eq_bind, bind_some]
  rfl

theorem sendInLoop_spec (h : OutputInv c) {message : List UInt8} (hfits : Fits io message.length)
    (hio : NoReset io) :
    ∃ c', c.sendInLoop message io = some c' ∧ OutputInv c' ∧ c'.state = c.state := by
  by_cases hup : c.state = .kDisconnected
  · refine ⟨{ c with messages := c.messages ++ [message] }, ?_, ⟨h.wf, ?_, ?_, h.shutdowns⟩, rfl⟩
    · rw [sendInLoop, if_pos hup]
      rfl
    · intro hne
      exact absurd hup hne
    · intro hne
      exact absurd hup hne
  · obtain ⟨nwrote, hwrite, hle, hidle⟩ := writeAtOnce_spec hup h hfits hio
    have hstream : (c.written ++ message.take nwrote) ++
        (c.outputBuffer.contents ++ message.drop nwrote) = (c.messages ++ [message]).flatten := by
      rw [flatten_append, flatten_singleton, ← h.stream hup]
      rcases hidle with rfl | ⟨hnil, -⟩
      · simp
      · simp [hnil]
    obtain ⟨b, hsend⟩ := sendInLoop_eq message hup hwrite hle
    rw [hsend]
    split
    · rename_i hrest
      have hne : message.drop nwrote ≠ [] := ne_nil_of_length_pos (by simpa using hrest)
      obtain ⟨c', happend, hinv, hstate, -⟩ :=
        appendOutput_spec (c := c.accepted b message nwrote) h.wf hne hstream h.shutdowns
      exact ⟨c', happend, hinv, hstate⟩
    · rename_i hrest
      have hnil := drop_eq_nil_of_le (by simpa using hrest)
      rw [hnil, append_nil] at hstream
      exact ⟨_, rfl, ⟨h.wf, fun _ => hstream, h.writing, h.shutdowns⟩, rfl⟩

/-- What `handleWrite` may leave: the connection as it is, a part of the output, or none of it. -/
inductive Wrote (c : TcpConnection) : TcpConnection → Prop
  | idle : Wrote c c
  | part {n : ℕ} {b : Buffer} (writing : c.channel.writing = true)
      (spec : c.outputBuffer.Becomes b (c.outputBuffer.contents.drop n))
      (more : b.readableBytes ≠ 0) :
    Wrote c { c with
      outputBuffer := b
      written := c.written ++ c.outputBuffer.contents.take n }
  | all {n : ℕ} {b : Buffer} {c₁ : TcpConnection} (writing : c.channel.writing = true)
      (spec : c.outputBuffer.Becomes b (c.outputBuffer.contents.drop n))
      (done : b.readableBytes = 0) (drained : c₁ = { c with
        outputBuffer := b
        written := c.written ++ c.outputBuffer.contents.take n
        channel := c.channel.disableWriting }.queueIf c.writeCompleteCallback
          .writeCompleteCallback) :
    Wrote c (if c.state = .kDisconnecting then c₁.shutdownInLoop else c₁)

theorem handleWrite_wrote (h : c.outputBuffer.Wf) (hfits : Fits io c.outputBuffer.readableBytes) :
    ∃ c', c.handleWrite io = some c' ∧ Wrote c c' := by
  unfold handleWrite
  split
  · next n hwriting =>
    obtain ⟨b, hb, hspec⟩ := Buffer.retrieve_spec h (hfits (n + 1) rfl)
    simp only [hb, bind_eq_bind, bind_some]
    by_cases hdone : b.readableBytes = 0
    · rw [if_pos hdone]
      exact ⟨_, rfl, .all hwriting hspec hdone rfl⟩
    · rw [if_neg hdone]
      exact ⟨_, rfl, .part hwriting hspec hdone⟩
  · exact ⟨c, rfl, .idle⟩

theorem handleWrite_spec (h : OutputInv c) (hfits : Fits io c.outputBuffer.readableBytes) :
    ∃ c', c.handleWrite io = some c' ∧ OutputInv c' ∧ c'.state = c.state := by
  obtain ⟨c', hrun, hwrote⟩ := handleWrite_wrote h.wf hfits
  refine ⟨c', hrun, ?_⟩
  have hstream {n : ℕ} {b : Buffer}
      (hspec : c.outputBuffer.Becomes b (c.outputBuffer.contents.drop n))
      (hup : c.state ≠ .kDisconnected) :
      (c.written ++ c.outputBuffer.contents.take n) ++ b.contents = c.messages.flatten := by
    rw [hspec.contents_eq, append_assoc, take_append_drop]
    exact h.stream hup
  cases hwrote with
  | idle => exact ⟨h, rfl⟩
  | part hwriting hspec hmore =>
    have hne := mt hspec.wf.contents_eq_nil_iff.1 hmore
    exact ⟨⟨hspec.wf, hstream hspec, fun _ => iff_of_true hwriting hne, h.shutdowns⟩, rfl⟩
  | @all n b c₁ hwriting hspec hdone hdrained =>
    have hnil := hspec.wf.contents_eq_nil_iff.2 hdone
    have hinv : OutputInv c₁ ∧ c₁.state = c.state := by
      subst hdrained
      exact ⟨⟨hspec.wf, hstream hspec,
        fun _ => iff_of_false (by simp [queueIf]) (not_not.2 hnil), h.shutdowns⟩, rfl⟩
    split
    · exact ⟨hinv.1.shutdownInLoop, shutdownInLoop_state.trans hinv.2⟩
    · exact hinv

theorem OutputInv.closed (h : OutputInv c) : OutputInv c.closed :=
  ⟨h.wf, fun hup => absurd rfl hup, fun hup => absurd rfl hup, h.shutdowns⟩

theorem OutputInv.established (h : OutputInv c) (hstate : c.state = .kConnecting) :
    OutputInv c.established := by
  apply h.keep
  · simp [output, TcpConnection.established]
  · intro _
    rw [hstate]
    decide

theorem OutputInv.connectDestroyed (h : OutputInv c) (hrun : c.connectDestroyed = some c') :
    OutputInv c' := by
  obtain ⟨-, rfl⟩ := connectDestroyed_cases hrun
  unfold disconnected
  split_ifs
  · exact ⟨h.wf, fun hup => absurd rfl hup, fun hup => absurd rfl hup, h.shutdowns⟩
  · exact h.keep rfl id

def Functor.sends : Functor → Bool
  | .sendInLoop _ => true
  | .shutdownInLoop => true
  | .startReadInLoop => true
  | .stopReadInLoop => true
  | .writeCompleteCallback => true
  | .highWaterMarkCallback _ => true
  | _ => false

theorem OutputInv.startReadInLoop (h : OutputInv c) :
    OutputInv c.startReadInLoop ∧ c.startReadInLoop.state = c.state := by
  unfold TcpConnection.startReadInLoop
  split
  · exact ⟨h.keep (by simp [output]) id, rfl⟩
  · exact ⟨h, rfl⟩

theorem OutputInv.stopReadInLoop (h : OutputInv c) :
    OutputInv c.stopReadInLoop ∧ c.stopReadInLoop.state = c.state := by
  unfold TcpConnection.stopReadInLoop
  split
  · exact ⟨h.keep (by simp [output]) id, rfl⟩
  · exact ⟨h, rfl⟩

theorem run_spec (h : OutputInv c) {f : Functor} (hf : Functor.sends f = true)
    (hfits : Functor.fits io f) (hio : NoReset io) :
    ∃ c', c.run f io = some c' ∧ OutputInv c' ∧ c'.state = c.state := by
  cases f with
  | sendInLoop message => exact sendInLoop_spec h hfits hio
  | shutdownInLoop => exact ⟨_, rfl, h.shutdownInLoop, shutdownInLoop_state⟩
  | startReadInLoop => exact ⟨_, rfl, h.startReadInLoop⟩
  | stopReadInLoop => exact ⟨_, rfl, h.stopReadInLoop⟩
  | writeCompleteCallback | highWaterMarkCallback len => exact ⟨c, rfl, h, rfl⟩
  | connectEstablished | connectDestroyed | forceCloseInLoop => cases hf

theorem OutputInv.run (h : OutputInv c) {f : Functor} (hfits : Functor.fits io f)
    (hio : NoReset io) (hrun : c.run f io = some c') : OutputInv c' := by
  by_cases hf : Functor.sends f = true
  · obtain ⟨c₁, h₁, hinv, -⟩ := run_spec h hf hfits hio
    cases hrun.symm.trans h₁
    exact hinv
  · cases f with
    | connectEstablished =>
      obtain ⟨hstate, rfl⟩ := connectEstablished_cases hrun
      exact h.established hstate
    | connectDestroyed => exact h.connectDestroyed hrun
    | forceCloseInLoop =>
      rcases forceCloseInLoop_cases hrun with rfl | ⟨-, rfl⟩
      · exact h
      · exact h.closed
    | _ => exact absurd rfl hf

theorem OutputInv.handle (h : OutputInv c) {hd : Handler} {rd : Except ℕ (List UInt8)}
    (hfits : Fits io c.outputBuffer.readableBytes) (hrun : c.handle hd rd io = some c') :
    OutputInv c' := by
  cases hd with
  | close =>
    obtain ⟨-, rfl⟩ := handleClose_cases hrun
    exact h.closed
  | error =>
    cases hrun
    exact h
  | read =>
    obtain ⟨b, rfl | ⟨-, rfl⟩⟩ := handleRead_cases hrun
    · exact h.keep rfl id
    · have h₀ : OutputInv { c with inputBuffer := b } := h.keep rfl id
      exact h₀.closed
  | write =>
    obtain ⟨c₁, h₁, hinv, -⟩ := handleWrite_spec h hfits
    cases hrun.symm.trans h₁
    exact hinv

theorem runInLoop_spec (h : OutputInv c) {f : Functor} (hf : Functor.sends f = true)
    (hfits : Functor.fits io f) (hio : NoReset io) (inLoop : Bool) :
    ∃ c', c.runInLoop inLoop f io = some c' ∧ OutputInv c' ∧ c'.state = c.state := by
  cases inLoop with
  | true => exact run_spec h hf hfits hio
  | false => exact ⟨_, rfl, h.keep rfl id, rfl⟩

theorem OutputInv.disconnecting (h : OutputInv c)
    (hlive : c.state = .kConnected ∨ c.state = .kDisconnecting) (hsame : c'.output = c.output) :
    OutputInv c' := by
  refine h.keep hsame fun _ hdown => ?_
  rcases hlive with hlive | hlive
  · cases hdown.symm.trans hlive
  · cases hdown.symm.trans hlive

theorem OutputInv.forceClose (h : OutputInv c) : OutputInv c.forceClose := by
  unfold TcpConnection.forceClose
  split
  · exact h.disconnecting ‹_› rfl
  · exact h

theorem OutputInv.forceCloseWithDelay (h : OutputInv c) : OutputInv c.forceCloseWithDelay := by
  unfold TcpConnection.forceCloseWithDelay
  split
  · exact h.disconnecting ‹_› rfl
  · exact h

def UserCall.sends : UserCall → Bool
  | .send _ => true
  | .shutdown => true
  | .startRead => true
  | .stopRead => true
  | _ => false

theorem call_spec (h : OutputInv c) {u : UserCall} (hu : u.sends = true) {inLoop : Bool}
    (henabled : c.Enabled (.call u inLoop io)) (hio : NoReset io) :
    ∃ c', c.call u inLoop io = some c' ∧ OutputInv c' ∧
      (c'.state = .kDisconnected → c.state = .kDisconnected) := by
  cases u with
  | send message =>
    simp only [call, send]
    split
    · obtain ⟨c₁, h₁, hinv, hstate⟩ := runInLoop_spec (f := .sendInLoop message) h rfl henabled hio
        inLoop
      exact ⟨c₁, h₁, hinv, hstate ▸ id⟩
    · exact ⟨c, rfl, h, id⟩
  | shutdown =>
    simp only [call, shutdown]
    split
    · rename_i hup
      obtain ⟨c₁, h₁, hinv, hstate⟩ := runInLoop_spec (c := { c with state := .kDisconnecting })
        (f := .shutdownInLoop) (h.disconnecting (.inl hup) rfl) rfl trivial hio inLoop
      exact ⟨c₁, h₁, hinv, fun hdown => by cases hstate.symm.trans hdown⟩
    · exact ⟨c, rfl, h, id⟩
  | startRead =>
    obtain ⟨c₁, h₁, hinv, hstate⟩ := runInLoop_spec (f := .startReadInLoop) h rfl trivial hio inLoop
    exact ⟨c₁, h₁, hinv, hstate ▸ id⟩
  | stopRead =>
    obtain ⟨c₁, h₁, hinv, hstate⟩ := runInLoop_spec (f := .stopReadInLoop) h rfl trivial hio inLoop
    exact ⟨c₁, h₁, hinv, hstate ▸ id⟩
  | forceClose => cases hu
  | forceCloseWithDelay => cases hu
  | retrieve len => cases hu

theorem OutputInv.call (h : OutputInv c) {u : UserCall} {inLoop : Bool}
    (henabled : c.Enabled (.call u inLoop io)) (hio : NoReset io)
    (hrun : c.call u inLoop io = some c') : OutputInv c' := by
  by_cases hu : u.sends = true
  · obtain ⟨c₁, h₁, hinv, -⟩ := call_spec h hu henabled hio
    cases hrun.symm.trans h₁
    exact hinv
  · cases u with
    | forceClose =>
      cases hrun
      exact h.forceClose
    | forceCloseWithDelay =>
      cases hrun
      exact h.forceCloseWithDelay
    | retrieve len =>
      obtain ⟨b, -, hrun⟩ := bind_eq_some_iff.1 hrun
      cases hrun
      exact h.keep rfl id
    | _ => exact absurd rfl hu

/-- No system call of a step has ended with `EPIPE` or `ECONNRESET`. -/
def Label.NoReset : Label → Prop
  | .call _ _ io => TcpConnection.NoReset io
  | .functor io => TcpConnection.NoReset io
  | .handle _ wr => TcpConnection.NoReset wr
  | _ => True

theorem OutputInv.exec (h : OutputInv c) {l : Label} (henabled : c.Enabled l) (hio : l.NoReset)
    (hrun : c.exec l = some c') : OutputInv c' := by
  cases l with
  | call u inLoop io => exact h.call henabled hio hrun
  | functor io =>
    obtain ⟨-, f, hf, hfits⟩ := henabled
    obtain ⟨functors, hfunctors⟩ := head?_eq_some_iff.1 hf
    simp only [TcpConnection.exec, hfunctors] at hrun
    have h₀ : OutputInv { c with functors := functors } := h.keep rfl id
    exact h₀.run hfits hio hrun
  | expire =>
    cases hrun
    have h₀ : OutputInv { c with timers := c.timers - 1 } := h.keep rfl id
    exact h₀.forceClose
  | poll r | destroy =>
    cases hrun
    exact h.keep rfl id
  | handle rd wr =>
    obtain ⟨hpass, hfits⟩ := henabled
    obtain ⟨hd, pass, hpass⟩ := exists_cons_of_ne_nil hpass
    simp only [TcpConnection.exec, hpass] at hrun
    have h₀ : OutputInv { c with pass := pass } := h.keep rfl id
    exact h₀.handle hfits hrun

theorem outputInv_of_reachable {s : Option TcpConnection}
    (h : Reachable Initial Step (fun _ l => l.NoReset) s) : ∀ c, s = some c → OutputInv c := by
  refine h.invariant (P := fun s => ∀ c, s = some c → OutputInv c) ?_ ?_
  · rintro s ⟨writeComplete, highWater, mark, hs⟩ c hc
    obtain ⟨input, output, -, hwf, hnil, hcreate⟩ := create_spec writeComplete highWater mark
    obtain rfl := Option.some.inj (hcreate.symm.trans (hs.symm.trans hc))
    exact ⟨hwf, fun _ => hnil, fun _ => iff_of_false Bool.false_ne_true (not_not.2 hnil), nofun⟩
  · rintro s l s' ih hio ⟨c₀, rfl, henabled, rfl⟩ c hc
    exact (ih c₀ rfl).exec henabled hio hc

/-- Sending, write readiness, shutting down, starting and stopping to read. -/
def Sends (c : TcpConnection) : Label → Prop
  | .call u _ _ => u.sends = true
  | .functor _ => ∃ f ∈ c.functors.head?, Functor.sends f = true
  | .poll _ => True
  | .handle _ _ => c.pass.head? = some .write
  | _ => False

theorem exec_sends (h : OutputInv c) (hup : c.state ≠ .kDisconnected) {l : Label}
    (hl : c.Sends l) (henabled : c.Enabled l) (hio : l.NoReset) :
    ∃ c', c.exec l = some c' ∧ c'.state ≠ .kDisconnected := by
  cases l with
  | call u inLoop io =>
    obtain ⟨c', hrun, -, hstate⟩ := call_spec h hl henabled hio
    exact ⟨c', hrun, mt hstate hup⟩
  | functor io =>
    obtain ⟨-, f, hf, hfits⟩ := henabled
    obtain ⟨f', hf', hsends⟩ := hl
    cases mem_unique hf hf'
    obtain ⟨functors, hfunctors⟩ := head?_eq_some_iff.1 hf
    have h₀ : OutputInv { c with functors := functors } := h.keep rfl id
    obtain ⟨c', hrun, -, hstate⟩ := run_spec h₀ hsends hfits hio
    refine ⟨c', ?_, hstate.trans_ne hup⟩
    simp only [exec, hfunctors]
    exact hrun
  | poll r => exact ⟨_, rfl, hup⟩
  | handle rd wr =>
    obtain ⟨pass, hpass⟩ := head?_eq_some_iff.1 hl
    have h₀ : OutputInv { c with pass := pass } := h.keep rfl id
    obtain ⟨c', hrun, -, hstate⟩ := handleWrite_spec h₀ henabled.2
    refine ⟨c', ?_, hstate.trans_ne hup⟩
    simp only [exec, hpass]
    exact hrun
  | expire => cases hl
  | destroy => cases hl

/-- The connection in any run without `EPIPE` and `ECONNRESET`. -/
theorem output_in_order {s : Option TcpConnection}
    (h : Reachable Initial Step (fun _ l => l.NoReset) s) (c : TcpConnection) (hc : s = some c) :
    (c.state ≠ .kDisconnected → c.written ++ c.outputBuffer.contents = c.messages.flatten ∧
      (c.channel.writing = true ↔ c.outputBuffer.contents ≠ []) ∧
      ∀ l, c.Sends l → c.Enabled l → l.NoReset →
        ∃ c', c.exec l = some c' ∧ c'.state ≠ .kDisconnected) ∧
    ∀ p ∈ c.shutdownWrites, p.1 ≠ .kDisconnected → p.2 = [] := by
  have hinv := outputInv_of_reachable h c hc
  refine ⟨fun hup => ⟨hinv.stream hup, hinv.writing hup, ?_⟩, hinv.shutdowns⟩
  intro l hl henabled hio
  exact exec_sends hinv hup hl henabled hio

/-- Three bytes are sent, of which the socket takes one. -/
theorem output_in_order_send : ∃ c, Reachable Initial Step (fun _ l => l.NoReset) (some c) ∧
    c.state = .kConnected ∧ c.messages = [[1, 2, 3]] ∧ c.written = [1] ∧
    c.outputBuffer.contents = [2, 3] ∧ c.channel.writing = true := by
  have hio : ∀ n, NoReset (.ok n) := fun n => ⟨by simp, by simp⟩
  obtain ⟨input, output, -, hwf, hnil, h⟩ := reachable_fresh (C := fun _ l => l.NoReset)
    fun _ _ => hio 0
  have hfits : Fits (.ok 1) 3 := fits_ok (by decide)
  have hwrite : (fresh input output).writeAtOnce (.ok 1) = (1, false) := by
    rw [writeAtOnce]
    change (if !false && decide (output.readableBytes = 0) then _ else _) = _
    rw [hwf.contents_eq_nil_iff.1 hnil]
    rfl
  have hup : (fresh input output).state ≠ .kDisconnected := by simp [fresh]
  obtain ⟨b, hsend⟩ := sendInLoop_eq [1, 2, 3] hup hwrite (by decide)
  have hstream : [1] ++ (output.contents ++ [2, 3]) = [[(1 : UInt8), 2, 3]].flatten := by
    rw [hnil]
    rfl
  obtain ⟨c, happend, -, hstate, hwritten, hmessages⟩ :=
    appendOutput_spec (c := (fresh input output).accepted b [1, 2, 3] 1) hwf
      (cons_ne_nil 2 [3]) hstream nofun
  have h := reachable_exec h (.call (.send [1, 2, 3]) true (.ok 1)) hfits (hio 1)
    (hsend.trans happend)
  have hresult := (output_in_order h c rfl).1 (by rw [hstate]; exact hup)
  have hcontents : c.outputBuffer.contents = [2, 3] := by
    have hall := hresult.1
    rw [hwritten, hmessages] at hall
    exact (cons.inj hall).2
  refine ⟨c, h, hstate, hmessages, hwritten, hcontents, hresult.2.1.2 ?_⟩
  rw [hcontents]
  simp

end TcpConnection
end JKYi.Net
