import JKYi.Foundation.Interleaving
import JKYi.Reactor.Buffer

/-!
# A connection of the reactor

`TcpConnection` with its `Channel`, and the loop thread as far as the connection
meets it: the functors queued to the loop, the timers of `forceCloseWithDelay` and
the handlers that the current poll result still has to run. Calls of the user come
from callbacks on the loop thread or from other threads, between any two of these.
A failed assertion ends the program: `none`.
-/

namespace JKYi.Net

open Buffer Option

/-- The flags of `poll(2)`. -/
structure Revents where
  pollin : Bool
  pollpri : Bool
  pollout : Bool
  pollhup : Bool
  pollrdhup : Bool
  pollerr : Bool
  pollnval : Bool
  deriving DecidableEq

inductive Index where
  | kNew
  | kAdded
  | kDeleted
  deriving DecidableEq

/-- `reading` and `writing` are the bits `kReadEvent` and `kWriteEvent` of `events_`; `registered`
says that the descriptor is in the epoll set. -/
structure Channel where
  reading : Bool
  writing : Bool
  revents : Revents
  index : Index
  registered : Bool
  addedToLoop : Bool
  deriving DecidableEq

/-- The callbacks of a channel. -/
inductive Handler where
  | close
  | error
  | read
  | write
  deriving DecidableEq

namespace Channel

/-- `Channel(loop, fd)`. -/
def create : Channel :=
  ⟨false, false, ⟨false, false, false, false, false, false, false⟩, .kNew, false, false⟩

variable (ch : Channel)

def isNoneEvent : Bool := !ch.reading && !ch.writing

/-- `update()`, with what `EpollPoller::updateChannel` does. -/
def update : Channel :=
  match ch.index with
  | .kNew => { ch with addedToLoop := true, index := .kAdded, registered := true }
  | .kDeleted => { ch with addedToLoop := true, index := .kAdded, registered := true }
  | .kAdded =>
    if ch.isNoneEvent then
      { ch with addedToLoop := true, index := .kDeleted, registered := false }
    else { ch with addedToLoop := true }

def enableReading : Channel := { ch with reading := true }.update

def disableReading : Channel := { ch with reading := false }.update

def enableWriting : Channel := { ch with writing := true }.update

def disableWriting : Channel := { ch with writing := false }.update

def disableAll : Channel := { ch with reading := false, writing := false }.update

def remove : Option Channel := do
  Buffer.assert ch.isNoneEvent
  return { ch with addedToLoop := false, index := .kNew, registered := false }

def handleEventWithGuard (r : Revents) : List Handler :=
  (if r.pollhup && !r.pollin then [.close] else []) ++
    (if r.pollerr || r.pollnval then [.error] else []) ++
      (if r.pollin || r.pollpri || r.pollrdhup then [.read] else []) ++
        (if r.pollout then [.write] else [])

end Channel

inductive StateE where
  | kDisconnected
  | kConnecting
  | kConnected
  | kDisconnecting
  deriving DecidableEq

/-- What is queued to the loop for a connection. -/
inductive Functor where
  | connectEstablished
  | connectDestroyed
  | sendInLoop (message : List UInt8)
  | shutdownInLoop
  | forceCloseInLoop
  | startReadInLoop
  | stopReadInLoop
  | writeCompleteCallback
  | highWaterMarkCallback (len : ℕ)
  deriving DecidableEq

/-- The fields `writeCompleteCallback` and `highWaterMarkCallback` say whether the callback is set.
`pass` is what is left of `handleEventWithGuard`, `timers` counts the pending timers of
`forceCloseWithDelay`. The last fields are history: the bytes the socket has taken, the messages of
`sendInLoop`, for each `shutdownWrite` the state and the unsent bytes, for each call of
`connectionCallback_` what `connected()` was, the calls of `closeCallback_`, and whether
`connectDestroyed` has run. -/
structure TcpConnection where
  state : StateE
  reading : Bool
  channel : Channel
  inputBuffer : Buffer
  outputBuffer : Buffer
  writeCompleteCallback : Bool
  highWaterMarkCallback : Bool
  highWaterMark : ℕ
  pass : List Handler
  functors : List Functor
  timers : ℕ
  written : List UInt8
  messages : List (List UInt8)
  shutdownWrites : List (StateE × List UInt8)
  connectionCallbacks : List Bool
  closeCallbacks : ℕ
  destroyed : Bool

namespace TcpConnection

def EPIPE : ℕ := 32

def ECONNRESET : ℕ := 104

/-- A connection as `TcpServer::newConnection` and `TcpClient::newConnection` make it, with
`connectEstablished` to be run. -/
def create (writeCompleteCallback highWaterMarkCallback : Bool) (highWaterMark : ℕ) :
    Option TcpConnection := do
  let inputBuffer ← Buffer.create kInitialSize
  let outputBuffer ← Buffer.create kInitialSize
  return ⟨.kConnecting, true, Channel.create, inputBuffer, outputBuffer, writeCompleteCallback,
    highWaterMarkCallback, highWaterMark, [], [.connectEstablished], 0, [], [], [], [], 0, false⟩

section

variable (c : TcpConnection)

def queueInLoop (f : Functor) : TcpConnection := { c with functors := c.functors ++ [f] }

def queueIf (b : Bool) (f : Functor) : TcpConnection :=
  { c with functors := if b then c.functors ++ [f] else c.functors }

def callConnectionCallback : TcpConnection :=
  { c with connectionCallbacks := c.connectionCallbacks ++ [decide (c.state = .kConnected)] }

def writeAtOnce (io : Except ℕ ℕ) : ℕ × Bool :=
  if !c.channel.writing && c.outputBuffer.readableBytes = 0 then
    match io with
    | .ok n => (n, false)
    | .error errno => (0, errno = EPIPE || errno = ECONNRESET)
  else (0, false)

def appendOutput (rest : List UInt8) : Option TcpConnection := do
  let oldLen := c.outputBuffer.readableBytes
  let c := c.queueIf (oldLen + rest.length ≥ c.highWaterMark && oldLen < c.highWaterMark &&
    c.highWaterMarkCallback) (.highWaterMarkCallback (oldLen + rest.length))
  let outputBuffer ← c.outputBuffer.append rest
  let channel := if c.channel.writing then c.channel else c.channel.enableWriting
  return { c with outputBuffer := outputBuffer, channel := channel }

/-- `sendInLoop(message, len)`, with `io` the result of `write`. As a `size_t` the difference
`remaining` is at most `len` just when it has not wrapped. -/
def sendInLoop (message : List UInt8) (io : Except ℕ ℕ) : Option TcpConnection := do
  let c := { c with messages := c.messages ++ [message] }
  if c.state = .kDisconnected then
    return c
  else
    let (nwrote, faultError) := c.writeAtOnce io
    Buffer.assert (nwrote ≤ message.length)
    let rest := message.drop nwrote
    let direct := !c.channel.writing && c.outputBuffer.readableBytes = 0 && io.isOk
    let c := c.queueIf (direct && rest.length = 0 && c.writeCompleteCallback) .writeCompleteCallback
    let c := { c with written := c.written ++ message.take nwrote }
    if !faultError && 0 < rest.length then c.appendOutput rest else return c

def shutdownInLoop : TcpConnection :=
  if !c.channel.writing then
    { c with shutdownWrites := c.shutdownWrites ++ [(c.state, c.outputBuffer.contents)] }
  else c

def handleClose : Option TcpConnection := do
  Buffer.assert (c.state = .kConnected ∨ c.state = .kDisconnecting)
  let c := { c with state := .kDisconnected, channel := c.channel.disableAll }
  let c := c.callConnectionCallback
  return { c with closeCallbacks := c.closeCallbacks + 1 }

def forceCloseInLoop : Option TcpConnection :=
  if c.state = .kConnected ∨ c.state = .kDisconnecting then c.handleClose else some c

def startReadInLoop : TcpConnection :=
  if !c.reading || !c.channel.reading then
    { c with reading := true, channel := c.channel.enableReading }
  else c

def stopReadInLoop : TcpConnection :=
  if c.reading || c.channel.reading then
    { c with reading := false, channel := c.channel.disableReading }
  else c

def connectEstablished : Option TcpConnection := do
  Buffer.assert (c.state = .kConnecting)
  let c := { c with state := .kConnected, channel := c.channel.enableReading }
  return c.callConnectionCallback

def connectDestroyed : Option TcpConnection := do
  let c := if c.state = .kConnected then
    { c with state := .kDisconnected, channel := c.channel.disableAll }.callConnectionCallback
  else c
  let channel ← c.channel.remove
  return { c with channel := channel, destroyed := true }

def handleRead (io : Except ℕ (List UInt8)) : Option TcpConnection := do
  let ((n, _), inputBuffer) ← c.inputBuffer.readFd io
  let c := { c with inputBuffer := inputBuffer }
  if n = 0 then c.handleClose else return c

def handleWrite (io : Except ℕ ℕ) : Option TcpConnection := do
  match c.channel.writing, io with
  | true, .ok (n + 1) =>
    let outputBuffer ← c.outputBuffer.retrieve (n + 1)
    let c := { c with
      outputBuffer := outputBuffer
      written := c.written ++ c.outputBuffer.contents.take (n + 1) }
    if c.outputBuffer.readableBytes = 0 then
      let c := { c with channel := c.channel.disableWriting }
      let c := c.queueIf c.writeCompleteCallback .writeCompleteCallback
      return if c.state = .kDisconnecting then c.shutdownInLoop else c
    else return c
  | _, _ => return c

/-- One of the callbacks that the constructor has set; `handleError` only logs. -/
def handle (h : Handler) (rd : Except ℕ (List UInt8)) (wr : Except ℕ ℕ) : Option TcpConnection :=
  match h with
  | .close => c.handleClose
  | .error => some c
  | .read => c.handleRead rd
  | .write => c.handleWrite wr

/-- A functor of the loop; the two callbacks of the user do nothing by themselves. -/
def run (f : Functor) (io : Except ℕ ℕ) : Option TcpConnection :=
  match f with
  | .connectEstablished => c.connectEstablished
  | .connectDestroyed => c.connectDestroyed
  | .sendInLoop message => c.sendInLoop message io
  | .shutdownInLoop => some c.shutdownInLoop
  | .forceCloseInLoop => c.forceCloseInLoop
  | .startReadInLoop => some c.startReadInLoop
  | .stopReadInLoop => some c.stopReadInLoop
  | .writeCompleteCallback => some c
  | .highWaterMarkCallback _ => some c

def runInLoop (inLoop : Bool) (f : Functor) (io : Except ℕ ℕ) : Option TcpConnection :=
  if inLoop then c.run f io else some (c.queueInLoop f)

def send (message : List UInt8) (inLoop : Bool) (io : Except ℕ ℕ) : Option TcpConnection :=
  if c.state = .kConnected then c.runInLoop inLoop (.sendInLoop message) io else some c

def shutdown (inLoop : Bool) (io : Except ℕ ℕ) : Option TcpConnection :=
  if c.state = .kConnected then
    { c with state := .kDisconnecting }.runInLoop inLoop .shutdownInLoop io
  else some c

def forceClose : TcpConnection :=
  if c.state = .kConnected ∨ c.state = .kDisconnecting then
    { c with state := .kDisconnecting }.queueInLoop .forceCloseInLoop
  else c

def forceCloseWithDelay : TcpConnection :=
  if c.state = .kConnected ∨ c.state = .kDisconnecting then
    { c with state := .kDisconnecting, timers := c.timers + 1 }
  else c

end

inductive UserCall where
  | send (message : List UInt8)
  | shutdown
  | forceClose
  | forceCloseWithDelay
  | startRead
  | stopRead
  | retrieve (len : ℕ)
  deriving DecidableEq

def call (c : TcpConnection) (u : UserCall) (inLoop : Bool) (io : Except ℕ ℕ) :
    Option TcpConnection :=
  match u with
  | .send message => c.send message inLoop io
  | .shutdown => c.shutdown inLoop io
  | .forceClose => some c.forceClose
  | .forceCloseWithDelay => some c.forceCloseWithDelay
  | .startRead => c.runInLoop inLoop .startReadInLoop io
  | .stopRead => c.runInLoop inLoop .stopReadInLoop io
  | .retrieve len => do
    let inputBuffer ← c.inputBuffer.retrieve len
    return { c with inputBuffer := inputBuffer }

/-- What happens next, with the results of the system calls: a call of the user, the first functor
of the loop, a timer of `forceCloseWithDelay`, a poll result for the channel, the next handler of
the pass, or `connectDestroyed` is queued by the server or the client. -/
inductive Label where
  | call (u : UserCall) (inLoop : Bool) (io : Except ℕ ℕ)
  | functor (io : Except ℕ ℕ)
  | expire
  | poll (r : Revents)
  | handle (rd : Except ℕ (List UInt8)) (wr : Except ℕ ℕ)
  | destroy

def exec (c : TcpConnection) : Label → Option TcpConnection
  | .call u inLoop io => c.call u inLoop io
  | .functor io =>
    match c.functors with
    | [] => some c
    | f :: functors => { c with functors := functors }.run f io
  | .expire => some { c with timers := c.timers - 1 }.forceClose
  | .poll r =>
    some { c with
      channel := { c.channel with revents := r }
      pass := Channel.handleEventWithGuard r }
  | .handle rd wr =>
    match c.pass with
    | [] => some c
    | h :: pass => { c with pass := pass }.handle h rd wr
  | .destroy => some (c.queueInLoop .connectDestroyed)

/-- `write` of `len` bytes writes at most these. -/
def Fits (io : Except ℕ ℕ) (len : ℕ) : Prop := ∀ n, io = .ok n → n ≤ len

theorem fits_ok {n len : ℕ} (h : n ≤ len) : Fits (.ok n) len := by
  intro n' hn'
  cases hn'
  exact h

def Functor.fits (io : Except ℕ ℕ) : Functor → Prop
  | .sendInLoop message => Fits io message.length
  | _ => True

/-- When a step can happen. Functors run while no channel is handled, and poll results arrive
while the descriptor is in the epoll set. -/
def Enabled (c : TcpConnection) : Label → Prop
  | .call (.send message) _ io => Fits io message.length
  | .call (.retrieve len) _ _ => len ≤ c.inputBuffer.readableBytes
  | .call _ _ _ => True
  | .functor io => c.pass = [] ∧ ∃ f ∈ c.functors.head?, Functor.fits io f
  | .expire => 0 < c.timers
  | .poll _ => c.pass = [] ∧ c.channel.registered = true
  | .handle _ wr => c.pass ≠ [] ∧ Fits wr c.outputBuffer.readableBytes
  | .destroy => True

/-- The state `none` is the end after a failed assertion. -/
def Initial (s : Option TcpConnection) : Prop :=
  ∃ writeCompleteCallback highWaterMarkCallback highWaterMark,
    s = create writeCompleteCallback highWaterMarkCallback highWaterMark

def Step (s : Option TcpConnection) (l : Label) (s' : Option TcpConnection) : Prop :=
  ∃ c, s = some c ∧ c.Enabled l ∧ s' = c.exec l

theorem reachable_exec {C : Option TcpConnection → Label → Prop} {c c' : TcpConnection}
    (h : Reachable Initial Step C (some c)) (l : Label) (henabled : c.Enabled l)
    (hl : C (some c) l) (hexec : c.exec l = some c') : Reachable Initial Step C (some c') :=
  h.andThen ⟨c, rfl, henabled, hexec.symm⟩ hl

variable {c c' : TcpConnection}

theorem create_spec (writeCompleteCallback highWaterMarkCallback : Bool) (highWaterMark : ℕ) :
    ∃ input output : Buffer, input.Wf ∧ output.Wf ∧ output.contents = [] ∧
      create writeCompleteCallback highWaterMarkCallback highWaterMark =
        some ⟨.kConnecting, true, Channel.create, input, output, writeCompleteCallback,
          highWaterMarkCallback, highWaterMark, [], [.connectEstablished], 0, [], [], [], [], 0,
          false⟩ := by
  obtain ⟨b, hb, hwf, hnil, -⟩ := Buffer.create_spec Buffer.kInitialSize
  refine ⟨b, b, hwf, hwf, hnil, ?_⟩
  rw [create, hb, bind_eq_bind, bind_some, bind_some]
  rfl

def closed (c : TcpConnection) : TcpConnection :=
  { c with
    state := .kDisconnected
    channel := c.channel.disableAll
    connectionCallbacks := c.connectionCallbacks ++ [false]
    closeCallbacks := c.closeCallbacks + 1 }

theorem handleClose_eq (h : c.state = .kConnected ∨ c.state = .kDisconnecting) :
    c.handleClose = some c.closed := by
  rw [handleClose, assert_pos h]
  rfl

theorem handleClose_eq_none (h : ¬ (c.state = .kConnected ∨ c.state = .kDisconnecting)) :
    c.handleClose = none := by
  rw [handleClose, Buffer.assert, if_neg h]
  rfl

theorem handleClose_cases (h : c.handleClose = some c') :
    (c.state = .kConnected ∨ c.state = .kDisconnecting) ∧ c' = c.closed := by
  by_cases hlive : c.state = .kConnected ∨ c.state = .kDisconnecting
  · rw [handleClose_eq hlive] at h
    exact ⟨hlive, (Option.some.inj h).symm⟩
  · rw [handleClose_eq_none hlive] at h
    cases h

theorem forceCloseInLoop_cases (h : c.forceCloseInLoop = some c') :
    c' = c ∨ (c.state = .kConnected ∨ c.state = .kDisconnecting) ∧ c' = c.closed := by
  unfold forceCloseInLoop at h
  split at h
  · exact .inr (handleClose_cases h)
  · exact .inl (Option.some.inj h).symm

def established (c : TcpConnection) : TcpConnection :=
  { c with
    state := .kConnected
    channel := c.channel.enableReading
    connectionCallbacks := c.connectionCallbacks ++ [true] }

theorem connectEstablished_eq (h : c.state = .kConnecting) :
    c.connectEstablished = some c.established := by
  rw [connectEstablished, assert_pos h]
  rfl

theorem connectEstablished_cases (h : c.connectEstablished = some c') :
    c.state = .kConnecting ∧ c' = c.established := by
  by_cases hstate : c.state = .kConnecting
  · rw [connectEstablished_eq hstate] at h
    exact ⟨hstate, (Option.some.inj h).symm⟩
  · rw [connectEstablished, Buffer.assert, if_neg hstate] at h
    cases h

def disconnected (c : TcpConnection) : TcpConnection :=
  if c.state = .kConnected then
    { c with
      state := .kDisconnected
      channel := c.channel.disableAll
      connectionCallbacks := c.connectionCallbacks ++ [false] }
  else c

theorem remove_cases {ch ch' : Channel} (h : ch.remove = some ch') :
    ch.isNoneEvent = true ∧
      ch' = { ch with addedToLoop := false, index := .kNew, registered := false } := by
  by_cases hnone : ch.isNoneEvent = true
  · rw [Channel.remove, assert_pos hnone] at h
    exact ⟨hnone, (Option.some.inj h).symm⟩
  · rw [Channel.remove, Buffer.assert, if_neg hnone] at h
    cases h

theorem connectDestroyed_eq : c.connectDestroyed =
    c.disconnected.channel.remove.map fun channel =>
      { c.disconnected with channel := channel, destroyed := true } := by
  rw [connectDestroyed, disconnected, map_eq_bind]
  rfl

theorem connectDestroyed_cases (h : c.connectDestroyed = some c') :
    c.disconnected.channel.isNoneEvent = true ∧
      c' = { c.disconnected with
        channel := { c.disconnected.channel with
          addedToLoop := false
          index := .kNew
          registered := false }
        destroyed := true } := by
  rw [connectDestroyed_eq] at h
  obtain ⟨channel, hremove, rfl⟩ := map_eq_some_iff.1 h
  obtain ⟨hnone, rfl⟩ := remove_cases hremove
  exact ⟨hnone, rfl⟩

theorem handleRead_cases {io : Except ℕ (List UInt8)} (h : c.handleRead io = some c') :
    ∃ b, c' = { c with inputBuffer := b } ∨
      (c.state = .kConnected ∨ c.state = .kDisconnecting) ∧
        c' = { c with inputBuffer := b }.closed := by
  obtain ⟨⟨⟨n, errno⟩, b⟩, hread, h⟩ := bind_eq_some_iff.1 h
  refine ⟨b, ?_⟩
  change (if n = 0 then { c with inputBuffer := b }.handleClose
    else some { c with inputBuffer := b }) = some c' at h
  split at h
  · exact .inr (handleClose_cases h)
  · exact .inl (Option.some.inj h).symm

def fresh (input output : Buffer) : TcpConnection :=
  ⟨.kConnected, true, Channel.create.enableReading, input, output, false, false, 0, [], [], 0, [],
    [], [], [true], 0, false⟩

theorem reachable_fresh {C : Option TcpConnection → Label → Prop}
    (hC : ∀ c : TcpConnection, c.functors = [.connectEstablished] → C (some c) (.functor (.ok 0))) :
    ∃ input output, input.Wf ∧ output.Wf ∧ output.contents = [] ∧
      Reachable Initial Step C (some (fresh input output)) := by
  obtain ⟨input, output, hinput, houtput, hnil, hcreate⟩ := create_spec false false 0
  refine ⟨input, output, hinput, houtput, hnil, ?_⟩
  have h : Reachable Initial Step C (create false false 0) := .start ⟨false, false, 0, rfl⟩
  rw [hcreate] at h
  exact reachable_exec h (.functor (.ok 0)) ⟨rfl, .connectEstablished, rfl, trivial⟩ (hC _ rfl)
    (connectEstablished_eq rfl)

end TcpConnection
end JKYi.Net
