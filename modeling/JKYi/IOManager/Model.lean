import JKYi.Foundation.Interleaving

/-!
# Events of file descriptors

Each descriptor has a context with a mask of events and, for each event, who is to be
run. `addEvent`, `delEvent`, `cancelEvent`, `cancelAll` and the event handling of `idle`
work on it under its lock. A critical section looks at the mask, calls `epoll_ctl` and
then makes its changes one by one; other threads are in the sections of other
descriptors meanwhile. Threads have no names: any number of them take part.
-/

namespace JKYi.IOManager

open Function

/-- `READ` and `WRITE`; a mask is the set of its events, `NONE` the empty one. -/
inductive Event where
  | READ
  | WRITE
  deriving DecidableEq

instance : Fintype Event := ⟨{.READ, .WRITE}, fun e => by cases e <;> decide⟩

structure EventContext (S : Type) where
  scheduler : Option S
  fiber : Option ℕ
  cb : Option ℕ
  deriving DecidableEq

structure FdContext (S : Type) where
  context : Event → EventContext S
  events : Finset Event

/-- What the code does to a context under its lock, and to `m_pendingEventCount`. -/
inductive Action (S : Type) where
  | increment
  | decrement
  | setEvent (e : Event)
  | clearEvent (e : Event)
  | assertEmpty (e : Event)
  | setScheduler (e : Event) (s : Option S)
  | storeFiber (e : Event) (r : ℕ)
  | storeCb (e : Event) (r : ℕ)
  | resetContext (e : Event)
  | assertSet (e : Event)
  | schedule (e : Event)
  | dropScheduler (e : Event)
  | assertNone
  deriving DecidableEq

/-- The flags `EPOLLIN` and `EPOLLOUT` of a result of `epoll_wait`, and whether it has `EPOLLERR`
or `EPOLLHUP`. -/
structure Report where
  epollin : Bool
  epollout : Bool
  failed : Bool
  deriving DecidableEq

/-- A call that has the lock; `scheduler` is what `Scheduler::GetThis()` returns, and `hasCb` says
whether there is a callback or the calling fiber is meant, which is running. -/
inductive Call (S : Type) where
  | addEvent (e : Event) (scheduler : Option S) (hasCb : Bool)
  | delEvent (e : Event)
  | cancelEvent (e : Event)
  | cancelAll
  | handle (report : Report)
  deriving DecidableEq

variable {S : Type}

namespace EventContext

def empty : EventContext S := ⟨none, none, none⟩

def take (ctx : EventContext S) : Option ℕ × EventContext S :=
  match ctx.cb with
  | some r => (some r, { ctx with cb := none })
  | none => (ctx.fiber, { ctx with fiber := none })

end EventContext

namespace FdContext

def create : FdContext S := ⟨fun _ => .empty, ∅⟩

variable (c : FdContext S)

def setContext (e : Event) (ctx : EventContext S) : FdContext S :=
  { c with context := update c.context e ctx }

def act : Action S → Option (FdContext S)
  | .increment => some c
  | .decrement => some c
  | .setEvent e => some { c with events := insert e c.events }
  | .clearEvent e => some { c with events := c.events.erase e }
  | .assertEmpty e =>
    let ctx := c.context e
    if ctx.scheduler.isNone && ctx.fiber.isNone && ctx.cb.isNone then some c else none
  | .setScheduler e s => some (c.setContext e { c.context e with scheduler := s })
  | .storeFiber e r => some (c.setContext e { c.context e with fiber := some r })
  | .storeCb e r => some (c.setContext e { c.context e with cb := some r })
  | .resetContext e => some (c.setContext e .empty)
  | .assertSet e => if e ∈ c.events then some c else none
  | .schedule e =>
    if (c.context e).scheduler.isSome then some (c.setContext e (c.context e).take.2) else none
  | .dropScheduler e => some (c.setContext e { c.context e with scheduler := none })
  | .assertNone => if c.events = ∅ then some c else none

def discards : Action S → List ℕ
  | .storeFiber e _ => (c.context e).fiber.toList
  | .storeCb e _ => (c.context e).cb.toList
  | .resetContext e => (c.context e).fiber.toList ++ (c.context e).cb.toList
  | _ => []

def schedules : Action S → List (S × ℕ)
  | .schedule e =>
    match (c.context e).scheduler, (c.context e).take.1 with
    | some s, some r => [(s, r)]
    | _, _ => []
  | _ => []

end FdContext

def Action.delta : Action S → ℤ
  | .increment => 1
  | .decrement => -1
  | _ => 0

def triggerEvent (e : Event) : List (Action S) :=
  [.assertSet e, .clearEvent e, .schedule e, .dropScheduler e]

/-- `triggerEvent` and the decrement for those of the two events that are in `events`. -/
def triggerEvents (events : Finset Event) : List (Action S) :=
  (if .READ ∈ events then triggerEvent .READ ++ [.decrement] else []) ++
    (if .WRITE ∈ events then triggerEvent .WRITE ++ [.decrement] else [])

namespace Report

variable (report : Report)

def ready : Finset Event :=
  (if report.epollin then {.READ} else ∅) ∪ (if report.epollout then {.WRITE} else ∅)

def realEvents (events : Finset Event) : Finset Event :=
  report.ready ∪ (if report.failed then events else ∅)

end Report

namespace Call

/-- The mask that a call passes to `epoll_ctl`, if it gets there; `none` for `continue` and
`return` before. -/
def request (events : Finset Event) : Call S → Option (Finset Event)
  | .addEvent e _ _ => some (insert e events)
  | .delEvent e => if e ∈ events then some (events.erase e) else none
  | .cancelEvent e => if e ∈ events then some (events.erase e) else none
  | .cancelAll => if events = ∅ then none else some ∅
  | .handle report =>
    if events ∩ report.realEvents events = ∅ then none
    else some (events \ report.realEvents events)

/-- What a call does once `epoll_ctl` has succeeded; `r` is the number of a new registration. -/
def actions (events : Finset Event) (r : ℕ) : Call S → List (Action S)
  | .addEvent e scheduler hasCb =>
    [.increment, .setEvent e, .assertEmpty e, .setScheduler e scheduler,
      if hasCb then .storeCb e r else .storeFiber e r]
  | .delEvent e => [.decrement, .clearEvent e, .resetContext e]
  | .cancelEvent e => .decrement :: triggerEvent e
  | .cancelAll => triggerEvents events ++ [.assertNone]
  | .handle report => triggerEvents (report.realEvents events)

def registers : Call S → Bool
  | .addEvent _ _ _ => true
  | _ => false

end Call

/-- What the lock of a context is held for. -/
inductive Stage (S : Type) where
  | free
  | entered (call : Call S)
  | acting (actions : List (Action S))
  deriving DecidableEq

def Stage.rest : Stage S → List (Action S)
  | .acting actions => actions
  | _ => []

/-- `kernel` holds the masks that `epoll_ctl` has installed and `reports` the results of
`epoll_wait` that `idle` has not come to. `registrations` counts the successful ones; those
discarded and those scheduled are listed. `failed` is the action that has ended the program. -/
structure State (F S : Type) where
  fds : F → FdContext S
  stage : F → Stage S
  pendingEventCount : ℤ
  kernel : F → Finset Event
  reports : List (F × Report)
  registrations : ℕ
  discarded : List ℕ
  scheduled : List (S × ℕ)
  failed : Option (F × Action S)

inductive Label (F S : Type) where
  | enter (fd : F) (call : Call S)
  | take (fd : F) (report : Report)
  | control (fd : F) (ok : Bool)
  | act (fd : F)
  | leave (fd : F)
  | epollWait (reports : List (F × Report))

variable {F : Type} [DecidableEq F]

/-- A call that takes the lock is none of `idle`. `control` is the part of a section up to the
result of `epoll_ctl`; `addEvent` of an event that is set ends at its own assertion, and nothing
follows. -/
inductive Step : State F S → Label F S → State F S → Prop
  | enter {s : State F S} {fd : F} {call : Call S} :
    s.failed = none → s.stage fd = .free → (∀ report, call ≠ .handle report) →
    Step s (.enter fd call) { s with stage := update s.stage fd (.entered call) }
  | take {s : State F S} {fd : F} {report : Report} :
    s.failed = none → s.stage fd = .free → (fd, report) ∈ s.reports →
    Step s (.take fd report)
      { s with
        stage := update s.stage fd (.entered (.handle report))
        reports := s.reports.erase (fd, report) }
  | control {s : State F S} {fd : F} {call : Call S} {mask : Finset Event} :
    s.failed = none → s.stage fd = .entered call →
    (∀ e scheduler hasCb, call = .addEvent e scheduler hasCb → e ∉ (s.fds fd).events) →
    call.request (s.fds fd).events = some mask →
    Step s (.control fd true)
      { s with
        stage := update s.stage fd
          (.acting (call.actions (s.fds fd).events s.registrations))
        kernel := update s.kernel fd mask
        registrations := s.registrations + (if call.registers then 1 else 0) }
  | giveUp {s : State F S} {fd : F} {call : Call S} :
    s.failed = none → s.stage fd = .entered call →
    (∀ e scheduler hasCb, call = .addEvent e scheduler hasCb → e ∉ (s.fds fd).events) →
    Step s (.control fd false) { s with stage := update s.stage fd (.acting []) }
  | act {s : State F S} {fd : F} {a : Action S} {rest : List (Action S)} {c : FdContext S} :
    s.failed = none → s.stage fd = .acting (a :: rest) → (s.fds fd).act a = some c →
    Step s (.act fd)
      { s with
        fds := update s.fds fd c
        stage := update s.stage fd (.acting rest)
        pendingEventCount := s.pendingEventCount + a.delta
        discarded := s.discarded ++ (s.fds fd).discards a
        scheduled := s.scheduled ++ (s.fds fd).schedules a }
  | fail {s : State F S} {fd : F} {a : Action S} {rest : List (Action S)} :
    s.failed = none → s.stage fd = .acting (a :: rest) → (s.fds fd).act a = none →
    Step s (.act fd) { s with failed := some (fd, a) }
  | leave {s : State F S} {fd : F} :
    s.failed = none → s.stage fd = .acting [] →
    Step s (.leave fd) { s with stage := update s.stage fd .free }
  | epollWait {s : State F S} {reports : List (F × Report)} :
    s.failed = none → (∀ p ∈ reports, p.2.ready ⊆ s.kernel p.1) →
    Step s (.epollWait reports) { s with reports := s.reports ++ reports }

def Initial (s : State F S) : Prop :=
  s = ⟨fun _ => .create, fun _ => .free, 0, fun _ => ∅, [], 0, [], [], none⟩

end JKYi.IOManager
