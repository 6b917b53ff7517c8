import JKYi.Foundation.Interleaving

/-!
# The scheduler as a system of threads

Worker threads execute `Scheduler::run` on one queue of tasks. Every access to
what they share is a step of its own: the critical sections of `schedule` and of
the scan of the queue, the reads and writes of a fiber's state, the two context
switches and the counter of active workers. Code that runs in a fiber may yield,
return, throw and schedule tasks as it likes.
-/

namespace JKYi.Scheduler

open Function

inductive FiberState where
  | init
  | hold
  | exec
  | term
  | ready
  | except
  deriving DecidableEq

inductive Task where
  | fiber (f : ℕ)
  | cb
  deriving DecidableEq

def Task.fiber? : Task → Option ℕ
  | fiber f => some f
  | cb => none

/-- `FiberAndThread`, with `none` for the thread `-1`; entries are numbered in the order in
which they are queued. -/
structure Entry (W : Type) where
  id : ℕ
  task : Task
  thread : Option W
  deriving DecidableEq

/-- How a fiber gives up its worker: `YieldToReady`, `YieldToHold`, the end of its function
or an exception. -/
inductive Yield where
  | ready
  | hold
  | term
  | except
  deriving DecidableEq

/-- The state a fiber is in when it switches back. `YieldToHold` leaves it in `EXEC`. -/
def Yield.state : Yield → FiberState
  | ready => .ready
  | hold => .exec
  | term => .term
  | except => .except

/-- In `swapIn`: before the assertion, before the switch, and switched. -/
inductive Before where
  | entering
  | passed
  | running
  deriving DecidableEq

/-- In `swapOut` and behind `swapIn`: before the switch, before the decrement of the counter,
the two tests of the state, and what they lead to. -/
inductive After where
  | leaving
  | returned
  | checkReady
  | checkEnd
  | putBack
  | parking
  | recycling
  deriving DecidableEq

/-- Where a worker is in `run`. The entry is the one it has taken; `y` records how the fiber
gave up, which the code only sees through its state. -/
inductive Phase (W : Type) where
  | top
  | taken (e : Entry W)
  | before (at_ : Before) (e : Entry W) (f : ℕ)
  | after (at_ : After) (e : Entry W) (f : ℕ) (y : Yield)
  | dropping
  | idle
  | done
  deriving DecidableEq

structure Worker (W : Type) where
  phase : Phase W
  cbFiber : Option ℕ
  idleTerm : Bool

/-- What a fiber owes, by the calls so far: nothing yet, a run, nothing until it is scheduled
again, or nothing any more. -/
inductive Duty where
  | fresh
  | pending
  | parked
  | finished
  deriving DecidableEq

/-- A record of the calls, which the program does not keep. `job` is the callback that a
fiber executes. -/
structure Log (W : Type) where
  nextId : ℕ
  taken : List (ℕ × W)
  callbacks : List ℕ
  started : List ℕ
  finished : List ℕ
  job : ℕ → Option ℕ
  duty : ℕ → Duty
  readyYields : List ℕ
  putBacks : List ℕ

/-- The assertions of `swapIn`, of `YieldToReady` and `YieldToHold`, and of `reset`. -/
inductive Assertion where
  | swapIn
  | yield
  | reset
  deriving DecidableEq

structure State (W : Type) where
  queue : List (Entry W)
  active : ℤ
  fibers : ℕ → FiberState
  nextFiber : ℕ
  workers : W → Worker W
  autoStop : Bool
  stopping : Bool
  aborted : Option Assertion
  log : Log W

variable {W : Type} [DecidableEq W]

namespace State

variable (s : State W)

def phase (w : W) : Phase W := (s.workers w).phase

def cbFiber (w : W) : Option ℕ := (s.workers w).cbFiber

def setPhase (w : W) (p : Phase W) : State W :=
  { s with workers := update s.workers w { s.workers w with phase := p } }

def setCbFiber (w : W) (f : Option ℕ) : State W :=
  { s with workers := update s.workers w { s.workers w with cbFiber := f } }

def setIdleTerm (w : W) (b : Bool) : State W :=
  { s with workers := update s.workers w { s.workers w with idleTerm := b } }

def setFiber (f : ℕ) (st : FiberState) : State W :=
  { s with fibers := update s.fibers f st }

def setDuty (f : ℕ) (d : Duty) : State W :=
  { s with log := { s.log with duty := update s.log.duty f d } }

def setJob (f : ℕ) (j : Option ℕ) : State W :=
  { s with log := { s.log with job := update s.log.job f j } }

def push (t : Task) (thread : Option W) : State W :=
  let s' := { s with
    queue := s.queue ++ [⟨s.log.nextId, t, thread⟩]
    log := { s.log with
      nextId := s.log.nextId + 1
      callbacks := if t = .cb then s.log.callbacks ++ [s.log.nextId] else s.log.callbacks } }
  match t with
  | .fiber f => s'.setDuty f .pending
  | .cb => s'

/-- The critical section of both overloads of `schedule`. -/
def pushAll (ts : List (Task × Option W)) : State W := ts.foldl (fun s t => s.push t.1 t.2) s

/-- `Scheduler::stopping()`. -/
def isStopping : Bool := s.autoStop && s.stopping && s.queue.isEmpty && decide (s.active = 0)

def takable (w : W) (e : Entry W) : Bool :=
  decide (e.thread = none ∨ e.thread = some w) &&
    match e.task with
    | .fiber f => decide (s.fibers f ≠ .exec)
    | .cb => true

def dropCb (w : W) (e : Entry W) : State W :=
  if e.task = .cb then s.setCbFiber w none else s

/-- Starting to execute: `m_state = EXEC` and, for a callback, its first instruction. -/
def start (e : Entry W) (f : ℕ) : State W :=
  let s' := s.setFiber f .exec
  if e.task = .cb then { s' with log := { s'.log with started := s'.log.started ++ [e.id] } }
  else s'

def load (w : W) (e : Entry W) (f : ℕ) : State W :=
  (((s.setFiber f .init).setJob f (some e.id)).setDuty f .pending).setCbFiber w (some f)

def finishJob (f : ℕ) (y : Yield) : State W :=
  (({ s with log := { s.log with
      finished := s.log.finished ++ (s.log.job f).toList } }.setFiber f y.state).setJob f
    none).setDuty f .finished

end State

def scan (p : Entry W → Bool) : List (Entry W) → Option (Entry W × List (Entry W))
  | [] => none
  | e :: es => if p e then some (e, es) else (scan p es).map fun r => (r.1, e :: r.2)

def Resettable (st : FiberState) : Prop := st = .init ∨ st = .term ∨ st = .except

instance : DecidablePred Resettable := fun _ => inferInstanceAs (Decidable (_ ∨ _ ∨ _))

/-- The calls of a step that conditions refer to. -/
inductive Label (W : Type) where
  | schedule (ts : List (Task × Option W))
  | yieldReady (f : ℕ)
  | yieldHold (f : ℕ)
  | finish (f : ℕ)
  | flags (autoStop stopping : Bool)
  | other

inductive Move (s : State W) : Label W → State W → Prop
  | schedule (ts : List (Task × Option W)) : Move s (.schedule ts) (s.pushAll ts)
  | create : Move s .other { s.setFiber s.nextFiber .init with nextFiber := s.nextFiber + 1 }
  | flags (a b : Bool) : Move s (.flags a b) { s with autoStop := a, stopping := b }
  | take (w : W) (e : Entry W) (rest : List (Entry W)) (hp : s.phase w = .top)
      (hscan : scan (s.takable w) s.queue = some (e, rest)) :
      Move s .other ({ s with
        queue := rest
        active := s.active + 1
        log := { s.log with taken := s.log.taken ++ [(e.id, w)] } }.setPhase w (.taken e))
  | nothing (w : W) (hp : s.phase w = .top) (hscan : scan (s.takable w) s.queue = none) :
      Move s .other (s.setPhase w (if (s.workers w).idleTerm then .done else .idle))
  | idle (w : W) (b : Bool) (hp : s.phase w = .idle) (hb : b = true → s.isStopping = true) :
      Move s .other ((s.setIdleTerm w b).setPhase w .top)
  | pick (w : W) (e : Entry W) (f : ℕ) (hp : s.phase w = .taken e) (he : e.task = .fiber f)
      (hst : s.fibers f ≠ .term ∧ s.fibers f ≠ .except) :
      Move s .other (s.setPhase w (.before .entering e f))
  | skip (w : W) (e : Entry W) (f : ℕ) (hp : s.phase w = .taken e) (he : e.task = .fiber f)
      (hst : s.fibers f = .term ∨ s.fibers f = .except) : Move s .other (s.setPhase w .dropping)
  | loadNew (w : W) (e : Entry W) (hp : s.phase w = .taken e) (he : e.task = .cb)
      (hcb : s.cbFiber w = none) :
      Move s .other ({ s.load w e s.nextFiber with nextFiber := s.nextFiber + 1 }.setPhase w
        (.before .entering e s.nextFiber))
  | loadOld (w : W) (e : Entry W) (f : ℕ) (hp : s.phase w = .taken e) (he : e.task = .cb)
      (hcb : s.cbFiber w = some f) (hst : Resettable (s.fibers f)) :
      Move s .other ((s.load w e f).setPhase w (.before .entering e f))
  | loadAbort (w : W) (e : Entry W) (f : ℕ) (hp : s.phase w = .taken e) (he : e.task = .cb)
      (hcb : s.cbFiber w = some f) (hst : ¬ Resettable (s.fibers f)) :
      Move s .other { s with aborted := some .reset }
  | pass (w : W) (e : Entry W) (f : ℕ) (hp : s.phase w = .before .entering e f)
      (hst : s.fibers f ≠ .exec) : Move s .other (s.setPhase w (.before .passed e f))
  | passAbort (w : W) (e : Entry W) (f : ℕ) (hp : s.phase w = .before .entering e f)
      (hst : s.fibers f = .exec) : Move s .other { s with aborted := some .swapIn }
  | enter (w : W) (e : Entry W) (f : ℕ) (hp : s.phase w = .before .passed e f) :
      Move s .other ((s.start e f).setPhase w (.before .running e f))
  | yieldReady (w : W) (e : Entry W) (f : ℕ) (hp : s.phase w = .before .running e f)
      (hst : s.fibers f = .exec) :
      Move s (.yieldReady f) (({ s with log := { s.log with
        readyYields := s.log.readyYields ++ [f] } }.setFiber f .ready).setPhase w
          (.after .leaving e f .ready))
  | yieldHold (w : W) (e : Entry W) (f : ℕ) (hp : s.phase w = .before .running e f)
      (hst : s.fibers f = .exec) :
      Move s (.yieldHold f) ((s.setDuty f .parked).setPhase w (.after .leaving e f .hold))
  | yieldAbort (w : W) (e : Entry W) (f : ℕ) (hp : s.phase w = .before .running e f)
      (hst : s.fibers f ≠ .exec) : Move s .other { s with aborted := some .yield }
  | finish (w : W) (e : Entry W) (f : ℕ) (y : Yield) (hy : y = .term ∨ y = .except)
      (hp : s.phase w = .before .running e f) :
      Move s (.finish f) ((s.finishJob f y).setPhase w (.after .leaving e f y))
  | switched (w : W) (e : Entry W) (f : ℕ) (y : Yield)
      (hp : s.phase w = .after .leaving e f y) :
      Move s .other (s.setPhase w (.after .returned e f y))
  | decrement (w : W) (e : Entry W) (f : ℕ) (y : Yield)
      (hp : s.phase w = .after .returned e f y) :
      Move s .other ({ s with active := s.active - 1 }.setPhase w (.after .checkReady e f y))
  | isReady (w : W) (e : Entry W) (f : ℕ) (y : Yield)
      (hp : s.phase w = .after .checkReady e f y) (hst : s.fibers f = .ready) :
      Move s .other (s.setPhase w (.after .putBack e f y))
  | notReady (w : W) (e : Entry W) (f : ℕ) (y : Yield)
      (hp : s.phase w = .after .checkReady e f y) (hst : s.fibers f ≠ .ready) :
      Move s .other (s.setPhase w (.after .checkEnd e f y))
  | ended (w : W) (e : Entry W) (f : ℕ) (y : Yield)
      (hp : s.phase w = .after .checkEnd e f y)
      (hst : s.fibers f = .term ∨ s.fibers f = .except) :
      Move s .other (s.setPhase w (if e.task = .cb then .after .recycling e f y else .top))
  | notEnded (w : W) (e : Entry W) (f : ℕ) (y : Yield)
      (hp : s.phase w = .after .checkEnd e f y)
      (hst : s.fibers f ≠ .term ∧ s.fibers f ≠ .except) :
      Move s .other (s.setPhase w (.after .parking e f y))
  | putBack (w : W) (e : Entry W) (f : ℕ) (y : Yield)
      (hp : s.phase w = .after .putBack e f y) :
      Move s .other ((({ s with log := { s.log with
        putBacks := s.log.putBacks ++ [f] } }.push (.fiber f) none).dropCb w e).setPhase w .top)
  | park (w : W) (e : Entry W) (f : ℕ) (y : Yield) (hp : s.phase w = .after .parking e f y) :
      Move s .other (((s.setFiber f .hold).dropCb w e).setPhase w .top)
  | recycle (w : W) (e : Entry W) (f : ℕ) (y : Yield)
      (hp : s.phase w = .after .recycling e f y) (hst : Resettable (s.fibers f)) :
      Move s .other ((s.setFiber f .init).setPhase w .top)
  | recycleAbort (w : W) (e : Entry W) (f : ℕ) (y : Yield)
      (hp : s.phase w = .after .recycling e f y) (hst : ¬ Resettable (s.fibers f)) :
      Move s .other { s with aborted := some .reset }
  | drop (w : W) (hp : s.phase w = .dropping) :
      Move s .other ({ s with active := s.active - 1 }.setPhase w .top)

/-- A failed assertion ends the program. -/
def Step (s : State W) (l : Label W) (s' : State W) : Prop := s.aborted = none ∧ Move s l s'

/-- Before `start()`: no task is queued, and no fiber has been scheduled. -/
structure Initial (s : State W) : Prop where
  queue : s.queue = []
  active : s.active = 0
  fibers : ∀ f, s.fibers f = .init
  phase : ∀ w, s.phase w = .top
  cbFiber : ∀ w, s.cbFiber w = none
  aborted : s.aborted = none
  log : s.log = ⟨0, [], [], [], [], fun _ => none, fun _ => .fresh, [], []⟩

def State.new : State W where
  queue := []
  active := 0
  fibers _ := .init
  nextFiber := 0
  workers _ := ⟨.top, none, false⟩
  autoStop := false
  stopping := true
  aborted := none
  log := ⟨0, [], [], [], [], fun _ => none, fun _ => .fresh, [], []⟩

omit [DecidableEq W] in
theorem initial_new : Initial (State.new : State W) :=
  ⟨rfl, rfl, fun _ => rfl, fun _ => rfl, fun _ => rfl, rfl, rfl⟩

end JKYi.Scheduler
