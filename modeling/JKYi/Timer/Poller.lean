import JKYi.Foundation.Interleaving
import JKYi.Timer.Expiry

/-!
# Pollers and the timers that wake them

Threads add, cancel, refresh and reset timers, collect the expired ones and ask
for the next deadline. A critical section is one step; the clock that `addTimer`
and `listExpiredCb` use is read before theirs, and `onTimerInsertedAtFront` is
called behind it. Each answer of `getNextTimer` is recorded with the calls of
`onTimerInsertedAtFront` since.
-/

namespace JKYi.Timers

/-- Where a thread is: in `addTimer` with a new timer, in `listExpiredCb` before and behind its
test for an empty set, or about to call `onTimerInsertedAtFront`. -/
inductive Phase where
  | outside
  | adding (a : ℕ)
  | expiring (now : ℕ)
  | expirable (now : ℕ)
  | notifying
  deriving DecidableEq

/-- A call of `getNextTimer`: the clock, the answer, the deadline of the first timer (`none`
without a timer), whether `onTimerInsertedAtFront` has been called since, and the threads that
have inserted a timer at the front since and call it then. -/
structure Poll (W : Type) where
  now : ℕ
  timeout : ℕ
  deadline : Option ℕ
  called : Bool
  about : List W

structure State (W Cb : Type) where
  manager : TimerManager Cb
  clock : ℕ
  phase : W → Phase
  polls : List (Poll W)

variable {W Cb : Type} [DecidableEq W]

namespace State

variable (s : State W Cb)

def setPhase (w : W) (q : Phase) : State W Cb := { s with phase := Function.update s.phase w q }

def leave (w : W) (m : TimerManager Cb) (atFront : Bool) : State W Cb where
  manager := m
  clock := s.clock
  phase := Function.update s.phase w (if atFront then .notifying else .outside)
  polls := if atFront then s.polls.map fun p => { p with about := w :: p.about } else s.polls

def poll : State W Cb :=
  { s with
    manager := (s.manager.getNextTimer s.clock).1
    polls := ⟨s.clock, (s.manager.getNextTimer s.clock).2,
      s.manager.timers.head?.map fun a => (s.manager.heap a).next, false, []⟩ :: s.polls }

def notify (w : W) : State W Cb :=
  { s.setPhase w .outside with polls := s.polls.map fun p => { p with called := true } }

end State

/-- The calls of a step that conditions refer to. -/
inductive Label where
  | create (ms : ℕ)
  | refresh (a : ℕ)
  | reset (a ms : ℕ) (fromNow : Bool)
  | expire (now : ℕ)
  | other

/-- One step of some thread, or of the clock. -/
inductive Step (s : State W Cb) : Label → State W Cb → Prop
  | tick (c : ℕ) (hc : s.clock ≤ c) : Step s .other { s with clock := c }
  | create (w : W) (a ms : ℕ) (cb : Option Cb) (recurring : Bool) (hp : s.phase w = .outside)
      (hset : a ∉ s.manager.timers) (hnew : ∀ v, s.phase v ≠ .adding a) :
      Step s (.create ms) ({ s with
        manager := s.manager.store a (.new s.clock ms cb recurring) }.setPhase w (.adding a))
  | add (w : W) (a : ℕ) (hp : s.phase w = .adding a) :
      Step s .other (s.leave w (s.manager.addTimer a).1 (s.manager.addTimer a).2)
  | cancel (w : W) (a : ℕ) (r : TimerManager Cb × Bool) (hp : s.phase w = .outside)
      (hold : ∀ v, s.phase v ≠ .adding a) (hr : s.manager.cancel a = some r) :
      Step s .other (s.leave w r.1 false)
  | refresh (w : W) (a : ℕ) (hp : s.phase w = .outside) :
      Step s (.refresh a) (s.leave w (s.manager.refresh s.clock a).1 false)
  | reset (w : W) (a ms : ℕ) (fromNow : Bool) (hp : s.phase w = .outside) :
      Step s (.reset a ms fromNow) (s.leave w (s.manager.resetLocked s.clock a ms fromNow).1
        (s.manager.resetLocked s.clock a ms fromNow).2.2)
  | read (w : W) (hp : s.phase w = .outside) : Step s .other (s.setPhase w (.expiring s.clock))
  | empty (w : W) (now : ℕ) (hp : s.phase w = .expiring now) (hm : s.manager.timers = []) :
      Step s .other (s.setPhase w .outside)
  | nonempty (w : W) (now : ℕ) (hp : s.phase w = .expiring now) (hm : s.manager.timers ≠ []) :
      Step s .other (s.setPhase w (.expirable now))
  | expire (w : W) (now probe : ℕ) (hp : s.phase w = .expirable now)
      (hprobe : probe ∉ s.manager.timers) :
      Step s (.expire now) (s.leave w (s.manager.listExpiredCb now probe []).1 false)
  | poll (w : W) (hp : s.phase w = .outside) : Step s .other s.poll
  | notify (w : W) (hp : s.phase w = .notifying) : Step s .other (s.notify w)

/-- `TimerManager()`. -/
structure Initial (s : State W Cb) : Prop where
  timers : s.manager.timers = []
  tickled : s.manager.tickled = false
  previousTime : s.manager.previousTime = s.clock
  phase : ∀ w, s.phase w = .outside
  polls : s.polls = []

/-- No deadline overflows. -/
def NoOverflow (s : State W Cb) : Label → Prop
  | .create ms => s.clock + ms < 2 ^ 64
  | .refresh a => s.clock + (s.manager.heap a).ms < 2 ^ 64
  | .reset a ms fromNow =>
    (if fromNow then s.clock else (s.manager.heap a).next - (s.manager.heap a).ms) + ms < 2 ^ 64
  | .expire now => ∀ a ∈ s.manager.timers, now + (s.manager.heap a).ms < 2 ^ 64
  | .other => True

instance (s : State W Cb) : DecidablePred (NoOverflow s)
  | .create ms => inferInstanceAs (Decidable (s.clock + ms < 2 ^ 64))
  | .refresh a => inferInstanceAs (Decidable (s.clock + (s.manager.heap a).ms < 2 ^ 64))
  | .reset a ms fromNow => inferInstanceAs (Decidable ((if fromNow then s.clock
      else (s.manager.heap a).next - (s.manager.heap a).ms) + ms < 2 ^ 64))
  | .expire now =>
    inferInstanceAs (Decidable (∀ a ∈ s.manager.timers, now + (s.manager.heap a).ms < 2 ^ 64))
  | .other => .isTrue trivial

/-- `listExpiredCb` does not take its clock for one that has gone back. -/
def NoRollover (s : State W Cb) : Label → Prop
  | .expire now => (s.manager.deleteClockRollover now).2 = false
  | .create _ | .refresh _ | .reset _ _ _ | .other => True

end JKYi.Timers
