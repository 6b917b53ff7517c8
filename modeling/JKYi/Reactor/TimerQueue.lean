import JKYi.Foundation.OrderedSet
import JKYi.Foundation.Interleaving

/-!
# The timers of an event loop

`TimerQueue`: timers are objects at addresses, and the queue keeps pointers to them in a set
ordered by the expiration and then by the address, and again in a set by address and sequence
number. `none` is a failed assertion, or a use of an object that has been deleted.
-/

namespace JKYi.Net

structure Interval where
  positive : Bool
  microseconds : ℤ
  deriving DecidableEq, Repr

structure Timer where
  expiration : ℤ
  interval : Interval
  sequence : ℕ
  deriving DecidableEq, Repr

def Timer.isRepeat (t : Timer) : Bool := t.interval.positive

def Timer.restart (now : ℤ) (t : Timer) : Timer :=
  { t with expiration := if t.isRepeat then now + t.interval.microseconds else 0 }

/-- An expiration and a pointer. -/
abbrev Entry := ℤ × ℕ

/-- A pointer and a sequence number; also `TimerId`. -/
abbrev ActiveTimer := ℕ × ℕ

def entryLt (a b : Entry) : Bool := a.1 < b.1 || (a.1 == b.1 && a.2 < b.2)

def uintptrMax : ℕ := 2 ^ 64 - 1

/-- `timerfd` is the time for which the timer descriptor was set last. -/
structure TimerQueue where
  heap : ℕ → Option Timer
  numCreated : ℕ
  timers : List Entry
  activeTimers : List ActiveTimer
  callingExpiredTimers : Bool
  cancelingTimers : List ActiveTimer
  timerfd : Option ℤ

namespace TimerQueue

variable (q : TimerQueue)

def store (a : ℕ) (t : Option Timer) : TimerQueue := { q with heap := Function.update q.heap a t }

def sizesAgree : Bool := q.timers.length == q.activeTimers.length

def insert (a : ℕ) : Option (Bool × TimerQueue) := do
  guard q.sizesAgree
  let t ← q.heap a
  let earliestChanged := match q.timers with
    | [] => true
    | e :: _ => t.expiration < e.1
  guard ((t.expiration, a) ∉ q.timers)
  guard ((a, t.sequence) ∉ q.activeTimers)
  let q := { q with
    timers := OrderedSet.insert entryLt (t.expiration, a) q.timers
    activeTimers := (a, t.sequence) :: q.activeTimers }
  guard q.sizesAgree
  pure (earliestChanged, q)

def addTimer (a : ℕ) (timestamp : ℤ) (interval : Interval) : Option (ActiveTimer × TimerQueue) := do
  let q := { q with numCreated := q.numCreated + 1 }
  let (earliestChanged, q) ← (q.store a (some ⟨timestamp, interval, q.numCreated⟩)).insert a
  let q := if earliestChanged then { q with timerfd := some timestamp } else q
  pure ((a, q.numCreated), q)

def cancelInLoop (timer : ActiveTimer) : Option TimerQueue := do
  guard q.sizesAgree
  let q ← if timer ∈ q.activeTimers then do
      let t ← q.heap timer.1
      guard ((t.expiration, timer.1) ∈ q.timers)
      pure { q.store timer.1 none with
        timers := q.timers.erase (t.expiration, timer.1)
        activeTimers := q.activeTimers.erase timer }
    else if q.callingExpiredTimers then
      pure { q with cancelingTimers := timer :: q.cancelingTimers }
    else pure q
  guard q.sizesAgree
  pure q

def eraseActive : List Entry → TimerQueue → Option TimerQueue
  | [], q => some q
  | e :: expired, q => do
    let t ← q.heap e.2
    guard ((e.2, t.sequence) ∈ q.activeTimers)
    eraseActive expired { q with activeTimers := q.activeTimers.erase (e.2, t.sequence) }

def getExpired (now : ℤ) : Option (List Entry × TimerQueue) := do
  guard q.sizesAgree
  let last := OrderedSet.lowerBound entryLt (now, uintptrMax) q.timers
  guard (∀ e ∈ (q.timers.drop last).head?, now < e.1)
  let expired := q.timers.take last
  let q ← eraseActive expired { q with timers := q.timers.drop last }
  guard q.sizesAgree
  pure (expired, q)

def restartAll (now : ℤ) : List Entry → TimerQueue → Option TimerQueue
  | [], q => some q
  | e :: expired, q => do
    let t ← q.heap e.2
    if t.isRepeat ∧ (e.2, t.sequence) ∉ q.cancelingTimers then do
      let (_, q) ← (q.store e.2 (some (t.restart now))).insert e.2
      restartAll now expired q
    else restartAll now expired (q.store e.2 none)

def reset (expired : List Entry) (now : ℤ) : Option TimerQueue := do
  let q ← restartAll now expired q
  match q.timers with
  | [] => pure q
  | e :: _ => do
    let t ← q.heap e.2
    if 0 < t.expiration then pure { q with timerfd := some t.expiration } else pure q

end TimerQueue

/-- A call of `handleRead` while it runs the callbacks: `todo` are the timers whose turn is
still to come. -/
structure Batch where
  now : ℤ
  expired : List Entry
  todo : List Entry

/-- The queue, and the call of `handleRead` that is going on. -/
structure TimerLoop where
  queue : TimerQueue
  batch : Option Batch

namespace TimerLoop

open TimerQueue

inductive Act
  | add (a : ℕ) (timestamp : ℤ) (interval : Interval)
  | cancel (timer : ActiveTimer)
  | handleRead (now : ℤ)
  | run (timer : ActiveTimer)
  | finish

def userCode (l : TimerLoop) : Prop := ∀ b ∈ l.batch, b.todo.length < b.expired.length

/-- The steps of the loop's thread. `handleRead` takes the expired timers out of the queue,
`run` begins a callback and `finish` is the rest behind the callbacks. A new object is where
none is, and the sequence number of a timer that is cancelled has been given out. -/
def step (l : TimerLoop) : Act → TimerLoop → Prop
  | .add a timestamp interval, l' => l.userCode ∧ l.queue.heap a = none ∧ a < uintptrMax ∧
      ∃ r, l.queue.addTimer a timestamp interval = some r ∧ l' = ⟨r.2, l.batch⟩
  | .cancel timer, l' => l.userCode ∧ timer.2 ≤ l.queue.numCreated ∧
      ∃ q, l.queue.cancelInLoop timer = some q ∧ l' = ⟨q, l.batch⟩
  | .handleRead now, l' => l.batch = none ∧ ∃ r, l.queue.getExpired now = some r ∧
      l' = ⟨{ r.2 with callingExpiredTimers := true, cancelingTimers := [] }, some ⟨now, r.1, r.1⟩⟩
  | .run timer, l' => ∃ b e rest t, l.batch = some b ∧ b.todo = e :: rest ∧
      l.queue.heap e.2 = some t ∧ timer = (e.2, t.sequence) ∧
      l' = ⟨l.queue, some { b with todo := rest }⟩
  | .finish, l' => ∃ b, l.batch = some b ∧ b.todo = [] ∧
      ∃ q, TimerQueue.reset { l.queue with callingExpiredTimers := false } b.expired b.now =
        some q ∧ l' = ⟨q, none⟩

def initial (l : TimerLoop) : Prop :=
  l.batch = none ∧ l.queue.timers = [] ∧ l.queue.activeTimers = [] ∧
    l.queue.callingExpiredTimers = false ∧ ∀ a, l.queue.heap a = none

end TimerLoop
end JKYi.Net
