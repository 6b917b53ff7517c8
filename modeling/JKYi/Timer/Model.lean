import JKYi.Foundation.OrderedSet

/-!
# Timers

`Timer` and `TimerManager`. Timers are objects at addresses; the manager keeps a
`std::set` of pointers that is ordered by the deadline and then by the address,
so that the comparator reads the objects. Each function is the body of its
critical section, with the reading of the clock as an argument.
-/

namespace JKYi.Timers

def add64 (a b : ℕ) : ℕ := (a + b) % 2 ^ 64

def sub64 (a b : ℕ) : ℕ := (a + 2 ^ 64 - b) % 2 ^ 64

/-- `Timer`, with `none` for an empty `std::function`. -/
structure Timer (Cb : Type) where
  recurring : Bool
  ms : ℕ
  next : ℕ
  cb : Option Cb

variable {Cb : Type}

def Timer.new (now ms : ℕ) (cb : Option Cb) (recurring : Bool) : Timer Cb :=
  ⟨recurring, ms, add64 now ms, cb⟩

def Timer.probe (next : ℕ) : Timer Cb := ⟨false, 0, next, none⟩

/-- `Timer::Comparator::operator()`, with `none` for a null pointer. -/
def Comparator (heap : ℕ → Timer Cb) : Option ℕ → Option ℕ → Bool
  | none, none => false
  | none, some _ => true
  | some _, none => false
  | some l, some r =>
    if (heap l).next < (heap r).next then true
    else if (heap l).next > (heap r).next then false
    else decide (l < r)

def less (heap : ℕ → Timer Cb) (l r : ℕ) : Bool := Comparator heap (some l) (some r)

structure TimerManager (Cb : Type) where
  heap : ℕ → Timer Cb
  timers : List ℕ
  tickled : Bool
  previousTime : ℕ

namespace TimerManager

variable (m : TimerManager Cb)

def store (a : ℕ) (t : Timer Cb) : TimerManager Cb :=
  { m with heap := Function.update m.heap a t }

def find (a : ℕ) : Option ℕ := OrderedSet.find (less m.heap) a m.timers

def insert (a : ℕ) : TimerManager Cb :=
  { m with timers := OrderedSet.insert (less m.heap) a m.timers }

def eraseIdx (i : ℕ) : TimerManager Cb := { m with timers := m.timers.eraseIdx i }

/-- `TimerManager::addTimer(val, lock)`; the flag says that `onTimerInsertedAtFront` is called
behind the critical section. -/
def addTimer (a : ℕ) : TimerManager Cb × Bool :=
  let m' := m.insert a
  let atFront := decide (m'.timers.head? = some a) && !m'.tickled
  (if atFront then { m' with tickled := true } else m', atFront)

/-- `Timer::cancel`; `none` where it erases `end()`. -/
def cancel (a : ℕ) : Option (TimerManager Cb × Bool) :=
  if (m.heap a).cb.isSome then
    let m' := m.store a { m.heap a with cb := none }
    match m'.find a with
    | none => none
    | some i => some (m'.eraseIdx i, true)
  else some (m, false)

def refresh (now a : ℕ) : TimerManager Cb × Bool :=
  if (m.heap a).cb.isNone then (m, false)
  else
    match m.find a with
    | none => (m, false)
    | some i =>
      let m' := m.eraseIdx i
      ((m'.store a { m'.heap a with next := add64 now (m'.heap a).ms }).insert a, true)

/-- `Timer::reset` behind its test without the lock; the last flag is that of `addTimer`. -/
def resetLocked (now a ms : ℕ) (fromNow : Bool) : TimerManager Cb × Bool × Bool :=
  if (m.heap a).cb.isNone then (m, false, false)
  else
    match m.find a with
    | none => (m, false, false)
    | some i =>
      let m' := m.eraseIdx i
      let t := m'.heap a
      let start := if fromNow then now else sub64 t.next t.ms
      let r := (m'.store a { t with ms := ms, next := add64 start ms }).addTimer a
      (r.1, true, r.2)

def reset (now a ms : ℕ) (fromNow : Bool) : TimerManager Cb × Bool × Bool :=
  if ms = (m.heap a).ms ∧ fromNow = false then (m, true, false)
  else m.resetLocked now a ms fromNow

/-- `TimerManager::getNextTimer`. -/
def getNextTimer (now : ℕ) : TimerManager Cb × ℕ :=
  let m' := { m with tickled := false }
  match m'.timers with
  | [] => (m', 2 ^ 64 - 1)
  | a :: _ => (m', if now ≥ (m'.heap a).next then 0 else sub64 (m'.heap a).next now)

def deleteClockRollover (now : ℕ) : TimerManager Cb × Bool :=
  ({ m with previousTime := now },
    decide (now < m.previousTime ∧ now < sub64 m.previousTime (60 * 60 * 1000)))

def fire (now a : ℕ) : TimerManager Cb :=
  let t := m.heap a
  if t.recurring then (m.store a { t with next := add64 now t.ms }).insert a
  else m.store a { t with cb := none }

def expire (now : ℕ) : List ℕ → TimerManager Cb → List (Option Cb) →
    TimerManager Cb × List (Option Cb)
  | [], m, cbs => (m, cbs)
  | a :: expired, m, cbs => expire now expired (m.fire now a) (cbs ++ [(m.heap a).cb])

/-- The end of the range of expired timers: `lower_bound` of a new timer at the address `probe`,
and past the timers that are due now. -/
def expiredEnd (now probe : ℕ) (rollover : Bool) : ℕ :=
  let it := if rollover then m.timers.length
    else OrderedSet.lowerBound (less (Function.update m.heap probe (.probe now))) probe m.timers
  it + ((m.timers.drop it).takeWhile fun a => (m.heap a).next == now).length

/-- `TimerManager::listExpiredCb`, where `now` was read before the lock was taken. -/
def listExpiredCb (now probe : ℕ) (cbs : List (Option Cb)) :
    TimerManager Cb × List (Option Cb) :=
  match m.timers with
  | [] => (m, cbs)
  | first :: _ =>
    let r := m.deleteClockRollover now
    if !r.2 && decide ((m.heap first).next > now) then (r.1, cbs)
    else
      let it := m.expiredEnd now probe r.2
      expire now (m.timers.take it) { r.1 with timers := m.timers.drop it } cbs

end TimerManager
end JKYi.Timers
