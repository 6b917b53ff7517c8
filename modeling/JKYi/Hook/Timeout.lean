import JKYi.IOManager.Sections

/-!
# Hooked calls with a timeout

`do_io` and `connect_with_timeout` arm a condition timer, register an event for the
calling fiber and yield. The fiber is woken by the event, or by the callback of the
timer, which sets `tinfo->cancelled` and cancels the event. The callback runs on another
worker thread and does not wait for the registration.
-/

namespace JKYi.Hook

open IOManager Function List Option

/-- `do_io` goes back to `retry` after a wait, `connect_with_timeout` does not. -/
inductive Kind where
  | doIo
  | connect
  deriving DecidableEq

/-- Where the fiber is: in the system call, behind `addConditionTimer`, behind `addEvent`, behind
`YieldToHold` in its two halves, behind `timer->cancel()`, or out of the call. -/
inductive Pc where
  | calling
  | armed
  | registered
  | parked
  | resumed
  | checking
  | done
  deriving DecidableEq

/-- A timer in the set of the manager (`armed`), or its callback on the way to a worker, behind the
test of `t->cancelled`, behind the assignment to it, or over. -/
inductive Timer where
  | unused
  | armed
  | queued
  | tested
  | marked
  | over
  deriving DecidableEq

/-- `ctx` is the context of the descriptor, where another fiber may wait for the other event;
`scheduled` says that the fiber of the call is in the queue of a scheduler, and the timers are
numbered by the rounds of the call. -/
structure State (S : Type) where
  pc : Pc
  ctx : FdContext S
  scheduled : Bool
  cancelled : Bool
  timers : ℕ → Timer
  rounds : ℕ

/-- The labels of the callback carry the round of its timer, and those with a call of `epoll_ctl`
whether it succeeds. -/
inductive Label where
  | again
  | finish
  | addEvent (ok : Bool)
  | yield
  | resume
  | cancelTimer
  | check
  | expire (i : ℕ)
  | test (i : ℕ)
  | mark (i : ℕ)
  | cancelEvent (i : ℕ) (ok : Bool)
  | ready (report : Report)

variable {S : Type}

def scheduledBy (c : FdContext S) : List (Action S) → List (S × ℕ)
  | [] => []
  | a :: rest => c.schedules a ++ (c.act a).elim [] fun c' => scheduledBy c' rest

/-- Whether a section hands the fiber to a scheduler. -/
def wakes (fiber : ℕ) (c : FdContext S) (actions : List (Action S)) : Bool :=
  ((scheduledBy c actions).map Prod.snd).contains fiber

def cancelTimer (timers : ℕ → Timer) (i : ℕ) : ℕ → Timer :=
  if timers i = .armed then update timers i .over else timers

/-- The steps of a call of `fiber` that waits for `e` on the threads of `iom`. Sections under the
lock of the context are single steps; a callback finds `tinfo` gone once the call is over. -/
inductive Step (kind : Kind) (e : Event) (iom : S) (fiber : ℕ) :
    State S → Label → State S → Prop
  | again {s : State S} : s.pc = .calling →
    Step kind e iom fiber s .again
      { s with
        pc := .armed
        timers := update s.timers s.rounds .armed
        rounds := s.rounds + 1 }
  | finish {s : State S} : s.pc = .calling →
    Step kind e iom fiber s .finish { s with pc := .done }
  | addEvent {s : State S} {c : FdContext S} : s.pc = .armed → e ∉ s.ctx.events →
    s.ctx.settle ((Call.addEvent e (some iom) false).actions s.ctx.events fiber) = some c →
    Step kind e iom fiber s (.addEvent true) { s with pc := .registered, ctx := c }
  | addEventFails {s : State S} : s.pc = .armed →
    Step kind e iom fiber s (.addEvent false)
      { s with pc := .done, timers := Hook.cancelTimer s.timers (s.rounds - 1) }
  | yield {s : State S} : s.pc = .registered →
    Step kind e iom fiber s .yield { s with pc := .parked }
  | resume {s : State S} : s.pc = .parked → s.scheduled = true →
    Step kind e iom fiber s .resume { s with pc := .resumed, scheduled := false }
  | cancelTimer {s : State S} : s.pc = .resumed →
    Step kind e iom fiber s .cancelTimer
      { s with pc := .checking, timers := Hook.cancelTimer s.timers (s.rounds - 1) }
  | check {s : State S} : s.pc = .checking →
    Step kind e iom fiber s .check
      { s with pc := if s.cancelled then .done else if kind = .doIo then .calling else .done }
  | expire {s : State S} {i : ℕ} : s.timers i = .armed →
    Step kind e iom fiber s (.expire i) { s with timers := update s.timers i .queued }
  | test {s : State S} {i : ℕ} : s.timers i = .queued →
    Step kind e iom fiber s (.test i)
      { s with
        timers := update s.timers i
          (if s.pc = .done ∨ s.cancelled = true then .over else .tested) }
  | mark {s : State S} {i : ℕ} : s.timers i = .tested →
    Step kind e iom fiber s (.mark i)
      { s with cancelled := true, timers := update s.timers i .marked }
  | cancelEvent {s : State S} {i : ℕ} {mask : Finset Event} {c : FdContext S} :
    s.timers i = .marked → (Call.cancelEvent e : Call S).request s.ctx.events = some mask →
    s.ctx.settle ((Call.cancelEvent e).actions s.ctx.events fiber) = some c →
    Step kind e iom fiber s (.cancelEvent i true)
      { s with
        ctx := c
        scheduled := s.scheduled ||
          wakes fiber s.ctx ((Call.cancelEvent e).actions s.ctx.events fiber)
        timers := update s.timers i .over }
  | cancelNothing {s : State S} {i : ℕ} {ok : Bool} : s.timers i = .marked →
    ((Call.cancelEvent e : Call S).request s.ctx.events = none ∨ ok = false) →
    Step kind e iom fiber s (.cancelEvent i ok)
      { s with timers := update s.timers i .over }
  | ready {s : State S} {report : Report} {mask : Finset Event} {c : FdContext S} :
    (Call.handle report : Call S).request s.ctx.events = some mask →
    s.ctx.settle ((Call.handle report).actions s.ctx.events fiber) = some c →
    Step kind e iom fiber s (.ready report)
      { s with
        ctx := c
        scheduled := s.scheduled ||
          wakes fiber s.ctx ((Call.handle report).actions s.ctx.events fiber) }

def Initial (s : State S) : Prop :=
  s.pc = .calling ∧ s.ctx.Wf ∧ s.scheduled = false ∧ s.cancelled = false ∧
    s.timers = fun _ => .unused

/-- The callback sets `cancelled` while the event is registered or later, not between the system
call and `addEvent`, and when its `cancelEvent` finds the event, `epoll_ctl` succeeds. -/
def Timely (e : Event) (s : State S) : Label → Prop
  | .mark _ => s.pc ≠ .calling ∧ s.pc ≠ .armed
  | .cancelEvent _ ok => e ∈ s.ctx.events → ok = true
  | _ => True

/-- The timer will fire, or its callback is on the way to the assignment. -/
def Timer.pending (x : Timer) : Bool := x = .armed || x = .queued || x = .tested

def Pc.timed (pc : Pc) : Bool := pc = .armed || pc = .registered || pc = .parked

def State.waiting (s : State S) : Bool :=
  (s.pc = .registered || s.pc = .parked) && !s.scheduled

/-- A waiting fiber is in the context of its event. Once the call is marked as timed out a callback
is going to find it there, and before that the timer of the round is still to fire. -/
structure Inv (e : Event) (iom : S) (fiber : ℕ) (s : State S) : Prop where
  wf : s.ctx.Wf
  registered : s.waiting = true →
    e ∈ s.ctx.events ∧ s.ctx.context e = ⟨some iom, some fiber, none⟩
  running : s.cancelled = true → s.pc ≠ .calling ∧ s.pc ≠ .armed
  coming : s.cancelled = true → s.waiting = true → ∃ i, s.timers i = .marked
  pending : s.pc.timed = true → s.cancelled = false → (s.timers (s.rounds - 1)).pending = true

variable {kind : Kind} {e : Event} {iom : S} {fiber : ℕ} {s t : State S}

section

variable {c : FdContext S}

theorem scheduledBy_append (actions rest : List (Action S)) :
    scheduledBy c (actions ++ rest) = scheduledBy c actions ++
      (c.settle actions).elim [] fun c' => scheduledBy c' rest := by
  induction actions generalizing c with
  | nil => rfl
  | cons a actions ih =>
    rw [cons_append, scheduledBy, scheduledBy, settle_cons, append_assoc]
    cases c.act a with
    | none => rfl
    | some c' =>
      rw [elim_some, elim_some, bind_some, ih]

theorem wakes_append (actions rest : List (Action S)) :
    wakes fiber c (actions ++ rest) =
      (wakes fiber c actions || (c.settle actions).elim false fun c' => wakes fiber c' rest) := by
  rw [wakes, scheduledBy_append, map_append, contains_append]
  cases c.settle actions with
  | none => rfl
  | some c' => rfl

theorem wakes_triggerEvent (he : e ∈ c.events)
    (hctx : c.context e = ⟨some iom, some fiber, none⟩) :
    wakes fiber c (triggerEvent e) = true := by
  simp [wakes, triggerEvent, scheduledBy, FdContext.schedules, FdContext.act, he, hctx,
    EventContext.take]

theorem wakes_triggerEvents (h : c.Wf) {es : Finset Event} (hes : es ⊆ c.events) (he : e ∈ es)
    (hctx : c.context e = ⟨some iom, some fiber, none⟩) :
    wakes fiber c (triggerEvents es) = true := by
  rw [triggerEvents, wakes_append, settle_trigger_if h es fun he => hes he, elim_some]
  cases e with
  | READ =>
    rw [if_pos he, wakes_append, wakes_triggerEvent (hes he) hctx, Bool.true_or, Bool.true_or]
  | WRITE =>
    have hctx' : (c.clear ({.READ} ∩ es)).context .WRITE = ⟨some iom, some fiber, none⟩ := by
      rw [← hctx]
      simp [FdContext.clear]
    rw [if_pos he, wakes_append,
      wakes_triggerEvent ((mem_clear_READ es).2 (hes he)) hctx', Bool.true_or, Bool.or_true]

end

theorem Inv.of_not_timed (hwf : t.ctx.Wf) (htimed : t.pc.timed = false)
    (hrunning : t.cancelled = true → t.pc ≠ .calling) : Inv e iom fiber t := by
  simp only [Pc.timed, Bool.or_eq_false_iff, decide_eq_false_iff_not] at htimed
  obtain ⟨⟨harmed, hregistered⟩, hparked⟩ := htimed
  have hwaiting : t.waiting = false := by simp [State.waiting, hregistered, hparked]
  refine ⟨hwf, ?_, fun hcancelled => ⟨hrunning hcancelled, harmed⟩, ?_, ?_⟩
  · simp [hwaiting]
  · simp [hwaiting]
  · simp [Pc.timed, harmed, hregistered, hparked]

theorem Inv.move (h : Inv e iom fiber s) (hctx : t.ctx = s.ctx) (hwaiting : t.waiting = s.waiting)
    (hrunning : t.cancelled = true → t.pc ≠ .calling ∧ t.pc ≠ .armed)
    (hcoming : t.cancelled = true → s.waiting = true → ∃ i, t.timers i = .marked)
    (hpending : t.pc.timed = true → t.cancelled = false →
      (t.timers (t.rounds - 1)).pending = true) : Inv e iom fiber t := by
  refine ⟨?_, ?_, hrunning, ?_, hpending⟩
  · rw [hctx]
    exact h.wf
  · rw [hctx, hwaiting]
    exact h.registered
  · rw [hwaiting]
    exact hcoming

theorem Inv.coming_update (h : Inv e iom fiber s) {i : ℕ} (hi : s.timers i ≠ .marked)
    (x : Timer) : s.cancelled = true → s.waiting = true →
      ∃ j, update s.timers i x j = .marked := by
  intro hcancelled hwaiting
  obtain ⟨j, hj⟩ := h.coming hcancelled hwaiting
  refine ⟨j, ?_⟩
  rw [update_of_ne]
  · exact hj
  · rintro rfl
    exact hi hj

theorem Inv.pending_update (h : Inv e iom fiber s) {i : ℕ} {x : Timer}
    (hi : s.pc.timed = true → s.cancelled = false → (s.timers i).pending = true →
      x.pending = true) : s.pc.timed = true → s.cancelled = false →
      (update s.timers i x (s.rounds - 1)).pending = true := by
  intro htimed hcancelled
  have hpending := h.pending htimed hcancelled
  by_cases heq : s.rounds - 1 = i
  · rw [heq, update_self]
    rw [heq] at hpending
    exact hi htimed hcancelled hpending
  · rw [update_of_ne heq]
    exact hpending

theorem waiting_wake (c : FdContext S) (timers : ℕ → Timer) (b : Bool) :
    State.waiting { s with ctx := c, scheduled := s.scheduled || b, timers := timers } =
      (s.waiting && !b) := by
  simp [State.waiting, Bool.and_assoc]

theorem Inv.wake (h : Inv e iom fiber s) {c : FdContext S} (hwf : c.Wf) {b : Bool}
    (hb : s.waiting = true → b = true) {timers : ℕ → Timer}
    (hpending : s.pc.timed = true → s.cancelled = false → (timers (s.rounds - 1)).pending = true) :
    Inv e iom fiber { s with ctx := c, scheduled := s.scheduled || b, timers := timers } := by
  have hwaiting :
      State.waiting { s with ctx := c, scheduled := s.scheduled || b, timers := timers } =
        false := by
    rw [waiting_wake]
    cases hwaiting : s.waiting with
    | false => rfl
    | true => rw [hb hwaiting]; rfl
  refine ⟨hwf, ?_, h.running, ?_, hpending⟩
  · simp [hwaiting]
  · simp [hwaiting]

theorem Inv.spare (h : Inv e iom fiber s) {es : Finset Event} (he : e ∉ es) (b : Bool) :
    Inv e iom fiber { s with ctx := s.ctx.clear es, scheduled := s.scheduled || b } := by
  have hkept : State.waiting { s with ctx := s.ctx.clear es, scheduled := s.scheduled || b } =
      true → s.waiting = true := by
    intro hwaiting
    rw [waiting_wake, Bool.and_eq_true] at hwaiting
    exact hwaiting.1
  refine ⟨h.wf.clear es, fun hwaiting => ?_, h.running, fun hcancelled hwaiting => ?_, h.pending⟩
  · obtain ⟨hmem, hctx⟩ := h.registered (hkept hwaiting)
    exact ⟨Finset.mem_sdiff.2 ⟨hmem, he⟩, (if_neg he).trans hctx⟩
  · exact h.coming hcancelled (hkept hwaiting)

theorem Inv.step {l : Label} (h : Inv e iom fiber s) (hl : Timely e s l)
    (hstep : Step kind e iom fiber s l t) : Inv e iom fiber t := by
  cases hstep with
  | again hpc =>
    refine ⟨h.wf, fun hwaiting => ?_, fun hcancelled => ?_, fun hcancelled => ?_, fun _ _ => ?_⟩
    · simp [State.waiting] at hwaiting
    · exact absurd hpc (h.running hcancelled).1
    · exact absurd hpc (h.running hcancelled).1
    · simp [Timer.pending]
  | finish hpc | addEventFails hpc | resume hpc hscheduled | cancelTimer hpc =>
    exact .of_not_timed h.wf rfl fun _ => by simp
  | addEvent hpc he hsettle =>
    rw [settle_addEvent h.wf he (some iom) false fiber] at hsettle
    cases hsettle
    refine ⟨h.wf.arm e (armed_addEvent rfl false fiber), fun _ => ?_, fun hcancelled => ?_,
      fun hcancelled => ?_, fun _ => ?_⟩
    · exact ⟨Finset.mem_insert_self e _, update_self e _ _⟩
    · exact absurd hpc (h.running hcancelled).2
    · exact absurd hpc (h.running hcancelled).2
    · exact h.pending (by simp [Pc.timed, hpc])
  | yield hpc =>
    refine h.move rfl ?_ (fun _ => ⟨by simp, by simp⟩) h.coming fun _ => ?_
    · simp [State.waiting, hpc]
    · exact h.pending (by simp [Pc.timed, hpc])
  | check hpc =>
    refine .of_not_timed h.wf ?_ fun (hcancelled : s.cancelled = true) => ?_
    · simp only
      split
      · rfl
      · split <;> rfl
    · simp [hcancelled]
  | expire hi =>
    exact h.move rfl rfl h.running (h.coming_update (by simp [hi]) _)
      (h.pending_update fun _ _ _ => rfl)
  | test hi =>
    refine h.move rfl rfl h.running (h.coming_update (by simp [hi]) _)
      (h.pending_update fun htimed hcancelled _ => ?_)
    have hpc : s.pc ≠ .done := by
      intro hdone
      rw [hdone] at htimed
      cases htimed
    simp [hpc, hcancelled, Timer.pending]
  | mark hi =>
    exact h.move rfl rfl (fun _ => hl) (fun _ _ => ⟨_, update_self ..⟩)
      nofun
  | cancelEvent hi hrequest hsettle =>
    obtain ⟨he, -⟩ := ite_none_right_eq_some.1 hrequest
    rw [Call.actions, settle_cons, FdContext.act, bind_some, settle_triggerEvent h.wf he] at hsettle
    cases hsettle
    refine h.wake (h.wf.clear {e}) (fun hwaiting => ?_)
      (h.pending_update fun _ _ hpending => ?_)
    · exact wakes_triggerEvent he (h.registered hwaiting).2
    · simp [hi, Timer.pending] at hpending
  | cancelNothing hi hnothing =>
    have hwaiting : s.waiting = false := by
      by_contra hwaiting
      have he := (h.registered (Bool.of_not_eq_false hwaiting)).1
      rcases hnothing with hnone | hfails
      · rw [Call.request, if_pos he] at hnone
        cases hnone
      · rw [hl he] at hfails
        cases hfails
    refine h.move rfl rfl h.running (fun _ htrue => ?_) (h.pending_update fun _ _ hpending => ?_)
    · rw [hwaiting] at htrue
      cases htrue
    · simp [hi, Timer.pending] at hpending
  | @ready report mask c hrequest hsettle =>
    have hes : report.realEvents s.ctx.events ⊆ s.ctx.events := by
      by_contra hnot
      rw [Call.actions, settle_triggerEvents_eq_none h.wf hnot] at hsettle
      cases hsettle
    rw [Call.actions, settle_triggerEvents h.wf hes] at hsettle
    cases hsettle
    by_cases he : e ∈ report.realEvents s.ctx.events
    · exact h.wake (h.wf.clear _)
        (fun hwaiting => wakes_triggerEvents h.wf hes he (h.registered hwaiting).2) h.pending
    · exact h.spare he _

theorem Inv.initial (h : Initial s) : Inv e iom fiber s := by
  obtain ⟨hpc, hwf, -, hcancelled, -⟩ := h
  refine .of_not_timed hwf ?_ fun htrue => ?_
  · rw [hpc]
    rfl
  · rw [hcancelled] at htrue
    cases htrue

theorem inv_of_reachable (h : Reachable Initial (Step kind e iom fiber) (Timely e) s) :
    Inv e iom fiber s :=
  h.invariant (fun _ => .initial) fun _ _ _ hinv hl hstep => hinv.step hl hstep

theorem initial_create :
    Initial (⟨.calling, .create, false, false, fun _ => .unused, 0⟩ : State S) :=
  ⟨rfl, FdContext.wf_create, rfl, rfl, rfl⟩

/-- The timer expires before `addEvent`: the callback finds no event to cancel, and the fiber is
parked with all callbacks over. -/
theorem reachable_lost : ∃ s : State S,
    Reachable Initial (Step kind e iom fiber) (fun _ _ => True) s ∧ s.cancelled = true ∧
      s.pc = .parked ∧ s.scheduled = false ∧ ∀ i, s.timers i = .unused ∨ s.timers i = .over := by
  have h : Reachable Initial (Step kind e iom fiber) (fun _ _ => True) _ := .start initial_create
  have h := h.andThen (.again rfl)
  have h := h.andThen (.expire (i := 0) rfl)
  have h := h.andThen (.test (i := 0) rfl)
  have h := h.andThen (.mark (i := 0) rfl)
  have h := h.andThen (.cancelNothing (i := 0) rfl (.inl rfl : _ ∨ true = false))
  have h := h.andThen (.addEvent rfl (Finset.notMem_empty e)
    (settle_addEvent FdContext.wf_create (Finset.notMem_empty e) (some iom) false fiber))
  have h := h.andThen (.yield rfl)
  refine ⟨_, h, rfl, rfl, rfl, fun i => ?_⟩
  by_cases hi : i = 0
  · rw [hi]
    exact .inr rfl
  · simp [update_of_ne hi]

/-- In every run in which the callback is timely, a call that is marked as timed out finds its
fiber running or in the queue of a scheduler, or the callback is about to schedule it; a
fiber that is parked before that has a timer that is still to fire. -/
theorem timeout_wakes (hreach : Reachable Initial (Step kind e iom fiber) (Timely e) s) :
    (s.cancelled = true → s.pc ≠ .parked ∨ s.scheduled = true ∨
      ∃ i, s.timers i = .marked ∧ e ∈ s.ctx.events ∧
        wakes fiber s.ctx ((Call.cancelEvent e).actions s.ctx.events fiber) = true) ∧
    (s.cancelled = false → s.pc = .parked → (s.timers (s.rounds - 1)).pending = true) := by
  have hinv := inv_of_reachable hreach
  refine ⟨fun hcancelled => ?_, fun hcancelled hpc => ?_⟩
  · by_cases hpc : s.pc = .parked
    · right
      cases hscheduled : s.scheduled with
      | true => exact .inl rfl
      | false =>
        have hwaiting : s.waiting = true := by simp [State.waiting, hpc, hscheduled]
        obtain ⟨i, hi⟩ := hinv.coming hcancelled hwaiting
        obtain ⟨he, hctx⟩ := hinv.registered hwaiting
        exact .inr ⟨i, hi, he, wakes_triggerEvent he hctx⟩
    · exact .inl hpc
  · exact hinv.pending (by simp [Pc.timed, hpc]) hcancelled

/-- The fiber of a `read` and that of a `connect` are parked for ever: the call is marked as timed
out, nothing has scheduled the fiber, and no timer or callback is left. -/
theorem timeout_lost :
    (∃ s : State Unit, Reachable Initial (Step .doIo .READ () 0) (fun _ _ => True) s ∧
      s.cancelled = true ∧ s.pc = .parked ∧ s.scheduled = false ∧
      ∀ i, s.timers i = .unused ∨ s.timers i = .over) ∧
    (∃ s : State Unit, Reachable Initial (Step .connect .WRITE () 0) (fun _ _ => True) s ∧
      s.cancelled = true ∧ s.pc = .parked ∧ s.scheduled = false ∧
      ∀ i, s.timers i = .unused ∨ s.timers i = .over) :=
  ⟨reachable_lost, reachable_lost⟩

/-- The timer expires while the fiber is parked. -/
theorem timeout_wakes_parked : ∃ s : State Unit,
    Reachable Initial (Step .doIo .READ () 0) (Timely .READ) s ∧ s.cancelled = true ∧
    s.pc = .parked ∧ s.scheduled = false ∧ ∃ i, s.timers i = .marked ∧ .READ ∈ s.ctx.events ∧
      wakes 0 s.ctx ((Call.cancelEvent .READ).actions s.ctx.events 0) = true := by
  have h : Reachable Initial (Step .doIo .READ () 0) (Timely .READ) _ := .start initial_create
  have h := h.andThen (.again rfl)
  have h := h.andThen (.addEvent rfl (Finset.notMem_empty _)
    (settle_addEvent FdContext.wf_create (Finset.notMem_empty _) (some ()) false 0))
  have h := h.andThen (.yield rfl)
  have h := h.andThen (.expire (i := 0) rfl)
  have h := h.andThen (.test (i := 0) rfl)
  have h := h.andThen (.mark (i := 0) rfl) ⟨nofun, nofun⟩
  refine ⟨_, h, rfl, rfl, rfl, ?_⟩
  rcases (timeout_wakes h).1 rfl with hpc | hscheduled | hcoming
  · exact absurd rfl hpc
  · cases hscheduled
  · exact hcoming

end JKYi.Hook
