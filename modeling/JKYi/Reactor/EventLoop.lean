import JKYi.Foundation.Interleaving

/-!
# Functors queued to an event loop

`queueInLoop` appends to `pendingFunctors_` under the mutex and then decides
whether to write to the eventfd; `doPendingFunctors` swaps the vector out and runs
the batch. The loop thread runs user code in event handlers and in functors, and
this code may queue more functors.
-/

namespace JKYi.Net.EventLoop

open Function List

/-- The largest value of an eventfd; a `write` beyond it fails and leaves the counter. -/
def maxCounter : ℕ := 2 ^ 64 - 2

def wakeup (counter : ℕ) : ℕ := if counter < maxCounter then counter + 1 else counter

theorem wakeup_pos (counter : ℕ) : 0 < wakeup counter := by
  unfold wakeup maxCounter
  split <;> omega

/-- Where the loop thread is: outside `loop()`, at its test of `quit_`, in `poll`, in the handlers
of the active channels (with that of the wakeup channel to come or not), in `doPendingFunctors`
before `swap`, or in its loop (inside a functor or between two). -/
inductive Phase where
  | outside
  | test
  | polling
  | handling (woken : Bool)
  | swapping
  | running (inside : Bool)
  deriving DecidableEq

/-- A thread in `queueInLoop`: behind `push_back`, or about to call `wakeup`, as `quit` does
too. -/
inductive Caller where
  | outside
  | pushed
  | waking
  | quitting
  deriving DecidableEq

/-- `inner` is the call of `queueInLoop` that user code on the loop thread is in. `queued` is
what was ever queued, `ran` what `doPendingFunctors` has run and `direct` what `runInLoop` has run
on the spot. -/
structure State (W Fn : Type) where
  loop : Phase
  inner : Caller
  callers : W → Caller
  quit : Bool
  calling : Bool
  counter : ℕ
  pending : List Fn
  batch : List Fn
  queued : List Fn
  ran : List Fn
  direct : List Fn

def Phase.userCode : Phase → Bool
  | .handling _ | .running true => true
  | .outside | .test | .polling | .swapping | .running false => false

section

variable {W Fn : Type} [DecidableEq W]

def State.setCaller (s : State W Fn) (w : W) (c : Caller) : State W Fn :=
  { s with callers := update s.callers w c }

def State.push (s : State W Fn) (f : Fn) : State W Fn :=
  { s with pending := s.pending ++ [f], queued := s.queued ++ [f] }

/-- A step of the loop thread, of its user code, or of another thread. -/
inductive Step (s : State W Fn) : Unit → State W Fn → Prop
  | start (hl : s.loop = .outside) : Step s () { s with loop := .test, quit := false }
  | stop (hl : s.loop = .test) (hq : s.quit = true) : Step s () { s with loop := .outside }
  | poll (hl : s.loop = .test) (hq : s.quit = false) : Step s () { s with loop := .polling }
  | active (woken : Bool) (hl : s.loop = .polling) (hwoken : woken = true → 0 < s.counter) :
      Step s () { s with loop := .handling woken }
  | handleRead (hl : s.loop = .handling true) (hi : s.inner = .outside) :
      Step s () { s with loop := .handling false, counter := 0 }
  | doPendingFunctors (hl : s.loop = .handling false) (hi : s.inner = .outside) :
      Step s () { s with loop := .swapping, calling := true }
  | swap (hl : s.loop = .swapping) :
      Step s () { s with loop := .running false, batch := s.pending, pending := s.batch }
  | call (f : Fn) (rest : List Fn) (hl : s.loop = .running false) (hb : s.batch = f :: rest) :
      Step s () { s with loop := .running true, batch := rest, ran := s.ran ++ [f] }
  | return (hl : s.loop = .running true) (hi : s.inner = .outside) :
      Step s () { s with loop := .running false }
  | finish (hl : s.loop = .running false) (hb : s.batch = []) :
      Step s () { s with loop := .test, calling := false }
  | innerPush (f : Fn) (hl : s.loop.userCode = true) (hi : s.inner = .outside) :
      Step s () { s.push f with inner := .pushed }
  | innerTest (hi : s.inner = .pushed) :
      Step s () { s with inner := if s.calling then .waking else .outside }
  | innerWakeup (hi : s.inner = .waking) :
      Step s () { s with inner := .outside, counter := wakeup s.counter }
  | innerRun (f : Fn) (hl : s.loop.userCode = true) (hi : s.inner = .outside) :
      Step s () { s with direct := s.direct ++ [f] }
  | innerQuit (hl : s.loop.userCode = true) (hi : s.inner = .outside) :
      Step s () { s with quit := true }
  | push (w : W) (f : Fn) (hw : s.callers w = .outside) :
      Step s () ((s.push f).setCaller w .pushed)
  | test (w : W) (hw : s.callers w = .pushed) : Step s () (s.setCaller w .waking)
  | quit (w : W) (hw : s.callers w = .outside) :
      Step s () ({ s with quit := true }.setCaller w .quitting)
  | wakeup (w : W) (hw : s.callers w = .waking ∨ s.callers w = .quitting) :
      Step s () ({ s with counter := wakeup s.counter }.setCaller w .outside)

/-- `EventLoop()`. -/
structure Initial (s : State W Fn) : Prop where
  loop : s.loop = .outside
  inner : s.inner = .outside
  callers : ∀ w, s.callers w = .outside
  calling : s.calling = false
  counter : s.counter = 0
  pending : s.pending = []
  batch : s.batch = []
  queued : s.queued = []
  ran : s.ran = []

end

def Phase.collects : Phase → Bool
  | .handling _ | .swapping => true
  | .outside | .test | .polling | .running _ => false

/-- `callingPendingFunctors_`. -/
def Phase.calls : Phase → Bool
  | .swapping | .running _ => true
  | .outside | .test | .polling | .handling _ => false

/-- The thread has queued a functor and has not yet called `wakeup`. -/
def Caller.about : Caller → Bool
  | .pushed | .waking => true
  | .outside | .quitting => false

variable {W Fn : Type}

/-- The functors in `pendingFunctors_` are run before the next `poll`, or it does not block. -/
def State.Noticed (s : State W Fn) : Prop :=
  s.loop.collects = true ∨ 0 < s.counter ∨ (∃ w, (s.callers w).about = true) ∨ s.inner ≠ .outside

structure Inv (s : State W Fn) : Prop where
  order : s.queued = s.ran ++ s.batch ++ s.pending
  batch : s.batch ≠ [] → ∃ b, s.loop = .running b
  calling : s.calling = s.loop.calls
  inner : s.inner ≠ .outside → s.loop.userCode = true
  noticed : s.pending ≠ [] → s.Noticed

section

variable {s t : State W Fn}

theorem Inv.batch_nil (h : Inv s) (hl : ∀ b, s.loop ≠ .running b) : s.batch = [] := by
  by_contra hb
  obtain ⟨b, hb⟩ := h.batch hb
  exact hl b hb

theorem State.Noticed.keep {p : Phase} (h : s.Noticed) (hl : s.loop = p)
    (hp : p.collects = false)
    (hsame : (t.counter, t.callers, t.inner) = (s.counter, s.callers, s.inner)) :
    t.Noticed := by
  simp only [Prod.mk.injEq] at hsame
  obtain ⟨hcounter, hcallers, hinner⟩ := hsame
  rcases h with h | h | h | h
  · rw [hl, hp] at h
    cases h
  · exact .inr (.inl (hcounter ▸ h))
  · exact .inr (.inr (.inl (hcallers ▸ h)))
  · exact .inr (.inr (.inr (hinner ▸ h)))

theorem Inv.calling_of {p q : Phase} (h : Inv s) (hl : s.loop = p) (hcalls : p.calls = q.calls) :
    s.calling = q.calls := by
  rw [h.calling, hl, hcalls]

theorem Inv.moveLoop {p : Phase} (h : Inv s) (hl : s.loop = p)
    (hsame : (t.queued, t.ran, t.batch, t.pending, t.inner) =
      (s.queued, s.ran, s.batch, s.pending, s.inner))
    (hrunning : ∀ b, p = .running b → s.batch = [] ∨ ∃ b, t.loop = .running b)
    (hcalling : t.calling = t.loop.calls)
    (huser : p.userCode = true → s.inner = .outside ∨ t.loop.userCode = true)
    (hnoticed : s.Noticed → t.Noticed) : Inv t := by
  simp only [Prod.mk.injEq] at hsame
  obtain ⟨hqueued, hran, hbatch, hpending, hinner⟩ := hsame
  refine ⟨?_, fun hb => ?_, hcalling, fun hi => ?_, fun hp => ?_⟩
  · rw [hqueued, hran, hbatch, hpending]
    exact h.order
  · rw [hbatch] at hb
    obtain ⟨b, hloop⟩ := h.batch hb
    exact (hrunning b (hl ▸ hloop)).resolve_left hb
  · rw [hinner] at hi
    exact (huser (hl ▸ h.inner hi)).resolve_left hi
  · rw [hpending] at hp
    exact hnoticed (h.noticed hp)

theorem Inv.besides (h : Inv s)
    (hsame : (t.loop, t.calling, t.ran, t.batch) = (s.loop, s.calling, s.ran, s.batch))
    (hqueued : ∃ l, t.queued = s.queued ++ l ∧ t.pending = s.pending ++ l)
    (hinner : t.inner ≠ .outside → s.loop.userCode = true)
    (hnoticed : t.pending ≠ [] → t.Noticed) : Inv t := by
  simp only [Prod.mk.injEq] at hsame
  obtain ⟨hloop, hcalling, hran, hbatch⟩ := hsame
  obtain ⟨l, hqueued, hpending⟩ := hqueued
  refine ⟨?_, ?_, ?_, ?_, hnoticed⟩
  · rw [hqueued, hran, hbatch, hpending, h.order]
    simp only [append_assoc]
  · rw [hbatch, hloop]
    exact h.batch
  · rw [hcalling, hloop]
    exact h.calling
  · rw [hloop]
    exact hinner

theorem Inv.aside (h : Inv s)
    (hsame : (t.loop, t.calling, t.ran, t.batch) = (s.loop, s.calling, s.ran, s.batch))
    (hqueued : (t.queued, t.pending) = (s.queued, s.pending))
    (hinner : t.inner ≠ .outside → s.loop.userCode = true)
    (hnoticed : s.pending ≠ [] → t.Noticed) : Inv t := by
  simp only [Prod.mk.injEq] at hqueued
  obtain ⟨hqueued, hpending⟩ := hqueued
  refine h.besides hsame ⟨[], ?_, ?_⟩ hinner ?_
  · rw [hqueued, append_nil]
  · rw [hpending, append_nil]
  · rw [hpending]
    exact hnoticed

variable [DecidableEq W]

theorem State.Noticed.set {w : W} {c : Caller} (h : s.Noticed) (hloop : t.loop = s.loop)
    (hcallers : t.callers = s.callers) (hinner : t.inner = s.inner)
    (hcounter : 0 < s.counter → 0 < t.counter)
    (hw : (s.callers w).about = true → c.about = true ∨ 0 < t.counter) :
    (t.setCaller w c).Noticed := by
  rcases h with h | h | ⟨v, hv⟩ | h
  · exact .inl (hloop ▸ h)
  · exact .inr (.inl (hcounter h))
  · by_cases hvw : v = w
    · rw [hvw] at hv
      rcases hw hv with hc | hc
      · refine .inr (.inr (.inl ⟨w, ?_⟩))
        have hself : (t.setCaller w c).callers w = c := update_self ..
        rw [hself]
        exact hc
      · exact .inr (.inl hc)
    · refine .inr (.inr (.inl ⟨v, ?_⟩))
      have hother : (t.setCaller w c).callers v = t.callers v := update_of_ne hvw ..
      rw [hother, hcallers]
      exact hv
  · exact .inr (.inr (.inr (hinner ▸ h)))

theorem Step.inv {l : Unit} {s' : State W Fn} (hstep : Step s l s') (h : Inv s) : Inv s' := by
  cases hstep with
  | start hl | stop hl hq | poll hl hq =>
    exact h.moveLoop hl rfl nofun (h.calling_of hl rfl) nofun fun hn => hn.keep hl rfl rfl
  | active woken hl hwoken =>
    exact h.moveLoop hl rfl nofun (h.calling_of hl rfl) nofun fun _ => .inl rfl
  | handleRead hl hi =>
    exact h.moveLoop hl rfl nofun (h.calling_of hl rfl) (fun _ => .inl hi) fun _ => .inl rfl
  | doPendingFunctors hl hi =>
    exact h.moveLoop hl rfl nofun rfl (fun _ => .inl hi) fun _ => .inl rfl
  | swap hl =>
    have hnil := h.batch_nil (by rw [hl]; nofun)
    have horder := h.order
    refine ⟨?_, fun _ => ⟨false, rfl⟩, ?_, fun hi => ?_, fun hp => absurd hnil hp⟩
    · rw [hnil, append_nil] at horder
      change s.queued = s.ran ++ s.pending ++ s.batch
      rw [hnil, append_nil]
      exact horder
    · exact h.calling_of hl rfl
    · have huser := h.inner hi
      rw [hl] at huser
      cases huser
  | call f rest hl hb =>
    have horder := h.order
    refine ⟨?_, fun _ => ⟨true, rfl⟩, ?_, fun _ => rfl, fun hp => ?_⟩
    · rw [hb] at horder
      change s.queued = s.ran ++ [f] ++ rest ++ s.pending
      rw [horder]
      simp
    · exact h.calling_of hl rfl
    · exact (h.noticed hp).keep hl rfl rfl
  | «return» hl hi =>
    exact h.moveLoop hl rfl (fun _ _ => .inr ⟨false, rfl⟩) (h.calling_of hl rfl)
      (fun _ => .inl hi) fun hn => hn.keep hl rfl rfl
  | finish hl hb =>
    exact h.moveLoop hl rfl (fun _ _ => .inl hb) rfl nofun fun hn => hn.keep hl rfl rfl
  | innerPush f hl hi =>
    exact h.besides rfl ⟨[f], rfl, rfl⟩ (fun _ => hl) fun _ => .inr (.inr (.inr nofun))
  | innerTest hi =>
    have huser := h.inner (by rw [hi]; nofun)
    refine h.aside rfl rfl (fun _ => huser) fun _ => ?_
    cases hcalling : s.calling with
    | true => exact .inr (.inr (.inr nofun))
    | false =>
      -- user code that is not a functor is an event handler
      left
      have hcalls := h.calling
      rw [hcalling] at hcalls
      change s.loop.collects = true
      cases hl : s.loop with
      | handling woken => rfl
      | running b =>
        rw [hl] at hcalls
        cases hcalls
      | outside | test | polling | swapping =>
        rw [hl] at huser
        cases huser
  | innerWakeup hi =>
    exact h.aside rfl rfl nofun fun _ => .inr (.inl (wakeup_pos _))
  | innerRun f hl hi | innerQuit hl hi =>
    exact h.aside rfl rfl h.inner h.noticed
  | push w f hw =>
    refine h.besides rfl ⟨[f], rfl, rfl⟩ h.inner fun _ => .inr (.inr (.inl ⟨w, ?_⟩))
    have hself : ((s.push f).setCaller w .pushed).callers w = .pushed := update_self ..
    rw [hself]
    rfl
  | test w hw =>
    exact h.aside rfl rfl h.inner fun hp => (h.noticed hp).set rfl rfl rfl id fun _ => .inl rfl
  | quit w hw =>
    refine h.aside rfl rfl h.inner fun hp => (h.noticed hp).set rfl rfl rfl id fun ha => ?_
    rw [hw] at ha
    cases ha
  | wakeup w hw =>
    exact h.aside rfl rfl h.inner fun hp =>
      (h.noticed hp).set rfl rfl rfl (fun _ => wakeup_pos _) fun _ => .inr (wakeup_pos _)

end

theorem Initial.inv {s : State W Fn} (h : Initial s) : Inv s := by
  refine ⟨?_, fun hb => absurd h.batch hb, ?_, fun hi => absurd h.inner hi,
    fun hp => absurd h.pending hp⟩
  · rw [h.queued, h.ran, h.batch, h.pending]
    rfl
  · rw [h.calling, h.loop]
    rfl

section

variable [DecidableEq W] {s : State W Fn}

/-- `doPendingFunctors` runs what was queued, in that order, and what it has not run yet is in
its batch or in `pendingFunctors_`; the loop does not block in `poll` before a functor unless the
eventfd is readable or a thread that has queued one is about to make it so. -/
theorem functors_run_in_order (h : Reachable Initial Step (fun _ _ => True) s) :
    s.ran <+: s.queued ∧ s.queued = s.ran ++ s.batch ++ s.pending ∧
      (s.loop = .polling → s.pending ≠ [] → 0 < s.counter ∨ ∃ w, (s.callers w).about = true) := by
  have hinv : Inv s := h.invariant (fun _ h => h.inv) fun _ _ _ hs _ hstep => hstep.inv hs
  refine ⟨?_, hinv.order, fun hl hp => ?_⟩
  · rw [hinv.order, append_assoc]
    exact prefix_append _ _
  · rcases hinv.noticed hp with hn | hn | hn | hn
    · rw [hl] at hn
      cases hn
    · exact .inl hn
    · exact .inr hn
    · have huser := hinv.inner hn
      rw [hl] at huser
      cases huser

end

def State.new : State W Fn :=
  ⟨.outside, .outside, fun _ => .outside, false, false, 0, [], [], [], [], []⟩

theorem initial_new : Initial (State.new : State W Fn) :=
  ⟨rfl, rfl, fun _ => rfl, rfl, rfl, rfl, rfl, rfl, rfl⟩

/-- A thread queues functor 1, which queues functor 2 while it runs; the loop polls again with
functor 2 pending and the eventfd readable. -/
theorem functors_run_in_order_run : ∃ s : State Unit ℕ,
    Reachable Initial Step (fun _ _ => True) s ∧ s.loop = .polling ∧ s.pending = [2] ∧
      s.ran = [1] ∧ s.ran <+: s.queued ∧ (0 < s.counter ∨ ∃ w, (s.callers w).about = true) := by
  have h : Reachable Initial Step (fun _ _ => True) (State.new : State Unit ℕ) :=
    .start initial_new
  have h := h.andThen (.start rfl)
  have h := h.andThen (.poll rfl rfl)
  have h := h.andThen (.push () 1 rfl)
  have h := h.andThen (.test () rfl)
  have h := h.andThen (.wakeup () (.inl rfl))
  have h := h.andThen (.active true rfl fun _ => by decide)
  have h := h.andThen (.handleRead rfl rfl)
  have h := h.andThen (.doPendingFunctors rfl rfl)
  have h := h.andThen (.swap rfl)
  have h := h.andThen (.call 1 [] rfl rfl)
  have h := h.andThen (.innerPush 2 rfl rfl)
  have h := h.andThen (.innerTest rfl)
  have h := h.andThen (.innerWakeup rfl)
  have h := h.andThen (.return rfl rfl)
  have h := h.andThen (.finish rfl rfl)
  have h := h.andThen (.poll rfl rfl)
  have hrun := functors_run_in_order h
  exact ⟨_, h, rfl, rfl, rfl, hrun.1, hrun.2.2 rfl (by decide)⟩

end JKYi.Net.EventLoop
