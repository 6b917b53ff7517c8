import JKYi.Scheduler.Accounting

/-!
# Where a fiber is, and what it owes

A worker owns the fiber it is concerned with and its spare `cb_fiber`. Where
fibers are scheduled with care, a fiber is nowhere, in the queue, or owned by
one worker; it is queued and owned at once only while it runs or after it has
yielded to HOLD, and then its state `EXEC` keeps the other workers away.

A scheduled fiber owes a run until it yields to HOLD or ends. Where a fiber is
scheduled again only after it has yielded to HOLD, a fiber that owes a run is in
the queue or with a worker that will run it or put it back, and one that owes
nothing is in neither place.
-/

namespace JKYi.Scheduler

open Function List Option

variable {W : Type}

def Phase.fiber : Phase W → Option ℕ
  | .taken e => e.task.fiber?
  | .before _ _ f | .after _ _ f _ => some f
  | .dropping | .top | .idle | .done => none

def Enterable (st : FiberState) : Prop := st = .init ∨ st = .hold ∨ st = .ready

def After.Allows : After → Yield → Prop
  | .checkEnd, y => y ≠ .ready
  | .putBack, y => y = .ready
  | .parking, y => y = .hold
  | .recycling, y => y = .term ∨ y = .except
  | .leaving, _ | .returned, _ | .checkReady, _ => True

/-- The state of the fiber at this point; `c` says that it is the worker's `cb_fiber`. -/
def Phase.Fits (st : FiberState) (c : Prop) : Phase W → Prop
  | .taken _ => Enterable st ∧ ¬ c
  | .before .running e _ => st = .exec ∧ (e.task = .cb ↔ c)
  | .before _ e _ => Enterable st ∧ (e.task = .cb ↔ c)
  | .after a e _ y =>
    st = y.state ∧ a.Allows y ∧ (e.task = .cb ↔ c) ∧ (a = .recycling → e.task = .cb)
  | .dropping | .top | .idle | .done => True

def Phase.Open : Phase W → Prop
  | .before .running _ _ => True
  | .after _ _ _ .hold => True
  | _ => False

/-- The duty `d` of a fiber that is queued `n` times, by how it gave up its worker. -/
def Yield.Due (n : ℕ) (d : Duty) : Yield → Prop
  | .ready => n = 0 ∧ d = .pending
  | .hold => n = 0 ∧ d = .parked ∨ n = 1 ∧ d = .pending
  | .term | .except => n = 0 ∧ d = .finished

def Phase.Due (n : ℕ) (d : Duty) : Phase W → Prop
  | .after _ _ _ y => y.Due n d
  | _ => n = 0 ∧ d = .pending

namespace Worker

variable {f n : ℕ} {st : FiberState} {d : Duty} {x x' : Worker W}

def Owns (x : Worker W) (f : ℕ) : Prop := x.phase.fiber = some f ∨ x.cbFiber = some f

instance (x : Worker W) (f : ℕ) : Decidable (x.Owns f) := inferInstanceAs (Decidable (_ ∨ _))

def Open (x : Worker W) (f : ℕ) : Prop := x.phase.fiber = some f ∧ x.phase.Open

/-- A spare `cb_fiber` is `INIT`. -/
def Fits (x : Worker W) (f : ℕ) (st : FiberState) : Prop :=
  if x.phase.fiber = some f then x.phase.Fits st (x.cbFiber = some f) else st = .init

def Due (x : Worker W) (f n : ℕ) (d : Duty) : Prop :=
  if x.phase.fiber = some f then x.phase.Due n d else n = 0 ∧ d = .finished

/-- The worker has not changed, as far as `f` is concerned. -/
def Same (f : ℕ) (x x' : Worker W) : Prop :=
  x' = x ∨ x.phase.fiber ≠ some f ∧ x'.phase.fiber ≠ some f ∧
    (x'.cbFiber = some f ↔ x.cbFiber = some f)

theorem Same.owns_iff (h : Same f x x') : x'.Owns f ↔ x.Owns f := by
  rcases h with rfl | ⟨h, h', hcb⟩
  · rfl
  · simp [Owns, h, h', hcb]

theorem Same.open_iff (h : Same f x x') : x'.Open f ↔ x.Open f := by
  rcases h with rfl | ⟨h, h', -⟩
  · rfl
  · simp [Open, h, h']

theorem Same.fits_iff (h : Same f x x') : x'.Fits f st ↔ x.Fits f st := by
  rcases h with rfl | ⟨h, h', -⟩
  · rfl
  · simp [Fits, h, h']

theorem Same.due_iff (h : Same f x x') : x'.Due f n d ↔ x.Due f n d := by
  rcases h with rfl | ⟨h, h', -⟩
  · rfl
  · simp [Due, h, h']

theorem Fits.exec_of_open (h : x.Fits f st) (hopen : x.Open f) : st = .exec := by
  obtain ⟨hf, hphase⟩ := hopen
  rw [Fits, if_pos hf] at h
  cases hx : x.phase with
  | before a e g => cases a <;> simp_all [Phase.Open, Phase.Fits]
  | after a e g y => cases y <;> simp_all [Phase.Open, Phase.Fits, Yield.state]
  | _ => simp_all [Phase.Open]

theorem Due.schedulable (h : x.Due f n d) (hd : d = .fresh ∨ d = .parked) :
    n = 0 ∧ x.phase.fiber = some f ∧ ∃ a e g, x.phase = .after a e g .hold := by
  have hpending : d ≠ .pending := by rcases hd with rfl | rfl <;> exact nofun
  have hfinished : d ≠ .finished := by rcases hd with rfl | rfl <;> exact nofun
  by_cases hf : x.phase.fiber = some f
  · rw [Due, if_pos hf] at h
    cases hx : x.phase with
    | after a e g y =>
      rw [hx] at h hf
      cases y with
      | ready => exact absurd h.2 hpending
      | hold =>
        have hn : n = 0 := (h.resolve_right fun h => hpending h.2).1
        exact ⟨hn, hf, a, e, g, rfl⟩
      | term | except => exact absurd h.2 hfinished
    | _ =>
      rw [hx] at h
      exact absurd h.2 hpending
  · rw [Due, if_neg hf] at h
    exact absurd h.2 hfinished

end Worker

/-- How often `f` is in the queue. -/
def State.queued (s : State W) (f : ℕ) : ℕ := s.queue.countP fun e => e.task = .fiber f

/-- `w` alone owns `f`, which is queued at most once and only while it is open. -/
structure Owned (s : State W) (w : W) (f : ℕ) : Prop where
  sole (v : W) : (s.workers v).Owns f → v = w
  owns : (s.workers w).Owns f
  fits : (s.workers w).Fits f (s.fibers f)
  queue : s.queued f = 0 ∨ s.queued f = 1 ∧ (s.workers w).Open f
  born : f < s.nextFiber

inductive Where (s : State W) (f : ℕ) : Prop
  | nowhere (howner : ∀ v, ¬ (s.workers v).Owns f) (hqueue : s.queued f = 0)
  | queued (howner : ∀ v, ¬ (s.workers v).Owns f) (hqueue : s.queued f = 1)
      (hst : Enterable (s.fibers f)) (hborn : f < s.nextFiber)
  | owned (w : W) (h : Owned s w f)

def RestDue (st : FiberState) (n : ℕ) (d : Duty) : Prop :=
  n = 1 ∧ d = .pending ∨ n = 0 ∧ (d = .fresh ∧ st = .init ∨ d = .parked ∧ st = .hold ∨
    d = .finished ∧ (st = .term ∨ st = .except))

structure Ledger (s : State W) (f : ℕ) : Prop where
  owned (w : W) : (s.workers w).Owns f → (s.workers w).Due f (s.queued f) (s.log.duty f)
  unowned : (∀ w, ¬ (s.workers w).Owns f) → RestDue (s.fibers f) (s.queued f) (s.log.duty f)
  unborn : s.nextFiber ≤ f → s.log.duty f = .fresh

/-- Where a fiber is and, with discipline, what it owes. -/
structure Placed (K : Prop) (s : State W) (f : ℕ) : Prop where
  where_ : Where s f
  ledger (h : K) : Ledger s f

/-- The calls by which a fiber can be scheduled: it is not queued, and it is with no worker and
`INIT` or `HOLD`, or it runs or has yielded to HOLD. -/
structure CanSchedule (s : State W) (f : ℕ) : Prop where
  born : f < s.nextFiber
  queue : s.queued f = 0
  owner : (∀ w, ¬ (s.workers w).Owns f) ∧ (s.fibers f = .init ∨ s.fibers f = .hold) ∨
    ∃ w, (s.workers w).Open f

def fibersOf (ts : List (Task × Option W)) : List ℕ := ts.filterMap fun t => t.1.fiber?

/-- Fibers are scheduled only as `CanSchedule` says, each once in a batch, and a fiber that is
queued neither yields to READY nor ends. -/
def Careful (s : State W) : Label W → Prop
  | .schedule ts => (fibersOf ts).Nodup ∧ ∀ f ∈ fibersOf ts, CanSchedule s f
  | .yieldReady f | .finish f => s.queued f = 0
  | .yieldHold _ | .flags .. | .other => True

/-- A fiber is scheduled for the first time, or after it has yielded to HOLD since it was
scheduled, and once in a batch. -/
def Disciplined (s : State W) : Label W → Prop
  | .schedule ts => (fibersOf ts).Nodup ∧
      ∀ f ∈ fibersOf ts, f < s.nextFiber ∧ (s.log.duty f = .fresh ∨ s.log.duty f = .parked)
  | .yieldReady _ | .yieldHold _ | .finish _ | .flags .. | .other => True

variable {K : Prop} {s s' : State W} {w : W} {f g : ℕ} {p : Phase W} {k : Task}

theorem Where.owned_of_owns (h : Where s f) (hw : (s.workers w).Owns f) : Owned s w f := by
  cases h with
  | nowhere howner | queued howner => exact absurd hw (howner w)
  | owned v h =>
    obtain rfl := h.sole w hw
    exact h

theorem Where.nowhere_of_unborn (h : Where s f) (hf : s.nextFiber ≤ f) :
    (∀ v, ¬ (s.workers v).Owns f) ∧ s.queued f = 0 := by
  cases h with
  | nowhere howner hqueue => exact ⟨howner, hqueue⟩
  | queued _ _ _ hborn => omega
  | owned w h => exact absurd h.born (by omega)

theorem Owned.queue_of_closed (h : Owned s w f) (hp : s.phase w = p) (hclosed : ¬ p.Open) :
    s.queued f = 0 :=
  h.queue.resolve_right fun hq => hclosed (hp ▸ hq.2.2)

theorem owned_of_phase (hs : ∀ f, Where s f) (hp : s.phase w = p) (hg : p.fiber = some g) :
    Owned s w g ∧ p.Fits (s.fibers g) (s.cbFiber w = some g) := by
  subst hp
  have hown := (hs g).owned_of_owns (.inl hg)
  exact ⟨hown, (if_pos hg).mp hown.fits⟩

theorem Ledger.phase_due (h : Ledger s g) (hp : s.phase w = p) (hg : p.fiber = some g) :
    p.Due (s.queued g) (s.log.duty g) := by
  subst hp
  exact (if_pos hg).mp (h.owned w (.inl hg))

theorem Placed.frame (h : Placed K s f) (hworkers : ∀ v, (s.workers v).Same f (s'.workers v))
    (hqueue : s'.queued f = s.queued f) (hst : s'.fibers f = s.fibers f)
    (hborn : s.nextFiber ≤ s'.nextFiber) (hduty : s'.log.duty f = s.log.duty f) :
    Placed K s' f := by
  have hno : (∀ v, ¬ (s'.workers v).Owns f) ↔ ∀ v, ¬ (s.workers v).Owns f :=
    forall_congr' fun v => not_congr (hworkers v).owns_iff
  refine ⟨?_, fun hK => ⟨fun w hw => ?_, ?_, fun hf => ?_⟩⟩
  · cases h.where_ with
    | nowhere howner hq => exact .nowhere (hno.2 howner) (hqueue.trans hq)
    | queued howner hq he hb =>
      exact .queued (hno.2 howner) (hqueue.trans hq) (hst ▸ he) (hb.trans_le hborn)
    | owned w h =>
      refine .owned w ⟨fun v hv => h.sole v ((hworkers v).owns_iff.1 hv),
        (hworkers w).owns_iff.2 h.owns, ?_, ?_, h.born.trans_le hborn⟩
      · rw [hst, (hworkers w).fits_iff]
        exact h.fits
      · rw [hqueue, (hworkers w).open_iff]
        exact h.queue
  · rw [(hworkers w).due_iff, hqueue, hduty]
    exact (h.ledger hK).owned w ((hworkers w).owns_iff.1 hw)
  · rw [hno, hst, hqueue, hduty]
    exact (h.ledger hK).unowned
  · exact hduty.trans ((h.ledger hK).unborn (hborn.trans hf))

theorem Placed.of_owned (h : Owned s w g)
    (hdue : K → (s.workers w).Due g (s.queued g) (s.log.duty g)) : Placed K s g := by
  refine ⟨.owned w h, fun hK => ⟨fun v hv => ?_, fun hno => absurd h.owns (hno w), fun hg => ?_⟩⟩
  · obtain rfl := h.sole v hv
    exact hdue hK
  · exact absurd h.born (Nat.not_lt.2 hg)

theorem Placed.of_unowned (hno : ∀ v, ¬ (s.workers v).Owns g) (hborn : g < s.nextFiber)
    (hqueue : s.queued g = 0 ∨ s.queued g = 1 ∧ Enterable (s.fibers g))
    (hdue : K → RestDue (s.fibers g) (s.queued g) (s.log.duty g)) : Placed K s g := by
  refine ⟨?_, fun hK => ⟨fun v hv => absurd hv (hno v), fun _ => hdue hK, fun hg => ?_⟩⟩
  · rcases hqueue with hqueue | ⟨hqueue, hst⟩
    · exact .nowhere hno hqueue
    · exact .queued hno hqueue hst hborn
  · exact absurd hborn (Nat.not_lt.2 hg)

theorem State.queued_push (s : State W) (k : Task) (thread : Option W) (f : ℕ) :
    (s.push k thread).queued f = s.queued f + if k = .fiber f then 1 else 0 := by
  cases k <;> simp [queued, push, setDuty, countP_append, countP_cons]

theorem State.queued_push_of_ne (hk : k ≠ .fiber f) (thread : Option W) :
    (s.push k thread).queued f = s.queued f := by
  rw [queued_push, if_neg hk, add_zero]

theorem State.duty_push_fiber (s : State W) (f : ℕ) (thread : Option W) :
    (s.push (.fiber f) thread).log.duty f = .pending :=
  update_self ..

theorem State.duty_push_of_ne (s : State W) (hk : k ≠ .fiber f) (thread : Option W) :
    (s.push k thread).log.duty f = s.log.duty f := by
  cases k with
  | fiber g => exact update_of_ne (fun h => hk (congrArg Task.fiber h.symm)) ..
  | cb => rfl

theorem Placed.push_of_ne (h : Placed K s f) (hk : k ≠ .fiber f) (thread : Option W) :
    Placed K (s.push k thread) f := by
  have hqueue := s.queued_push_of_ne hk thread
  have hduty := s.duty_push_of_ne hk thread
  cases k <;> exact h.frame (fun _ => .inl rfl) hqueue rfl le_rfl hduty

theorem Placed.push (h : Placed K s f) (hcan : CanSchedule s f)
    (hd : K → s.log.duty f = .fresh ∨ s.log.duty f = .parked) (thread : Option W) :
    Placed K (s.push (.fiber f) thread) f := by
  have hqueue : (s.push (.fiber f) thread).queued f = 1 := by
    rw [State.queued_push, hcan.queue, if_pos rfl]
  have hduty := s.duty_push_fiber f thread
  rcases hcan.owner with ⟨howner, hst⟩ | ⟨w, hopen⟩
  · exact .of_unowned howner hcan.born (.inr ⟨hqueue, hst.imp_right .inl⟩)
      fun _ => .inl ⟨hqueue, hduty⟩
  · have hown := h.where_.owned_of_owns (.inl hopen.1)
    refine .of_owned ⟨hown.sole, hown.owns, hown.fits, .inr ⟨hqueue, hopen⟩, hown.born⟩ fun hK => ?_
    obtain ⟨-, hf, a, e, g, hx⟩ := ((h.ledger hK).owned w hown.owns).schedulable (hd hK)
    rw [hqueue, hduty]
    change (s.workers w).Due f 1 .pending
    rw [Worker.Due, if_pos hf, hx]
    exact .inr ⟨rfl, rfl⟩

theorem CanSchedule.push_of_ne (h : CanSchedule s f) (hk : k ≠ .fiber f) (thread : Option W) :
    CanSchedule (s.push k thread) f := by
  have hqueue := (s.queued_push_of_ne hk thread).trans h.queue
  cases k <;> exact ⟨h.born, hqueue, h.owner⟩

theorem placed_pushAll (hs : ∀ f, Placed K s f) (ts : List (Task × Option W))
    (hc : Careful s (.schedule ts)) (hd : K → Disciplined s (.schedule ts)) :
    ∀ f, Placed K (s.pushAll ts) f := by
  induction ts generalizing s with
  | nil => exact hs
  | cons t ts ih =>
    obtain ⟨k, thread⟩ := t
    have hmem : ∀ f, k = .fiber f → f ∈ fibersOf ((k, thread) :: ts) := by
      rintro f rfl
      exact mem_cons_self
    have hsub : (fibersOf ts).Sublist (fibersOf ((k, thread) :: ts)) :=
      (sublist_cons_self _ ts).filterMap _
    have hne : ∀ f ∈ fibersOf ts, k ≠ .fiber f := by
      rintro f hf rfl
      exact (nodup_cons.1 hc.1).1 hf
    refine ih (fun f => ?_) ⟨hc.1.sublist hsub, fun f hf => ?_⟩ fun hK =>
      ⟨hc.1.sublist hsub, fun f hf => ?_⟩
    · by_cases hk : k = .fiber f
      · subst hk
        exact (hs f).push (hc.2 f (hmem f rfl)) (fun hK => ((hd hK).2 f (hmem f rfl)).2) thread
      · exact (hs f).push_of_ne hk thread
    · exact (hc.2 f (hsub.subset hf)).push_of_ne (hne f hf) thread
    · rw [s.duty_push_of_ne (hne f hf)]
      have hfresh := (hd hK).2 f (hsub.subset hf)
      cases k <;> exact hfresh

theorem placed_create (hs : ∀ f, Placed K s f) (f : ℕ) :
    Placed K { s.setFiber s.nextFiber .init with nextFiber := s.nextFiber + 1 } f := by
  by_cases hf : f = s.nextFiber
  · obtain ⟨howner, hqueue⟩ := (hs f).where_.nowhere_of_unborn hf.ge
    refine .of_unowned howner (by rw [hf]; exact Nat.lt_succ_self _) (.inl hqueue) fun hK =>
      .inr ⟨hqueue, .inl ⟨((hs f).ledger hK).unborn hf.ge, ?_⟩⟩
    rw [hf]
    exact update_self ..
  · exact (hs f).frame (fun _ => .inl rfl) rfl (update_of_ne hf ..) (Nat.le_succ _) rfl

theorem Ledger.canSchedule (h : Ledger s f) (hborn : f < s.nextFiber)
    (hd : s.log.duty f = .fresh ∨ s.log.duty f = .parked) : CanSchedule s f := by
  by_cases hno : ∀ w, ¬ (s.workers w).Owns f
  · rcases h.unowned hno with ⟨-, hpending⟩ | ⟨hn, hrest⟩
    · rcases hd with hd | hd <;> rw [hd] at hpending <;> cases hpending
    · refine ⟨hborn, hn, .inl ⟨hno, ?_⟩⟩
      rcases hrest with ⟨-, hst⟩ | ⟨-, hst⟩ | ⟨hfinished, -⟩
      · exact .inl hst
      · exact .inr hst
      · rcases hd with hd | hd <;> rw [hd] at hfinished <;> cases hfinished
  · push Not at hno
    obtain ⟨w, hw⟩ := hno
    obtain ⟨hn, hf, a, e, g, hx⟩ := (h.owned w hw).schedulable hd
    refine ⟨hborn, hn, .inr ⟨w, hf, ?_⟩⟩
    rw [hx]
    trivial

theorem Initial.placed (h : Initial s) (f : ℕ) : Placed K s f := by
  have hno : ∀ v, ¬ (s.workers v).Owns f := by
    intro v hv
    have hphase : (s.workers v).phase = .top := h.phase v
    have hcb : (s.workers v).cbFiber = none := h.cbFiber v
    simp [Worker.Owns, hphase, hcb, Phase.fiber] at hv
  have hqueue : s.queued f = 0 := by simp [State.queued, h.queue]
  have hduty : s.log.duty f = .fresh := by rw [h.log]
  exact ⟨.nowhere hno hqueue, fun _ => ⟨fun v hv => absurd hv (hno v),
    fun _ => .inr ⟨hqueue, .inl ⟨hduty, h.fibers f⟩⟩, fun _ => hduty⟩⟩

end JKYi.Scheduler
