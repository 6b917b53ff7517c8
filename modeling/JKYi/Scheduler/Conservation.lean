import JKYi.Scheduler.Exclusion

/-!
# Tasks are conserved

Where a fiber is scheduled again only after it has yielded to HOLD, every task is
queued, held by one worker, parked or finished, in every interleaving. A READY
fiber is put back once for each yield, and a callback that was started goes on
in the fiber it was put into.
-/

namespace JKYi.Scheduler

open List Function

variable {W : Type}

/-- The worker will run `f` or put it back. -/
def Phase.Holds (f : ℕ) : Phase W → Prop
  | .taken e => e.task = .fiber f
  | .before _ _ g => g = f
  | .after _ _ g y => y = .ready ∧ g = f
  | .dropping | .top | .idle | .done => False

instance (f : ℕ) : DecidablePred (Phase.Holds (W := W) f)
  | .taken e => inferInstanceAs (Decidable (e.task = .fiber f))
  | .before _ _ g => inferInstanceAs (Decidable (g = f))
  | .after _ _ g y => inferInstanceAs (Decidable (y = .ready ∧ g = f))
  | .dropping | .top | .idle | .done => .isFalse id

/-- The fiber has yielded to READY and is to be put back. -/
def Phase.Returns (f : ℕ) : Phase W → Prop
  | .after _ _ g y => y = .ready ∧ g = f
  | .taken _ | .before _ _ _ | .dropping | .top | .idle | .done => False

instance (f : ℕ) : DecidablePred (Phase.Returns (W := W) f)
  | .after _ _ g y => inferInstanceAs (Decidable (y = .ready ∧ g = f))
  | .taken _ | .before _ _ _ | .dropping | .top | .idle | .done => .isFalse id

section

variable {s : State W} {f : ℕ}

theorem Phase.Holds.fiber {p : Phase W} (h : p.Holds f) : p.fiber = some f := by
  cases p with
  | taken e =>
    have he := h
    rw [Phase.fiber, he]
    rfl
  | before a e g => exact congrArg some h
  | after a e g y => exact congrArg some h.2
  | _ => exact h.elim

/-- In the queue or held by its owner, a fiber is there as often as it owes a run. -/
theorem Worker.Due.total {x : Worker W} {n : ℕ} {d : Duty} (h : x.Due f n d) :
    n + (if x.phase.Holds f then 1 else 0) = if d = .pending then 1 else 0 := by
  by_cases hf : x.phase.fiber = some f
  · rw [Due, if_pos hf] at h
    cases hx : x.phase with rw [hx] at h hf
    | taken e =>
      obtain ⟨rfl, rfl⟩ := h
      have hholds : (Phase.taken e).Holds f := by
        cases he : e.task with
        | fiber g => simp_all [Phase.fiber, Phase.Holds, Task.fiber?]
        | cb => simp [Phase.fiber, he, Task.fiber?] at hf
      rw [if_pos hholds, if_pos rfl]
    | before a e g =>
      obtain ⟨rfl, rfl⟩ := h
      have hholds : (Phase.before a e g).Holds f := Option.some.inj hf
      rw [if_pos hholds, if_pos rfl]
    | after a e g y =>
      obtain rfl : g = f := Option.some.inj hf
      cases y <;> simp_all [Phase.Due, Yield.Due, Phase.Holds]
      rcases h with ⟨rfl, rfl⟩ | ⟨rfl, rfl⟩ <;> rfl
    | _ => cases hf
  · rw [Due, if_neg hf] at h
    rw [if_neg fun hholds => hf hholds.fiber, h.1, h.2]
    rfl

variable [Fintype W]

/-- A fiber that owes a run is in the queue or held by one worker, and any other in neither. -/
theorem Ledger.total (hl : Ledger s f) (hs : Where s f) :
    s.queued f + threadCount (Phase.Holds f) s.phase =
      if s.log.duty f = .pending then 1 else 0 := by
  by_cases hno : ∀ v, ¬ (s.workers v).Owns f
  · rw [threadCount_eq_zero_iff.2 fun w hw => hno w (.inl hw.fiber)]
    rcases hl.unowned hno with ⟨hn, hd⟩ | ⟨hn, ⟨hd, -⟩ | ⟨hd, -⟩ | ⟨hd, -⟩⟩ <;> rw [hn, hd] <;> rfl
  · push Not at hno
    obtain ⟨w, hw⟩ := hno
    have hown := hs.owned_of_owns hw
    rw [threadCount_of_sole fun v hv hholds => hv (hown.sole v (.inl hholds.fiber))]
    exact (hl.owned w hw).total

end

def State.returning (s : State W) (f : ℕ) : ℤ :=
  s.log.readyYields.count f - s.log.putBacks.count f

section

variable {s t : State W} {w : W} {e : Entry W} {g : ℕ} {y : Yield}

theorem State.returning_push (s : State W) (k : Task) (thread : Option W) (f : ℕ) :
    (s.push k thread).returning f = s.returning f := by
  cases k <;> rfl

theorem State.returning_start (s : State W) (e : Entry W) (g f : ℕ) :
    (s.start e g).returning f = s.returning f := by
  unfold start
  split <;> rfl

variable [DecidableEq W]

theorem State.returning_dropCb (s : State W) (w : W) (e : Entry W) (f : ℕ) :
    (s.dropCb w e).returning f = s.returning f := by
  rw [returning, s.log_dropCb]
  rfl

theorem balanced_returns {p q : Phase W} (f : ℕ) (hp : s.phase w = p) (hphase : t.phase = s.phase)
    (ht : t.returning f = s.returning f) (hiff : p.Returns f ↔ q.Returns f) :
    Balanced (Phase.Returns f) (s.returning f) ((t.setPhase w q).returning f) s.phase
      (t.setPhase w q).phase := by
  have hsame : (t.setPhase w q).returning f = s.returning f := ht
  refine balanced_setPhase hp hphase ?_
  rw [hsame, if_congr hiff rfl rfl]

theorem balanced_yieldReady (f : ℕ) (hp : s.phase w = .before .running e g) :
    Balanced (Phase.Returns f) (s.returning f)
      ((({ s with log := { s.log with readyYields := s.log.readyYields ++ [g] } }.setFiber g
        .ready).setPhase w (.after .leaving e g .ready)).returning f) s.phase
      ((({ s with log := { s.log with readyYields := s.log.readyYields ++ [g] } }.setFiber g
        .ready).setPhase w (.after .leaving e g .ready)).phase) := by
  refine balanced_setPhase hp rfl ?_
  by_cases hf : g = f
  · simp [State.returning, State.setPhase, State.setFiber, Phase.Returns, hf]
    omega
  · simp [State.returning, State.setPhase, State.setFiber, Phase.Returns, hf]

theorem balanced_putBack (f : ℕ) (hp : s.phase w = .after .putBack e g .ready) :
    Balanced (Phase.Returns f) (s.returning f)
      ((((({ s with log := { s.log with putBacks := s.log.putBacks ++ [g] } }.push (.fiber g)
        none).dropCb w e).setPhase w .top)).returning f) s.phase
      ((((({ s with log := { s.log with putBacks := s.log.putBacks ++ [g] } }.push (.fiber g)
        none).dropCb w e).setPhase w .top)).phase) := by
  refine balanced_setPhase hp (State.phase_dropCb _ w e) ?_
  have hdrop := State.returning_dropCb
    ({ s with log := { s.log with putBacks := s.log.putBacks ++ [g] } }.push (.fiber g) none) w e f
  have hset : ∀ t : State W, (t.setPhase w .top).returning f = t.returning f := fun _ => rfl
  rw [hset, hdrop, State.returning_push]
  by_cases hf : g = f
  · simp [State.returning, Phase.Returns, hf]
    omega
  · simp [State.returning, Phase.Returns, hf]

theorem Move.returns {s' : State W} {l : Label W} (hm : Move s l s') (hs : ∀ f, Where s f)
    (f : ℕ) :
    Balanced (Phase.Returns f) (s.returning f) (s'.returning f) s.phase s'.phase := by
  cases hm with
  | schedule ts =>
    refine s.pushAll_induction (P := fun t => Balanced (Phase.Returns f) (s.returning f)
      (t.returning f) s.phase t.phase) (fun t k thread h => ?_) (.inl ⟨rfl, rfl⟩) ts
    rw [t.returning_push, t.phase_push]
    exact h
  | create | flags | loadAbort | passAbort | yieldAbort | recycleAbort => exact .inl ⟨rfl, rfl⟩
  | nothing w hp => exact balanced_returns f hp rfl rfl (by split <;> rfl)
  | idle w b hp => exact balanced_returns f hp (s.phase_setIdleTerm w b) rfl .rfl
  | loadNew w e hp | loadOld w e g hp => exact balanced_returns f hp (s.phase_load w e _) rfl .rfl
  | enter w e g hp =>
    exact balanced_returns f hp (s.phase_start e g) (s.returning_start e g f) .rfl
  | take w e rest hp | pick w e g hp | skip w e g hp | pass w e g hp | drop w hp =>
    exact balanced_returns f hp rfl rfl .rfl
  | switched w e g y hp | decrement w e g y hp | isReady w e g y hp | notReady w e g y hp
  | notEnded w e g y hp => exact balanced_returns f hp rfl rfl .rfl
  | yieldReady w e g hp => exact balanced_yieldReady f hp
  | yieldHold w e g hp => exact balanced_returns f hp rfl rfl (by simp [Phase.Returns])
  | finish w e g y hy hp =>
    refine balanced_returns f hp rfl rfl ?_
    rcases hy with rfl | rfl <;> simp [Phase.Returns]
  | ended w e g y hp hst =>
    obtain ⟨-, -, hallows, -⟩ := owned_of_phase hs hp rfl
    refine balanced_returns f hp rfl rfl ?_
    split <;> simp [Phase.Returns, show y ≠ .ready from hallows]
  | putBack w e g y hp =>
    obtain ⟨-, -, hallows, -⟩ := owned_of_phase hs hp rfl
    obtain rfl : y = .ready := hallows
    exact balanced_putBack f hp
  | park w e g y hp =>
    obtain ⟨-, -, hallows, -⟩ := owned_of_phase hs hp rfl
    obtain rfl : y = .hold := hallows
    exact balanced_returns f hp (State.phase_dropCb _ w e) (State.returning_dropCb _ w e f)
      (by simp [Phase.Returns])
  | recycle w e g y hp =>
    obtain ⟨-, -, hallows, -⟩ := owned_of_phase hs hp rfl
    refine balanced_returns f hp rfl rfl ?_
    rcases hallows with rfl | rfl <;> simp [Phase.Returns]

end

def Phase.loads : Phase W → Option (ℕ × ℕ)
  | .before .entering e f | .before .passed e f => if e.task = .cb then some (f, e.id) else none
  | _ => none

def Duty.Live (d : Duty) : Prop := d = .pending ∨ d = .parked

structure Jobs (s : State W) : Prop where
  loaded (w : W) (f id : ℕ) : (s.phase w).loads = some (f, id) → s.log.job f = some id
  started (id : ℕ) : id ∈ s.log.started →
    id ∈ s.log.finished ∨ ∃ f, s.log.job f = some id ∧ (s.log.duty f).Live

section

variable {s t : State W} {w : W} {e : Entry W} {f g : ℕ} {p q : Phase W}

theorem Phase.loads_fiber {id : ℕ} (h : p.loads = some (f, id)) : p.fiber = some f := by
  cases p with
  | before a e g =>
    cases a <;> simp_all [Phase.loads, Phase.fiber]
  | _ => simp [Phase.loads] at h

theorem Jobs.same (hj : Jobs s) (hphase : t.phase = s.phase) (hjob : t.log.job = s.log.job)
    (hstarted : t.log.started = s.log.started) (hfinished : t.log.finished = s.log.finished)
    (hlive : ∀ f, (s.log.duty f).Live → (t.log.duty f).Live) : Jobs t where
  loaded w f id h := by
    rw [hjob]
    rw [hphase] at h
    exact hj.loaded w f id h
  started id h := by
    rw [hstarted] at h
    rw [hfinished, hjob]
    exact (hj.started id h).imp_right fun ⟨f, hf, hd⟩ => ⟨f, hf, hlive f hd⟩

theorem Jobs.push (hj : Jobs s) (k : Task) (thread : Option W) : Jobs (s.push k thread) := by
  refine hj.same (s.phase_push k thread) ?_ ?_ ?_ fun f hf => ?_
  · cases k <;> rfl
  · cases k <;> rfl
  · cases k <;> rfl
  · by_cases hk : k = .fiber f
    · rw [hk, s.duty_push_fiber]
      exact .inl rfl
    · rw [s.duty_push_of_ne hk]
      exact hf

variable [DecidableEq W]

theorem Jobs.setPhase (hj : Jobs s) (hq : q.loads = none ∨ q.loads = (s.phase w).loads) :
    Jobs (s.setPhase w q) where
  loaded v f id h := by
    rw [State.phase_setPhase] at h
    by_cases hv : v = w
    · rw [hv, update_self] at h
      rcases hq with hq | hq
      · rw [hq] at h
        cases h
      · rw [hq] at h
        exact hj.loaded w f id h
    · rw [update_of_ne hv] at h
      exact hj.loaded v f id h
  started := hj.started

theorem Jobs.dropCb (hj : Jobs s) (w : W) (e : Entry W) : Jobs (s.dropCb w e) := by
  have hlog := s.log_dropCb w e
  exact hj.same (s.phase_dropCb w e) (by rw [hlog]) (by rw [hlog]) (by rw [hlog])
    fun f hf => by rw [hlog]; exact hf

theorem jobs_enter (hj : Jobs s) (hl : ∀ f, Ledger s f) (hp : s.phase w = .before .passed e g) :
    Jobs ((s.start e g).setPhase w (.before .running e g)) := by
  refine Jobs.setPhase ⟨fun v f id h => ?_, fun id h => ?_⟩ (.inl rfl)
  · rw [s.phase_start] at h
    have hjob : (s.start e g).log.job = s.log.job := by
      unfold State.start
      split <;> rfl
    rw [hjob]
    exact hj.loaded v f id h
  · unfold State.start at h ⊢
    split_ifs at h ⊢ with he
    · rcases mem_append.1 h with h | h
      · exact hj.started id h
      · obtain rfl := mem_singleton.1 h
        have hloads : (s.phase w).loads = some (g, e.id) := by
          rw [hp, Phase.loads, if_pos he]
        exact .inr ⟨g, hj.loaded w g e.id hloads, .inl ((hl g).phase_due hp rfl).2⟩
    · exact hj.started id h

theorem jobs_load {n : ℕ} (hj : Jobs s) (hdead : ¬ (s.log.duty g).Live)
    (hsole : ∀ v, (s.workers v).Owns g → v = w) :
    Jobs ({ s.load w e g with nextFiber := n }.setPhase w (.before .entering e g)) where
  loaded v f id h := by
    have hphase : ({ s.load w e g with nextFiber := n } : State W).phase = s.phase :=
      s.phase_load w e g
    rw [State.phase_setPhase, hphase] at h
    change update s.log.job g (some e.id) f = some id
    by_cases hv : v = w
    · rw [hv, update_self, Phase.loads] at h
      split at h
      · obtain ⟨rfl, rfl⟩ : g = f ∧ e.id = id := by simpa using h
        exact update_self ..
      · cases h
    · rw [update_of_ne hv] at h
      have hf : f ≠ g := by
        rintro rfl
        exact hv (hsole v (.inl (Phase.loads_fiber h)))
      rw [update_of_ne hf]
      exact hj.loaded v f id h
  started id h := by
    refine (hj.started id h).imp_right fun ⟨f, hjob, hlive⟩ => ⟨f, ?_⟩
    have hf : f ≠ g := fun hfg => hdead (hfg ▸ hlive)
    change update s.log.job g (some e.id) f = some id ∧
      (update s.log.duty g .pending f).Live
    rw [update_of_ne hf, update_of_ne hf]
    exact ⟨hjob, hlive⟩

theorem jobs_finish {y : Yield} (hj : Jobs s) (hp : s.phase w = .before .running e g)
    (hsole : ∀ v, (s.workers v).Owns g → v = w) :
    Jobs ((s.finishJob g y).setPhase w (.after .leaving e g y)) := by
  refine Jobs.setPhase ⟨fun v f id h => ?_, fun id h => ?_⟩ (.inl rfl)
  · change update s.log.job g none f = some id
    have hf : f ≠ g := by
      rintro rfl
      obtain rfl := hsole v (.inl (Phase.loads_fiber h))
      have hnone : (s.phase v).loads = none := by rw [hp]; rfl
      exact absurd (hnone.symm.trans h) nofun
    rw [update_of_ne hf]
    exact hj.loaded v f id h
  · change id ∈ s.log.finished ++ (s.log.job g).toList ∨ ∃ f,
      update s.log.job g none f = some id ∧
        (update s.log.duty g .finished f).Live
    rcases hj.started id h with h | ⟨f, hjob, hlive⟩
    · exact .inl (mem_append_left _ h)
    · by_cases hf : f = g
      · rw [← hf, hjob]
        exact .inl (mem_append_right _ (mem_singleton_self id))
      · refine .inr ⟨f, ?_⟩
        rw [update_of_ne hf, update_of_ne hf]
        exact ⟨hjob, hlive⟩

theorem Move.jobs {s' : State W} {l : Label W} (hm : Move s l s') (hs : ∀ f, Where s f)
    (hl : ∀ f, Ledger s f) (hj : Jobs s) : Jobs s' := by
  cases hm with
  | schedule ts => exact s.pushAll_induction (fun _ k thread h => h.push k thread) hj ts
  | create | flags | loadAbort | passAbort | yieldAbort | recycleAbort =>
    exact hj.same rfl rfl rfl rfl fun _ h => h
  | nothing w hp => exact hj.setPhase (.inl (by split <;> rfl))
  | idle w b hp =>
    exact Jobs.setPhase (hj.same (s.phase_setIdleTerm w b) rfl rfl rfl fun _ h => h) (.inl rfl)
  | take w e rest hp | decrement w e g y hp | drop w hp | yieldReady w e g hp
  | recycle w e g y hp => exact Jobs.setPhase (hj.same rfl rfl rfl rfl fun _ h => h) (.inl rfl)
  | pick w e g hp he =>
    refine hj.setPhase (.inl ?_)
    rw [Phase.loads, he]
    rfl
  | skip w e g hp | switched w e g y hp | isReady w e g y hp | notReady w e g y hp
  | notEnded w e g y hp => exact hj.setPhase (.inl rfl)
  | loadNew w e hp he hcb =>
    obtain ⟨howner, -⟩ := (hs s.nextFiber).nowhere_of_unborn le_rfl
    refine jobs_load hj ?_ fun v hv => absurd hv (howner v)
    rw [(hl s.nextFiber).unborn le_rfl]
    rintro (h | h) <;> cases h
  | loadOld w e g hp he hcb =>
    have hown := (hs g).owned_of_owns (.inr hcb)
    have hfiber : (s.workers w).phase.fiber ≠ some g := by
      change (s.phase w).fiber ≠ some g
      rw [hp, Phase.fiber, he]
      exact (Option.some_ne_none g).symm
    have hdue := (hl g).owned w (.inr hcb)
    rw [Worker.Due, if_neg hfiber] at hdue
    refine jobs_load hj ?_ hown.sole
    rw [hdue.2]
    rintro (h | h) <;> cases h
  | pass w e g hp =>
    refine hj.setPhase (.inr ?_)
    rw [hp]
    rfl
  | enter w e g hp => exact jobs_enter hj hl hp
  | yieldHold w e g hp =>
    refine Jobs.setPhase (hj.same rfl rfl rfl rfl fun f hf => ?_) (.inl rfl)
    change (update s.log.duty g .parked f).Live
    by_cases hfg : f = g
    · rw [hfg, update_self]
      exact .inr rfl
    · rw [update_of_ne hfg]
      exact hf
  | finish w e g y hy hp => exact jobs_finish hj hp (owned_of_phase hs hp rfl).1.sole
  | ended w e g y hp => exact hj.setPhase (.inl (by split <;> rfl))
  | putBack w e g y hp =>
    have hsame : Jobs { s with log := { s.log with putBacks := s.log.putBacks ++ [g] } } :=
      hj.same rfl rfl rfl rfl fun _ h => h
    exact ((hsame.push (.fiber g) none).dropCb w e).setPhase (.inl rfl)
  | park w e g y hp =>
    have hsame : Jobs (s.setFiber g .hold) := hj.same rfl rfl rfl rfl fun _ h => h
    exact (hsame.dropCb w e).setPhase (.inl rfl)

end

/-- The tasks scheduled so far, and where they are. -/
structure Conserved [Fintype W] (s : State W) : Prop where
  /-- Every entry is in the queue or was taken out of it, once, by one worker. -/
  removed : (s.log.taken.map Prod.fst ++ s.queue.map Entry.id).Perm (List.range s.log.nextId)
  /-- A callback was started once, or it is queued or held by one worker. -/
  callback (id : ℕ) :
    s.log.started.count id + s.queue.countP (fun e => e.task = .cb ∧ e.id = id) +
      threadCount (Phase.Unstarted id) s.phase = if id ∈ s.log.callbacks then 1 else 0
  /-- A callback that was started is finished, or its fiber is scheduled or parked. -/
  job (id : ℕ) (h : id ∈ s.log.started) :
    id ∈ s.log.finished ∨ ∃ f, s.log.job f = some id ∧ (s.log.duty f).Live
  /-- A fiber that owes a run is in the queue or held by one worker. -/
  fiber (f : ℕ) : s.queued f + threadCount (Phase.Holds f) s.phase =
    if s.log.duty f = .pending then 1 else 0
  /-- A fiber that has yielded to HOLD is in `HOLD`, or its worker is about to do that. -/
  parked (f : ℕ) (h : s.log.duty f = .parked) :
    s.fibers f = .hold ∨ ∃ w a e, s.phase w = .after a e f .hold
  /-- Every yield to READY is followed by one return to the queue. -/
  putBack (f : ℕ) : s.log.readyYields.count f =
    s.log.putBacks.count f + threadCount (Phase.Returns f) s.phase
  active : s.active = threadCount Phase.Busy s.phase
  aborted : s.aborted = none

variable {s : State W}

theorem Ledger.parked {f : ℕ} (h : Ledger s f) (hd : s.log.duty f = .parked) :
    s.fibers f = .hold ∨ ∃ w a e, s.phase w = .after a e f .hold := by
  by_cases hno : ∀ w, ¬ (s.workers w).Owns f
  · rcases h.unowned hno with ⟨-, hp⟩ | ⟨-, ⟨hp, -⟩ | ⟨-, hst⟩ | ⟨hp, -⟩⟩
    · cases hd.symm.trans hp
    · cases hd.symm.trans hp
    · exact .inl hst
    · cases hd.symm.trans hp
  · push Not at hno
    obtain ⟨w, hw⟩ := hno
    obtain ⟨-, hf, a, e, g, hx⟩ := (h.owned w hw).schedulable (.inr hd)
    rw [hx] at hf
    obtain rfl : g = f := Option.some.inj hf
    exact .inr ⟨w, a, e, hx⟩

variable [DecidableEq W]

theorem disciplined_jobs (h : Reachable Initial Step Disciplined s) : Jobs s := by
  refine h.invariant_under (fun s hs => disciplined_ledger hs) (fun s h => ?_)
    fun s l s' hQ hj _ hstep => hstep.2.jobs hQ.1 hQ.2.1 hj
  refine ⟨fun w f id hloads => ?_, fun id hid => ?_⟩
  · rw [h.phase w] at hloads
    cases hloads
  · rw [h.log] at hid
    cases hid

variable [Fintype W]

theorem disciplined_returns (h : Reachable Initial Step Disciplined s) (f : ℕ) :
    s.returning f = threadCount (Phase.Returns f) s.phase := by
  refine h.invariant_under (fun s hs => disciplined_ledger hs) (fun s h => ?_)
    fun s l s' hQ hr _ hstep => (hstep.2.returns hQ.1 f).keep hr
  rw [threadCount_eq_zero_iff.2 fun w => by rw [h.phase w]; exact id, State.returning, h.log]
  rfl

omit [DecidableEq W] [Fintype W] in
theorem State.Numbered.count_callbacks (h : s.Numbered) (id : ℕ) :
    s.log.callbacks.count id = if id ∈ s.log.callbacks then 1 else 0 := by
  have hnodup := h.callbacks.nodup nodup_range
  split
  · rename_i hid
    exact count_eq_one_of_mem hnodup hid
  · rename_i hid
    exact count_eq_zero_of_not_mem hid

/-- Where each fiber is scheduled again only after it has yielded to HOLD, no task is lost or
doubled in any interleaving. -/
theorem disciplined_conserved (h : Reachable Initial Step Disciplined s) : Conserved s where
  removed := (numbered h).entries
  callback id := by
    have hheld := unstarted_eq h id
    rw [State.unstarted] at hheld
    rw [← (numbered h).count_callbacks id]
    omega
  job := (disciplined_jobs h).started
  fiber f := ((disciplined_ledger h).2.1 f).total ((disciplined_ledger h).1 f)
  parked f := ((disciplined_ledger h).2.1 f).parked
  putBack f := by
    have hreturns := disciplined_returns h f
    rw [State.returning] at hreturns
    omega
  active := active_eq h
  aborted := (disciplined_ledger h).2.2

/-- A fiber and a callback are queued; the callback runs in one worker, the fiber has yielded
to READY and is about to be put back by the other one. -/
theorem disciplined_conserved_run : ∃ s : State Bool, Reachable Initial Step Disciplined s ∧
    s.log.started = [1] ∧ (s.phase false).Returns 0 ∧ Conserved s := by
  have h : Reachable Initial Step Disciplined (State.new : State Bool) := .start initial_new
  have h := h.andThen ⟨rfl, .create⟩
  have h := h.andThen ⟨rfl, .schedule [(.fiber 0, none), (.cb, none)]⟩ ⟨by decide, by
    intro f hf
    obtain rfl := mem_singleton.1 hf
    exact ⟨by decide, .inl rfl⟩⟩
  have h := h.andThen ⟨rfl, .take false ⟨0, .fiber 0, none⟩ [⟨1, .cb, none⟩] rfl rfl⟩
  have h := h.andThen ⟨rfl, .pick false _ 0 rfl rfl (by decide)⟩
  have h := h.andThen ⟨rfl, .pass false _ 0 rfl (by decide)⟩
  have h := h.andThen ⟨rfl, .enter false _ 0 rfl⟩
  have h := h.andThen ⟨rfl, .take true ⟨1, .cb, none⟩ [] rfl rfl⟩
  have h := h.andThen ⟨rfl, .loadNew true _ rfl rfl rfl⟩
  have h := h.andThen ⟨rfl, .pass true _ 1 rfl (by decide)⟩
  have h := h.andThen ⟨rfl, .enter true _ 1 rfl⟩
  have h := h.andThen ⟨rfl, .yieldReady false _ 0 rfl rfl⟩
  exact ⟨_, h, rfl, ⟨rfl, rfl⟩, disciplined_conserved h⟩

end JKYi.Scheduler
