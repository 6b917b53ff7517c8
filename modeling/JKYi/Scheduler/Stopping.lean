import JKYi.Scheduler.Conservation

/-!
# When the scheduler says that it stops

`stopping()` asks for an empty queue and no active worker. A worker leaves the
count of the active ones before it puts a READY fiber back, so in between the
fiber is in neither; apart from that nothing is left to do when `stopping()`
returns true.
-/

namespace JKYi.Scheduler

open List

variable {W : Type}

/-- The worker holds a READY fiber that it has not yet put back, and counts as inactive. -/
def State.PutsBack (s : State W) (w : W) : Prop :=
  ∃ e f y, s.phase w = .after .checkReady e f y ∧ s.fibers f = .ready ∨
    s.phase w = .after .putBack e f y

/-- `m_autoStop` and `m_stopping` are set. -/
def State.Asked (s : State W) : Prop := s.autoStop = true ∧ s.stopping = true

/-- The worker is behind its fiber's switch, and the fiber is READY and not yet put back. -/
def State.Returns (s : State W) (w : W) : Prop :=
  ∃ a e f y, s.phase w = .after a e f y ∧ (s.fibers f = .ready ∨ a = .putBack)

/-- No fiber yields to READY when the scheduler is asked to stop, and it is asked when no worker
has a READY fiber to put back. -/
def Unhurried (s : State W) : Label W → Prop
  | .yieldReady _ => ¬ s.Asked
  | .flags a b => a = true ∧ b = true → ∀ w, ¬ s.Returns w
  | .schedule _ | .yieldHold _ | .finish _ | .other => True

/-- Every task scheduled so far was taken and has come back, and no worker holds one. -/
structure Settled (s : State W) : Prop where
  queue : s.queue = []
  taken (id : ℕ) (h : id < s.log.nextId) : ∃ w, (id, w) ∈ s.log.taken
  running (w : W) : ¬ (s.phase w).Busy
  ready (w : W) : ¬ s.PutsBack w

/-- Every fiber that was scheduled has ended or is parked, and every callback is finished or
in a fiber that is parked. -/
structure Finished (s : State W) : Prop where
  fiber (f : ℕ) : s.log.duty f ≠ .pending
  callback (id : ℕ) (h : id ∈ s.log.callbacks) :
    id ∈ s.log.finished ∨ ∃ f, s.log.job f = some id ∧ s.log.duty f = .parked

section

variable {s : State W}

theorem State.isStopping_iff (s : State W) : s.isStopping = true ↔
    s.autoStop = true ∧ s.stopping = true ∧ s.queue = [] ∧ s.active = 0 := by
  simp [isStopping, and_assoc]

theorem State.Numbered.all_taken (h : s.Numbered) (hqueue : s.queue = []) (id : ℕ)
    (hid : id < s.log.nextId) : ∃ w, (id, w) ∈ s.log.taken := by
  have hperm := h.entries
  rw [hqueue, map_nil, append_nil] at hperm
  have hmem := hperm.mem_iff.2 (mem_range.2 hid)
  obtain ⟨⟨i, w⟩, hiw, rfl⟩ := mem_map.1 hmem
  exact ⟨w, hiw⟩

theorem Phase.Unstarted.busy {id : ℕ} {p : Phase W} (h : p.Unstarted id) : p.Busy := by
  cases p with
  | taken | before => trivial
  | _ => exact h.elim

theorem putsBack_of_holds {w : W} {f : ℕ} (hs : ∀ f, Where s f) (hholds : (s.phase w).Holds f)
    (hidle : ¬ (s.phase w).Busy) : s.PutsBack w := by
  cases hp : s.phase w with
  | taken e | before a e g =>
    rw [hp] at hidle
    exact absurd trivial hidle
  | after a e g y =>
    rw [hp] at hholds hidle
    obtain ⟨rfl, rfl⟩ := hholds
    obtain ⟨-, hst, hallows, -⟩ := owned_of_phase hs hp rfl
    cases a with
    | leaving | returned => exact absurd trivial hidle
    | checkReady => exact ⟨e, g, .ready, .inl ⟨hp, hst⟩⟩
    | putBack => exact ⟨e, g, .ready, .inr hp⟩
    | checkEnd => exact absurd rfl hallows
    | parking => cases hallows
    | recycling => rcases hallows with h | h <;> cases h
  | dropping | top | idle | done =>
    rw [hp] at hholds
    exact hholds.elim

variable [DecidableEq W] [Fintype W]

theorem idle_of_isStopping {C : State W → Label W → Prop} (h : Reachable Initial Step C s)
    (hstop : s.isStopping = true) : s.queue = [] ∧ ∀ w, ¬ (s.phase w).Busy := by
  obtain ⟨-, -, hqueue, hactive⟩ := s.isStopping_iff.1 hstop
  have hcount := active_eq h
  exact ⟨hqueue, threadCount_eq_zero_iff.1 (by omega)⟩

/-- With discipline, what is left when `stopping()` returns true is in the hands of a worker
that is about to put it back. -/
theorem finished_of_not_putsBack (h : Reachable Initial Step Disciplined s)
    (hstop : s.isStopping = true) (hready : ∀ w, ¬ s.PutsBack w) : Finished s := by
  obtain ⟨hs, -, -⟩ := disciplined_ledger h
  obtain ⟨hqueue, hidle⟩ := idle_of_isStopping h hstop
  have hconserved := disciplined_conserved h
  have hfiber : ∀ f, s.log.duty f ≠ .pending := by
    intro f hf
    have htotal := hconserved.fiber f
    have hnone : threadCount (Phase.Holds f) s.phase = 0 :=
      threadCount_eq_zero_iff.2 fun w hw => hready w (putsBack_of_holds hs hw (hidle w))
    rw [if_pos hf, hnone, State.queued, hqueue] at htotal
    cases htotal
  refine ⟨hfiber, fun id hid => ?_⟩
  have hcallback := hconserved.callback id
  rw [if_pos hid, hqueue, threadCount_eq_zero_iff.2 fun w hw => hidle w hw.busy] at hcallback
  have hstarted : id ∈ s.log.started := count_pos_iff.1 (by simpa using hcallback.ge)
  refine (hconserved.job id hstarted).imp_right ?_
  rintro ⟨f, hjob, hlive⟩
  exact ⟨f, hjob, hlive.resolve_left (hfiber f)⟩

end

/-! What the steps keep. -/

def Unreturned (s : State W) : Prop := s.Asked → ∀ w, ¬ s.Returns w

section

variable {s t : State W} {w : W} {p : Phase W}

theorem State.PutsBack.returns (h : s.PutsBack w) : s.Returns w := by
  obtain ⟨e, f, y, ⟨hp, hready⟩ | hp⟩ := h
  · exact ⟨_, e, f, y, hp, .inl hready⟩
  · exact ⟨_, e, f, y, hp, .inr rfl⟩

variable [DecidableEq W]

theorem Unreturned.setPhase (h : Unreturned s) (hasked : t.Asked → s.Asked)
    (hphase : t.phase = s.phase) (hfibers : ∀ f, t.fibers f = .ready → s.fibers f = .ready)
    (hp : s.Asked → ∀ a e f y, p = .after a e f y → t.fibers f ≠ .ready ∧ a ≠ .putBack := by
      simp) :
    Unreturned (t.setPhase w p) := by
  rintro ha v ⟨a, e, f, y, hv, hready⟩
  rw [State.phase_setPhase, hphase] at hv
  by_cases hvw : v = w
  · rw [hvw, Function.update_self] at hv
    have hother := hp (hasked ha) a e f y hv
    exact hready.elim hother.1 hother.2
  · rw [Function.update_of_ne hvw] at hv
    exact h (hasked ha) v ⟨a, e, f, y, hv, hready.imp_left (hfibers f)⟩

omit [DecidableEq W] in
theorem Unreturned.after {a : After} {e : Entry W} {f : ℕ} {y : Yield} (h : Unreturned s)
    (hp : s.phase w = .after a e f y) (ha : s.Asked) : s.fibers f ≠ .ready :=
  fun hready => h ha w ⟨a, e, f, y, hp, .inl hready⟩

theorem ready_of_update {fibers : ℕ → FiberState} {f g : ℕ} {st : FiberState}
    (h : Function.update fibers f st g = .ready) (hst : st ≠ .ready := by decide) :
    fibers g = .ready := by
  by_cases hg : g = f
  · rw [hg, Function.update_self] at h
    exact absurd h hst
  · rwa [Function.update_of_ne hg] at h

theorem Move.unreturned {l : Label W} {s' : State W} (hm : Move s l s') (hc : Unhurried s l)
    (h : Unreturned s) : Unreturned s' := by
  cases hm with
  | schedule ts =>
    exact s.pushAll_induction (fun _ k _ h => by cases k <;> exact h) h ts
  | create =>
    rintro ha v ⟨a, e, f, y, hv, hready⟩
    exact h ha v ⟨a, e, f, y, hv, hready.imp_left fun h => ready_of_update h⟩
  | flags a b => exact fun ha w => hc ha w
  | loadAbort | passAbort | yieldAbort | recycleAbort => exact h
  | take | pick | skip | pass | drop => exact h.setPhase id rfl fun _ => id
  | nothing => exact h.setPhase id rfl (fun _ => id) (by split <;> simp)
  | idle w b => exact h.setPhase id (s.phase_setIdleTerm w b) fun _ => id
  | loadNew w e | loadOld w e f =>
    exact h.setPhase id (s.phase_load w e _) fun _ h => ready_of_update h
  | enter w e f =>
    unfold State.start
    dsimp only
    split <;> exact h.setPhase id rfl fun _ h => ready_of_update h
  | yieldReady => exact fun ha => absurd ha hc
  | yieldHold w e f hp hst =>
    refine h.setPhase id rfl (fun _ => id) ?_
    rintro - _ _ _ _ ⟨⟩
    exact ⟨by simp [State.setDuty, hst], by decide⟩
  | finish w e f y hy hp =>
    have hst : y.state ≠ .ready := by rcases hy with rfl | rfl <;> decide
    refine h.setPhase id rfl (fun _ h => ready_of_update h hst) ?_
    rintro - _ _ _ _ ⟨⟩
    refine ⟨?_, by decide⟩
    simpa [State.finishJob, State.setDuty, State.setJob, State.setFiber] using hst
  | switched w e f y hp | decrement w e f y hp | notReady w e f y hp | notEnded w e f y hp =>
    refine h.setPhase id rfl (fun _ => id) ?_
    rintro ha _ _ _ _ ⟨⟩
    exact ⟨h.after hp ha, by decide⟩
  | isReady w e f y hp hst =>
    refine h.setPhase id rfl (fun _ => id) ?_
    intro ha
    exact absurd hst (h.after hp ha)
  | ended w e f y hp =>
    refine h.setPhase id rfl (fun _ => id) ?_
    intro ha a e f y heq
    split at heq
    · cases heq
      exact ⟨h.after hp ha, by decide⟩
    · cases heq
  | putBack w e f y hp =>
    refine h.setPhase ?_ ((State.phase_dropCb ..).trans (State.phase_push ..)) ?_
    · unfold State.dropCb
      split <;> exact id
    · unfold State.dropCb
      split <;> exact fun _ => id
  | park w e f y hp =>
    refine h.setPhase ?_ (State.phase_dropCb ..) ?_
    · unfold State.dropCb
      split <;> exact id
    · unfold State.dropCb
      split <;> exact fun _ h => ready_of_update h
  | recycle w e f y hp => exact h.setPhase id rfl fun _ h => ready_of_update h

omit [DecidableEq W] in
theorem Initial.unreturned (h : Initial s) : Unreturned s := by
  rintro - w ⟨a, e, f, y, hp, -⟩
  cases (h.phase w).symm.trans hp

variable [Fintype W]

/-- In every run in which no fiber yields to READY when the scheduler is asked to stop, all is
settled whenever `stopping()` returns true. -/
theorem isStopping_settled (h : Reachable Initial Step Unhurried s) (hstop : s.isStopping = true) :
    Settled s ∧ (Reachable Initial Step Disciplined s → Finished s) := by
  have hunreturned : Unreturned s :=
    h.invariant (fun _ h => h.unreturned) fun _ _ _ hs hc hstep => hstep.2.unreturned hc hs
  obtain ⟨hauto, hstopping, -⟩ := s.isStopping_iff.1 hstop
  have hready : ∀ w, ¬ s.PutsBack w := fun w hw => hunreturned ⟨hauto, hstopping⟩ w hw.returns
  obtain ⟨hqueue, hidle⟩ := idle_of_isStopping h hstop
  exact ⟨⟨hqueue, (numbered h).all_taken hqueue, hidle, hready⟩,
    fun hd => finished_of_not_putsBack hd hstop hready⟩

end

/-- A fiber yields to READY and is put back before the scheduler is asked to stop, and has ended
when `stopping()` returns true. -/
theorem isStopping_settled_run : ∃ s : State Unit,
    Reachable Initial Step (fun s l => Unhurried s l ∧ Disciplined s l) s ∧
    s.log.readyYields = [0] ∧ s.isStopping = true ∧ Settled s ∧ Finished s := by
  have h : Reachable Initial Step (fun s l => Unhurried s l ∧ Disciplined s l)
    (State.new : State Unit) := .start initial_new
  have h := h.andThen ⟨rfl, .create⟩
  have h := h.andThen ⟨rfl, .schedule [(.fiber 0, none)]⟩ ⟨trivial, by decide, by
    intro f hf
    obtain rfl := mem_singleton.1 hf
    exact ⟨by decide, .inl rfl⟩⟩
  have h := h.andThen ⟨rfl, .take () ⟨0, .fiber 0, none⟩ [] rfl rfl⟩
  have h := h.andThen ⟨rfl, .pick () _ 0 rfl rfl (by decide)⟩
  have h := h.andThen ⟨rfl, .pass () _ 0 rfl (by decide)⟩
  have h := h.andThen ⟨rfl, .enter () _ 0 rfl⟩
  have h := h.andThen ⟨rfl, .yieldReady () _ 0 rfl rfl⟩ ⟨by rintro ⟨⟨⟩, -⟩, trivial⟩
  have h := h.andThen ⟨rfl, .switched () _ 0 .ready rfl⟩
  have h := h.andThen ⟨rfl, .decrement () _ 0 .ready rfl⟩
  have h := h.andThen ⟨rfl, .isReady () _ 0 .ready rfl rfl⟩
  have h := h.andThen ⟨rfl, .putBack () _ 0 .ready rfl⟩
  have h := h.andThen ⟨rfl, .flags true true⟩ ⟨by rintro - w ⟨_, _, _, _, ⟨⟩, -⟩, trivial⟩
  have h := h.andThen ⟨rfl, .take () ⟨1, .fiber 0, none⟩ [] rfl rfl⟩
  have h := h.andThen ⟨rfl, .pick () _ 0 rfl rfl (by decide)⟩
  have h := h.andThen ⟨rfl, .pass () _ 0 rfl (by decide)⟩
  have h := h.andThen ⟨rfl, .enter () _ 0 rfl⟩
  have h := h.andThen ⟨rfl, .finish () _ 0 .term (.inl rfl) rfl⟩
  have h := h.andThen ⟨rfl, .switched () _ 0 .term rfl⟩
  have h := h.andThen ⟨rfl, .decrement () _ 0 .term rfl⟩
  have hstop := isStopping_settled (h.mono fun _ _ hc => hc.1) rfl
  exact ⟨_, h, rfl, rfl, hstop.1, hstop.2 (h.mono fun _ _ hc => hc.2)⟩

/-- A fiber has yielded to READY, its worker has left the count, and `stopping()` returns true
before the fiber is put back. -/
theorem isStopping_unsettled : ∃ s : State Unit, Reachable Initial Step Disciplined s ∧
    s.isStopping = true ∧ ¬ Settled s ∧ ¬ Finished s := by
  have h : Reachable Initial Step Disciplined (State.new : State Unit) := .start initial_new
  have h := h.andThen ⟨rfl, .create⟩
  have h := h.andThen ⟨rfl, .schedule [(.fiber 0, none)]⟩ ⟨by decide, by
    intro f hf
    obtain rfl := mem_singleton.1 hf
    exact ⟨by decide, .inl rfl⟩⟩
  have h := h.andThen ⟨rfl, .flags true true⟩
  have h := h.andThen ⟨rfl, .take () ⟨0, .fiber 0, none⟩ [] rfl rfl⟩
  have h := h.andThen ⟨rfl, .pick () _ 0 rfl rfl (by decide)⟩
  have h := h.andThen ⟨rfl, .pass () _ 0 rfl (by decide)⟩
  have h := h.andThen ⟨rfl, .enter () _ 0 rfl⟩
  have h := h.andThen ⟨rfl, .yieldReady () _ 0 rfl rfl⟩
  have h := h.andThen ⟨rfl, .switched () _ 0 .ready rfl⟩
  have h := h.andThen ⟨rfl, .decrement () _ 0 .ready rfl⟩
  refine ⟨_, h, rfl, fun hsettled => ?_, fun hfinished => ?_⟩
  · exact hsettled.ready () ⟨_, 0, .ready, .inl ⟨rfl, rfl⟩⟩
  · exact hfinished.fiber 0 rfl

end JKYi.Scheduler
