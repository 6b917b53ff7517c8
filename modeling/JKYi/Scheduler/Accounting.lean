import JKYi.Scheduler.Model

/-!
# What every run of the scheduler accounts for

However tasks are scheduled, the counter of active workers counts the workers
between taking a task and returning from it, every queued entry is taken at most
once, and every callback is started at most once.
-/

namespace JKYi.Scheduler

open List Function

section

variable {W : Type} (s : State W)

@[simp] theorem State.phase_push (t : Task) (thread : Option W) :
    (s.push t thread).phase = s.phase := by
  cases t <;> rfl

@[simp] theorem State.phase_start (e : Entry W) (f : ℕ) : (s.start e f).phase = s.phase := by
  unfold start
  split <;> rfl

theorem State.pushAll_induction {P : State W → Prop}
    (hpush : ∀ s t thread, P s → P (s.push t thread)) (hs : P s) (ts : List (Task × Option W)) :
    P (s.pushAll ts) := by
  induction ts generalizing s with
  | nil => exact hs
  | cons t ts ih => exact ih _ (hpush s t.1 t.2 hs)

variable [DecidableEq W]

theorem State.phase_updateWorker (w : W) (x : Worker W) :
    ({ s with workers := update s.workers w x } : State W).phase =
      update s.phase w x.phase := by
  funext v
  by_cases h : v = w
  · subst h
    simp [phase]
  · simp [phase, h]

@[simp] theorem State.phase_setPhase (w : W) (p : Phase W) :
    (s.setPhase w p).phase = update s.phase w p :=
  s.phase_updateWorker w _

@[simp] theorem State.phase_setCbFiber (w : W) (f : Option ℕ) :
    (s.setCbFiber w f).phase = s.phase :=
  (s.phase_updateWorker w _).trans (update_eq_self w s.phase)

@[simp] theorem State.phase_setIdleTerm (w : W) (b : Bool) :
    (s.setIdleTerm w b).phase = s.phase :=
  (s.phase_updateWorker w _).trans (update_eq_self w s.phase)

@[simp] theorem State.phase_dropCb (w : W) (e : Entry W) : (s.dropCb w e).phase = s.phase := by
  unfold dropCb
  split
  · exact phase_setCbFiber s w none
  · rfl

@[simp] theorem State.phase_load (w : W) (e : Entry W) (f : ℕ) :
    (s.load w e f).phase = s.phase :=
  phase_setCbFiber _ w (some f)

end

variable {W : Type}

theorem scan_eq_some {p : Entry W → Bool} {es rest : List (Entry W)} {e : Entry W}
    (h : scan p es = some (e, rest)) :
    p e = true ∧ ∃ l₁ l₂, es = l₁ ++ e :: l₂ ∧ rest = l₁ ++ l₂ := by
  induction es generalizing rest with
  | nil => simp [scan] at h
  | cons x es ih =>
    rw [scan] at h
    split at h
    · rename_i hx
      obtain ⟨rfl, rfl⟩ : x = e ∧ es = rest := by simpa using h
      exact ⟨hx, [], es, rfl, rfl⟩
    · obtain ⟨r, hr, heq⟩ := Option.map_eq_some_iff.1 h
      obtain ⟨rfl, rfl⟩ : r.1 = e ∧ x :: r.2 = rest := by simpa using heq
      obtain ⟨hp, l₁, l₂, rfl, hrest⟩ := ih hr
      exact ⟨hp, x :: l₁, l₂, rfl, by rw [hrest]; rfl⟩

theorem scan_perm {p : Entry W → Bool} {es rest : List (Entry W)} {e : Entry W}
    (h : scan p es = some (e, rest)) : es.Perm (e :: rest) := by
  obtain ⟨-, l₁, l₂, rfl, rfl⟩ := scan_eq_some h
  exact perm_middle

def Phase.Busy : Phase W → Prop
  | .taken _ | .before _ _ _ | .after .leaving _ _ _ | .after .returned _ _ _ | .dropping => True
  | _ => False

instance : DecidablePred (Phase.Busy (W := W))
  | .taken _ | .before _ _ _ | .after .leaving _ _ _ | .after .returned _ _ _ | .dropping =>
    .isTrue trivial
  | .after .checkReady _ _ _ | .after .checkEnd _ _ _ | .after .putBack _ _ _
  | .after .parking _ _ _ | .after .recycling _ _ _ | .top | .idle | .done => .isFalse id

def Phase.Unstarted (id : ℕ) : Phase W → Prop
  | .taken e | .before .entering e _ | .before .passed e _ => e.task = .cb ∧ e.id = id
  | _ => False

instance (n : ℕ) : DecidablePred (Phase.Unstarted (W := W) n)
  | .taken e | .before .entering e _ | .before .passed e _ =>
    inferInstanceAs (Decidable (e.task = .cb ∧ e.id = n))
  | .before .running _ _ | .after _ _ _ _ | .dropping | .top | .idle | .done => .isFalse id

namespace State

def unstarted (s : State W) (id : ℕ) : ℤ :=
  s.log.callbacks.count id - s.log.started.count id -
    s.queue.countP (fun e => e.task = .cb ∧ e.id = id)

structure Numbered (s : State W) : Prop where
  entries : (s.log.taken.map Prod.fst ++ s.queue.map Entry.id).Perm (range s.log.nextId)
  callbacks : s.log.callbacks.Sublist (range s.log.nextId)

theorem Numbered.push {s : State W} (h : s.Numbered) (t : Task) (thread : Option W) :
    (s.push t thread).Numbered := by
  have hrange : range (s.log.nextId + 1) = range s.log.nextId ++ [s.log.nextId] :=
    range_succ
  have hentries : (s.log.taken.map Prod.fst ++
      (s.queue ++ [Entry.mk s.log.nextId t thread]).map Entry.id).Perm
        (range (s.log.nextId + 1)) := by
    rw [map_append, ← append_assoc, hrange]
    exact h.entries.append_right _
  cases t with
  | fiber f =>
    refine ⟨hentries, ?_⟩
    change s.log.callbacks.Sublist (range (s.log.nextId + 1))
    rw [hrange]
    exact h.callbacks.trans (sublist_append_left _ _)
  | cb =>
    refine ⟨hentries, ?_⟩
    change (s.log.callbacks ++ [s.log.nextId]).Sublist (range (s.log.nextId + 1))
    rw [hrange]
    exact h.callbacks.append (List.Sublist.refl _)

theorem unstarted_push (s : State W) (t : Task) (thread : Option W) (id : ℕ) :
    (s.push t thread).unstarted id = s.unstarted id := by
  cases t with
  | fiber f => simp [unstarted, push, setDuty, countP_append]
  | cb =>
    simp only [unstarted, push, countP_append, if_true, count_append, Nat.cast_add]
    by_cases hid : s.log.nextId = id <;> simp [hid]
    omega

theorem unstarted_of_perm {s t : State W} {e : Entry W} (hperm : s.queue.Perm (e :: t.queue))
    (hcallbacks : t.log.callbacks = s.log.callbacks) (hstarted : t.log.started = s.log.started)
    (id : ℕ) :
    t.unstarted id = s.unstarted id + if (Phase.taken e).Unstarted id then 1 else 0 := by
  have hcount := hperm.countP_eq (fun e => e.task = .cb ∧ e.id = id)
  rw [countP_cons] at hcount
  rw [unstarted, unstarted, hcallbacks, hstarted, hcount]
  by_cases hid : e.task = .cb ∧ e.id = id
  · have hheld : (Phase.taken e).Unstarted id := hid
    rw [if_pos hheld, if_pos (decide_eq_true hid)]
    omega
  · have hheld : ¬ (Phase.taken e).Unstarted id := hid
    rw [if_neg hheld, if_neg (by simpa using hid)]
    omega

end State

variable [DecidableEq W]

structure Kept (s s' : State W) : Prop where
  active : Balanced Phase.Busy s.active s'.active s.phase s'.phase
  unstarted (id : ℕ) :
    Balanced (Phase.Unstarted id) (s.unstarted id) (s'.unstarted id) s.phase s'.phase
  numbered : s.Numbered → s'.Numbered

structure SameBooks (s t : State W) : Prop where
  phase : t.phase = s.phase
  active : t.active = s.active
  unstarted (id : ℕ) : t.unstarted id = s.unstarted id
  numbered : s.Numbered → t.Numbered

section

variable {s t : State W}

omit [DecidableEq W] in
theorem SameBooks.of_eq (hphase : t.phase = s.phase) (hactive : t.active = s.active)
    (hqueue : t.queue = s.queue) (htaken : t.log.taken = s.log.taken)
    (hnext : t.log.nextId = s.log.nextId) (hcallbacks : t.log.callbacks = s.log.callbacks)
    (hstarted : t.log.started = s.log.started) : SameBooks s t where
  phase := hphase
  active := hactive
  unstarted id := by rw [State.unstarted, State.unstarted, hcallbacks, hstarted, hqueue]
  numbered h := by
    refine ⟨?_, ?_⟩
    · rw [htaken, hqueue, hnext]
      exact h.entries
    · rw [hcallbacks, hnext]
      exact h.callbacks

omit [DecidableEq W] in
theorem SameBooks.push (h : SameBooks s t) (k : Task) (thread : Option W) :
    SameBooks s (t.push k thread) where
  phase := by rw [State.phase_push, h.phase]
  active := by cases k <;> exact h.active
  unstarted id := by rw [State.unstarted_push, h.unstarted]
  numbered hs := (h.numbered hs).push k thread

theorem SameBooks.dropCb (h : SameBooks s t) (w : W) (e : Entry W) :
    SameBooks s (t.dropCb w e) := by
  unfold State.dropCb
  split_ifs
  · exact ⟨(t.phase_setCbFiber w none).trans h.phase, h.active, h.unstarted,
      fun hs => ⟨(h.numbered hs).entries, (h.numbered hs).callbacks⟩⟩
  · exact h

end

section

variable {s t : State W} {w : W} {p q : Phase W}

theorem balanced_setPhase {P : Phase W → Prop} [DecidablePred P] {x x' : ℤ}
    (hp : s.phase w = p) (hphase : t.phase = s.phase)
    (hx : x' + (if P p then 1 else 0) = x + (if P q then 1 else 0)) :
    Balanced P x x' s.phase (t.setPhase w q).phase := by
  subst hp
  refine .inr ⟨w, q, ?_, hx⟩
  rw [State.phase_setPhase, hphase]

theorem Kept.still (h : SameBooks s t) : Kept s t :=
  ⟨.inl ⟨h.phase, h.active⟩, fun id => .inl ⟨h.phase, h.unstarted id⟩, h.numbered⟩

theorem Kept.turn (hp : s.phase w = p) (hphase : t.phase = s.phase)
    (hactive : t.active + (if p.Busy then 1 else 0) = s.active + (if q.Busy then 1 else 0))
    (hunstarted : ∀ id, t.unstarted id + (if p.Unstarted id then 1 else 0) =
      s.unstarted id + (if q.Unstarted id then 1 else 0))
    (hnumbered : s.Numbered → t.Numbered) : Kept s (t.setPhase w q) :=
  ⟨balanced_setPhase hp hphase hactive, fun id => balanced_setPhase hp hphase (hunstarted id),
    fun h => ⟨(hnumbered h).entries, (hnumbered h).callbacks⟩⟩

theorem Kept.move (hp : s.phase w = p) (h : SameBooks s t) (hbusy : p.Busy ↔ q.Busy)
    (hunstarted : ∀ id, p.Unstarted id ↔ q.Unstarted id) : Kept s (t.setPhase w q) := by
  refine .turn hp h.phase ?_ (fun id => ?_) h.numbered
  · rw [h.active, if_congr hbusy rfl rfl]
  · rw [h.unstarted, if_congr (hunstarted id) rfl rfl]

theorem kept_take {e : Entry W} {rest : List (Entry W)} (hp : s.phase w = .top)
    (hscan : scan (s.takable w) s.queue = some (e, rest)) :
    Kept s ({ s with
      queue := rest
      active := s.active + 1
      log := { s.log with taken := s.log.taken ++ [(e.id, w)] } }.setPhase w (.taken e)) := by
  have hperm := scan_perm hscan
  refine .turn hp rfl (by simp [Phase.Busy]) ?_ ?_
  · intro id
    have htop : ¬ (Phase.top : Phase W).Unstarted id := fun h => h
    rw [if_neg htop, add_zero]
    apply State.unstarted_of_perm
    · exact hperm
    · rfl
    · rfl
  · intro h
    refine ⟨?_, h.callbacks⟩
    refine List.Perm.trans ?_ h.entries
    simp only [map_append, map_cons, map_nil, append_assoc]
    exact (hperm.map Entry.id).symm.append_left _

theorem kept_enter {e : Entry W} {f : ℕ} (hp : s.phase w = .before .passed e f) :
    Kept s ((s.start e f).setPhase w (.before .running e f)) := by
  unfold State.start
  split_ifs with he
  · refine .turn hp rfl rfl (fun id => ?_) (fun h => ⟨h.entries, h.callbacks⟩)
    by_cases hid : e.id = id
    · simp [State.unstarted, Phase.Unstarted, State.setFiber, he, hid]
      omega
    · simp [State.unstarted, Phase.Unstarted, State.setFiber, he, hid]
  · refine .move hp (.of_eq rfl rfl rfl rfl rfl rfl rfl) .rfl fun id => ?_
    simp [Phase.Unstarted, he]

theorem Move.kept {s' : State W} {l : Label W} (h : Move s l s') : Kept s s' := by
  cases h with
  | schedule ts =>
    exact .still (s.pushAll_induction (P := SameBooks s) (fun _ k thread h => h.push k thread)
      (.of_eq rfl rfl rfl rfl rfl rfl rfl) ts)
  | create | flags | loadAbort | passAbort | yieldAbort | recycleAbort =>
    exact .still (.of_eq rfl rfl rfl rfl rfl rfl rfl)
  | take w e rest hp hscan => exact kept_take hp hscan
  | nothing w hp =>
    refine .move hp (.of_eq rfl rfl rfl rfl rfl rfl rfl) ?_ fun id => ?_ <;> split <;> rfl
  | idle w b hp =>
    exact .move hp (.of_eq (s.phase_setIdleTerm w b) rfl rfl rfl rfl rfl rfl) .rfl fun _ => .rfl
  | skip w e f hp he =>
    exact .move hp (.of_eq rfl rfl rfl rfl rfl rfl rfl) .rfl fun _ => by simp [Phase.Unstarted, he]
  | loadNew w e hp | loadOld w e f hp =>
    exact .move hp (.of_eq (s.phase_load w e _) rfl rfl rfl rfl rfl rfl) .rfl fun _ => .rfl
  | enter w e f hp => exact kept_enter hp
  | pick w e f hp | pass w e f hp | yieldReady w e f hp | yieldHold w e f hp
  | switched w e f y hp | isReady w e f y hp | notReady w e f y hp | notEnded w e f y hp
  | recycle w e f y hp | finish w e f y hy hp =>
    exact .move hp (.of_eq rfl rfl rfl rfl rfl rfl rfl) .rfl fun _ => .rfl
  | decrement w e f y hp | drop w hp =>
    exact .turn hp rfl (by simp [Phase.Busy]) (fun _ => rfl) fun h => ⟨h.entries, h.callbacks⟩
  | ended w e f y hp =>
    refine .move hp (.of_eq rfl rfl rfl rfl rfl rfl rfl) ?_ fun id => ?_ <;> split <;> rfl
  | putBack w e f y hp =>
    have hsame : SameBooks s { s with log := { s.log with putBacks := s.log.putBacks ++ [f] } } :=
      .of_eq rfl rfl rfl rfl rfl rfl rfl
    exact .move hp ((hsame.push (.fiber f) none).dropCb w e) .rfl fun _ => .rfl
  | park w e f y hp =>
    have hsame : SameBooks s (s.setFiber f .hold) := .of_eq rfl rfl rfl rfl rfl rfl rfl
    exact .move hp (hsame.dropCb w e) .rfl fun _ => .rfl

end

variable {s : State W} {C : State W → Label W → Prop}

omit [DecidableEq W] in
theorem Initial.unstarted (h : Initial s) (id : ℕ) : s.unstarted id = 0 := by
  simp [State.unstarted, h.queue, h.log]

theorem numbered (h : Reachable Initial Step C s) : s.Numbered := by
  refine h.invariant (fun s h => ?_) fun s _ s' hs _ hstep => hstep.2.kept.numbered hs
  exact ⟨by simp [h.queue, h.log], by simp [h.log]⟩

variable [Fintype W]

/-- `m_activeThreadCount` is the number of workers between taking a task and returning from
it. -/
theorem active_eq (h : Reachable Initial Step C s) : s.active = threadCount Phase.Busy s.phase := by
  refine h.invariant (fun s h => ?_) fun s _ s' hs _ hstep => hstep.2.kept.active.keep hs
  rw [h.active, threadCount_eq_zero_iff.2 fun w => by rw [h.phase w]; exact id]
  rfl

theorem unstarted_eq (h : Reachable Initial Step C s) (id : ℕ) :
    s.unstarted id = threadCount (Phase.Unstarted id) s.phase := by
  refine h.invariant (fun s h => ?_) fun s _ s' hs _ hstep => (hstep.2.kept.unstarted id).keep hs
  rw [h.unstarted, threadCount_eq_zero_iff.2 fun w => by rw [h.phase w]; exact fun h => h]
  rfl

end JKYi.Scheduler
