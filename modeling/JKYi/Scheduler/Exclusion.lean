import JKYi.Scheduler.Duties

/-!
# One worker at a time in a fiber

No step moves a fiber to where it should not be, and so no two workers are in
one fiber where fibers are scheduled with care; with discipline each fiber is
also where what it owes says.
-/

namespace JKYi.Scheduler

open Function List Option

variable {W : Type} {K : Prop}

/-- Apart from `g` and from workers nothing has changed. -/
structure Aside (s t : State W) (g : ℕ) : Prop where
  queue (f : ℕ) : f ≠ g → t.queued f = s.queued f
  fibers (f : ℕ) : f ≠ g → t.fibers f = s.fibers f
  duty (f : ℕ) : f ≠ g → t.log.duty f = s.log.duty f
  born : s.nextFiber ≤ t.nextFiber

/-- What a step of `w` does besides taking it from `p` to `q`, both of which concern no fiber
but `g`. -/
structure Beside (s t : State W) (w : W) (g : ℕ) (p q : Phase W) : Prop extends Aside s t g where
  phase : s.phase w = p
  source : p.fiber = none ∨ p.fiber = some g
  target : q.fiber = none ∨ q.fiber = some g
  others (v : W) : v ≠ w → t.workers v = s.workers v
  cbFiber (f : ℕ) : f ≠ g → (t.cbFiber w = some f ↔ s.cbFiber w = some f)

section

variable {s t : State W} {w : W} {e : Entry W} {f g : ℕ} {p q : Phase W}

theorem Enterable.ne_exec {st : FiberState} (h : Enterable st) : st ≠ .exec := by
  rcases h with rfl | rfl | rfl <;> exact nofun

theorem Phase.fiber_ne (h : p.fiber = none ∨ p.fiber = some g) (hf : f ≠ g) :
    p.fiber ≠ some f := by
  rcases h with h | h <;> simp [h, hf.symm]

theorem Phase.fiber_taken (he : e.task = .fiber g) : (Phase.taken e).fiber = some g := by
  rw [fiber, he]
  rfl

theorem Phase.fiber_taken_cb (he : e.task = .cb) : (Phase.taken e).fiber = none := by
  rw [fiber, he]
  rfl

theorem beside (h : Aside s t g) (hworkers : t.workers = s.workers) (hp : s.phase w = p)
    (hpg : p.fiber = none ∨ p.fiber = some g) (hqg : q.fiber = none ∨ q.fiber = some g) :
    Beside s t w g p q :=
  ⟨h, hp, hpg, hqg, fun v _ => congrFun hworkers v, fun f _ => by rw [State.cbFiber, hworkers]; rfl⟩

theorem State.queued_of_perm (hperm : s.queue.Perm (e :: t.queue)) (f : ℕ) :
    s.queued f = t.queued f + if e.task = .fiber f then 1 else 0 := by
  rw [queued, queued, hperm.countP_eq, countP_cons]
  simp only [decide_eq_true_eq]

theorem State.start_fields (s : State W) (e : Entry W) (g : ℕ) :
    (s.start e g).workers = s.workers ∧ (s.start e g).queue = s.queue ∧
      (s.start e g).fibers = Function.update s.fibers g .exec ∧
      (s.start e g).nextFiber = s.nextFiber ∧ (s.start e g).log.duty = s.log.duty ∧
      (s.start e g).aborted = s.aborted := by
  unfold start
  split <;> exact ⟨rfl, rfl, rfl, rfl, rfl, rfl⟩

end

section

variable [DecidableEq W] {s t : State W} {v w : W} {e : Entry W} {f g : ℕ} {p q : Phase W}
  {a : After} {y : Yield}

theorem State.workers_setPhase_self (s : State W) (w : W) (q : Phase W) :
    (s.setPhase w q).workers w = { s.workers w with phase := q } :=
  update_self ..

theorem State.workers_setPhase_ne (s : State W) (q : Phase W) (hv : v ≠ w) :
    (s.setPhase w q).workers v = s.workers v :=
  update_of_ne hv ..

theorem State.workers_setCbFiber_self (s : State W) (w : W) (c : Option ℕ) :
    (s.setCbFiber w c).workers w = { s.workers w with cbFiber := c } :=
  update_self ..

theorem State.workers_setCbFiber_ne (s : State W) (c : Option ℕ) (hv : v ≠ w) :
    (s.setCbFiber w c).workers v = s.workers v :=
  update_of_ne hv ..

namespace Beside

theorem placed_of_ne (h : Beside s t w g p q) (hf : Placed K s f) (hne : f ≠ g) :
    Placed K (t.setPhase w q) f := by
  refine hf.frame (fun v => ?_) (h.queue f hne) (h.fibers f hne) h.born (h.duty f hne)
  by_cases hv : v = w
  · rw [hv, State.workers_setPhase_self]
    have hsource := p.fiber_ne h.source hne
    rw [← h.phase] at hsource
    exact .inr ⟨hsource, q.fiber_ne h.target hne, h.cbFiber f hne⟩
  · exact .inl ((t.workers_setPhase_ne q hv).trans (h.others v hv))

theorem placed (h : Beside s t w g p q) (hs : ∀ f, Placed K s f)
    (hg : Placed K (t.setPhase w q) g) (f : ℕ) : Placed K (t.setPhase w q) f := by
  by_cases hf : f = g
  · rw [hf]
    exact hg
  · exact h.placed_of_ne (hs f) hf

theorem still (hs : ∀ f, Placed K s f) (h : ∀ g, Beside s t w g p q) (f : ℕ) :
    Placed K (t.setPhase w q) f :=
  (h (f + 1)).placed_of_ne (hs f) (by omega)

theorem owner (h : Beside s t w g p q) (hsole : ∀ v, (s.workers v).Owns g → v = w)
    (hv : ((t.setPhase w q).workers v).Owns g) : v = w := by
  by_cases hvw : v = w
  · exact hvw
  · rw [t.workers_setPhase_ne q hvw, h.others v hvw] at hv
    exact hsole v hv

theorem owned (h : Beside s t w g p q) (hs : ∀ f, Placed K s f)
    (hsole : ∀ v, (s.workers v).Owns g → v = w)
    (hown : ({ t.workers w with phase := q } : Worker W).Owns g)
    (hfits : ({ t.workers w with phase := q } : Worker W).Fits g (t.fibers g))
    (hqueue : t.queued g = 0 ∨ t.queued g = 1 ∧ q.fiber = some g ∧ q.Open)
    (hborn : g < t.nextFiber)
    (hdue : K → ({ t.workers w with phase := q } : Worker W).Due g (t.queued g) (t.log.duty g)) :
    ∀ f, Placed K (t.setPhase w q) f := by
  rw [← t.workers_setPhase_self] at hown hfits hdue
  refine h.placed hs (.of_owned ⟨fun v => h.owner hsole, hown, hfits, ?_, hborn⟩ hdue)
  rw [t.workers_setPhase_self]
  exact hqueue

theorem own (h : Beside s t w g p q) (hs : ∀ f, Placed K s f)
    (hsole : ∀ v, (s.workers v).Owns g → v = w) (hq : q.fiber = some g)
    (hfits : q.Fits (t.fibers g) (t.cbFiber w = some g))
    (hqueue : t.queued g = 0 ∨ t.queued g = 1 ∧ q.Open) (hborn : g < t.nextFiber)
    (hdue : K → q.Due (t.queued g) (t.log.duty g)) : ∀ f, Placed K (t.setPhase w q) f :=
  h.owned hs hsole (.inl hq) ((if_pos hq).mpr hfits) (hqueue.imp_right fun h => ⟨h.1, hq, h.2⟩)
    hborn fun hK => (if_pos hq).mpr (hdue hK)

end Beside

theorem placed_stay (hs : ∀ f, Placed K s f) (hp : s.phase w = p) (hpg : p.fiber = some g)
    (hqg : q.fiber = some g) (hworkers : t.workers = s.workers) (hqueue : t.queue = s.queue)
    (hnext : t.nextFiber = s.nextFiber) (hfibers : ∀ f, f ≠ g → t.fibers f = s.fibers f)
    (hduty : ∀ f, f ≠ g → t.log.duty f = s.log.duty f)
    (hfits : p.Fits (s.fibers g) (s.cbFiber w = some g) →
      q.Fits (t.fibers g) (s.cbFiber w = some g))
    (hopen : p.Open → s.queued g = 0 ∨ q.Open)
    (hdue : K → p.Due (s.queued g) (s.log.duty g) → q.Due (s.queued g) (t.log.duty g)) :
    ∀ f, Placed K (t.setPhase w q) f := by
  have hcb : t.cbFiber w = s.cbFiber w := congrArg Worker.cbFiber (congrFun hworkers w)
  have hqueued : ∀ f, t.queued f = s.queued f := fun f => by rw [State.queued, hqueue]; rfl
  have hbeside : Beside s t w g p q :=
    beside ⟨fun f _ => hqueued f, hfibers, hduty, hnext.ge⟩ hworkers hp (.inr hpg) (.inr hqg)
  obtain ⟨hown, hpfits⟩ := owned_of_phase (fun f => (hs f).where_) hp hpg
  refine hbeside.own hs hown.sole hqg (hcb ▸ hfits hpfits) ?_ (hnext ▸ hown.born) fun hK => ?_
  · rw [hqueued]
    rcases hown.queue with h | ⟨h, ho⟩
    · exact .inl h
    · exact (hopen (hp ▸ ho.2)).imp_right fun hq => ⟨h, hq⟩
  · rw [hqueued]
    exact hdue hK (((hs g).ledger hK).phase_due hp hpg)

theorem placed_after {a' : After} (hs : ∀ f, Placed K s f) (hp : s.phase w = .after a e g y)
    (hworkers : t.workers = s.workers) (hqueue : t.queue = s.queue)
    (hnext : t.nextFiber = s.nextFiber) (hfibers : t.fibers = s.fibers)
    (hduty : t.log.duty = s.log.duty) (hallows : s.fibers g = y.state → a.Allows y → a'.Allows y)
    (hrec : a' = .recycling → e.task = .cb) :
    ∀ f, Placed K (t.setPhase w (.after a' e g y)) f := by
  refine placed_stay hs hp rfl rfl hworkers hqueue hnext (fun f _ => congrFun hfibers f)
    (fun f _ => congrFun hduty f) ?_ ?_ fun _ => ?_
  · rintro ⟨hst, ha, hiff, -⟩
    rw [hfibers]
    exact ⟨hst, hallows hst ha, hiff, hrec⟩
  · cases y <;> exact .inr
  · rw [hduty]
    exact id

theorem placed_take (hs : ∀ f, Placed K s f) (hp : s.phase w = .top)
    (hscan : scan (s.takable w) s.queue = some (e, t.queue)) (hworkers : t.workers = s.workers)
    (hfibers : t.fibers = s.fibers) (hnext : t.nextFiber = s.nextFiber)
    (hduty : t.log.duty = s.log.duty) : ∀ f, Placed K (t.setPhase w (.taken e)) f := by
  have hqueue := State.queued_of_perm (scan_perm hscan)
  have hbeside : ∀ g, (Phase.taken e).fiber = none ∨ (Phase.taken e).fiber = some g →
      Beside s t w g .top (.taken e) := by
    intro g hg
    refine beside ⟨fun f hf => ?_, fun f _ => congrFun hfibers f, fun f _ => congrFun hduty f,
      hnext.ge⟩ hworkers hp (.inl rfl) hg
    rw [hqueue f, if_neg fun he => Phase.fiber_ne hg hf (Phase.fiber_taken he), add_zero]
  cases he : e.task with
  | cb => exact Beside.still hs fun g => hbeside g (.inl (Phase.fiber_taken_cb he))
  | fiber g =>
    have hg := Phase.fiber_taken he
    have hst : s.fibers g ≠ .exec := by
      have htakable := (scan_eq_some hscan).1
      rw [State.takable, he] at htakable
      exact of_decide_eq_true (Bool.and_eq_true_iff.1 htakable).2
    have hone := hqueue g
    rw [if_pos he] at hone
    obtain ⟨howner, hent, hborn, hrest⟩ : (∀ v, ¬ (s.workers v).Owns g) ∧
        Enterable (s.fibers g) ∧ g < s.nextFiber ∧ t.queued g = 0 := by
      cases (hs g).where_ with
      | nowhere howner hq => omega
      | queued howner hq hent hborn => exact ⟨howner, hent, hborn, by omega⟩
      | owned v hown =>
        rcases hown.queue with hq | ⟨-, hopen⟩
        · omega
        · exact absurd (hown.fits.exec_of_open hopen) hst
    refine (hbeside g (.inr hg)).own hs (fun v hv => absurd hv (howner v)) hg ⟨hfibers ▸ hent, ?_⟩
      (.inl hrest) (hnext ▸ hborn) fun hK => ⟨hrest, ?_⟩
    · rw [State.cbFiber, hworkers]
      exact fun hcb => howner w (.inr hcb)
    · rw [hduty]
      rcases ((hs g).ledger hK).unowned howner with h | h
      · exact h.2
      · omega

theorem State.cbFiber_setCbFiber (s : State W) (w : W) (c : Option ℕ) :
    (s.setCbFiber w c).cbFiber w = c :=
  congrArg Worker.cbFiber (workers_setCbFiber_self ..)

theorem placed_load {n : ℕ} (hs : ∀ f, Placed K s f) (hp : s.phase w = .taken e)
    (he : e.task = .cb) (hsole : ∀ v, (s.workers v).Owns g → v = w)
    (hcb : s.cbFiber w = none ∨ s.cbFiber w = some g) (hqueue : s.queued g = 0)
    (hnext : s.nextFiber ≤ n) (hborn : g < n) :
    ∀ f, Placed K ({ s.load w e g with nextFiber := n }.setPhase w (.before .entering e g)) f := by
  have hload : (s.load w e g).cbFiber w = some g := State.cbFiber_setCbFiber ..
  have hbeside : Beside s { s.load w e g with nextFiber := n } w g (.taken e)
      (.before .entering e g) := by
    refine ⟨⟨fun _ _ => rfl, fun _ hf => update_of_ne hf .., fun _ hf => update_of_ne hf .., hnext⟩,
      hp, .inl (Phase.fiber_taken_cb he), .inr rfl, fun v hv => ?_, fun f hf => ?_⟩
    · exact State.workers_setCbFiber_ne _ _ hv
    · change (s.load w e g).cbFiber w = some f ↔ _
      rw [hload]
      rcases hcb with h | h <;> simp [h, hf.symm]
  exact hbeside.own hs hsole rfl ⟨.inl (update_self ..), iff_of_true he hload⟩ (.inl hqueue) hborn
    fun _ => ⟨hqueue, update_self ..⟩

theorem State.dropCb_eq (s : State W) (w : W) (e : Entry W) :
    s.dropCb w e = s.setCbFiber w (if e.task = .cb then none else s.cbFiber w) := by
  unfold dropCb
  split
  · rfl
  · exact congrArg (fun x => { s with workers := x }) (update_eq_self w s.workers).symm

theorem State.log_dropCb (s : State W) (w : W) (e : Entry W) : (s.dropCb w e).log = s.log := by
  rw [dropCb_eq]
  rfl

theorem placed_giveUp (hs : ∀ f, Placed K s f) (hp : s.phase w = .after a e g y)
    (h : Aside s t g) (hworkers : t.workers = s.workers) (hnext : t.nextFiber = s.nextFiber)
    (hqueue : t.queued g = 0 ∨ t.queued g = 1 ∧ Enterable (t.fibers g))
    (hdue : K → RestDue (t.fibers g) (t.queued g) (t.log.duty g)) :
    ∀ f, Placed K ((t.dropCb w e).setPhase w .top) f := by
  obtain ⟨hown, -, -, hiff, -⟩ := owned_of_phase (fun f => (hs f).where_) hp rfl
  have hcb : t.cbFiber w = s.cbFiber w := congrArg Worker.cbFiber (congrFun hworkers w)
  rw [t.dropCb_eq]
  have hbeside : Beside s (t.setCbFiber w (if e.task = .cb then none else t.cbFiber w)) w g
      (.after a e g y) .top := by
    refine ⟨⟨h.queue, h.fibers, h.duty, h.born⟩, hp, .inr rfl, .inl rfl, fun v hv => ?_,
      fun f hf => ?_⟩
    · rw [State.workers_setCbFiber_ne _ _ hv, hworkers]
    · rw [State.cbFiber_setCbFiber, hcb]
      split
      · rename_i he
        simp [hiff.1 he, hf.symm]
      · rfl
  refine hbeside.placed hs (.of_unowned (fun v hv => ?_) (hnext ▸ hown.born) hqueue hdue)
  obtain rfl := hbeside.owner hown.sole hv
  rw [State.workers_setPhase_self, State.workers_setCbFiber_self] at hv
  rcases hv with hv | hv
  · cases hv
  · split at hv
    · cases hv
    · rename_i he
      exact he (hiff.2 (hcb ▸ hv))

theorem placed_putBack (hs : ∀ f, Placed K s f) (hp : s.phase w = .after .putBack e g y)
    (hworkers : t.workers = s.workers) (hqueue : t.queue = s.queue) (hfibers : t.fibers = s.fibers)
    (hnext : t.nextFiber = s.nextFiber) (hduty : t.log.duty = s.log.duty) :
    ∀ f, Placed K (((t.push (.fiber g) none).dropCb w e).setPhase w .top) f := by
  obtain ⟨hown, hst, hallows, -⟩ := owned_of_phase (fun f => (hs f).where_) hp rfl
  obtain rfl : y = .ready := hallows
  have hqueued : ∀ f, t.queued f = s.queued f := fun f => by rw [State.queued, hqueue]; rfl
  have hne : ∀ f, f ≠ g → Task.fiber g ≠ .fiber f := fun f hf h => hf (Task.fiber.inj h).symm
  have hone : (t.push (.fiber g) none).queued g = 1 := by
    rw [State.queued_push, if_pos rfl, hqueued, hown.queue_of_closed hp id]
  refine placed_giveUp hs hp ⟨fun f hf => ?_, fun f _ => congrFun hfibers f, fun f hf => ?_,
    hnext.ge⟩ hworkers hnext (.inr ⟨hone, ?_⟩) fun _ => .inl ⟨hone, t.duty_push_fiber g none⟩
  · rw [State.queued_push_of_ne (hne f hf), hqueued]
  · rw [t.duty_push_of_ne (hne f hf), hduty]
  · change Enterable (t.fibers g)
    rw [hfibers, hst]
    exact .inr (.inr rfl)

theorem placed_park (hs : ∀ f, Placed K s f) (hp : s.phase w = .after .parking e g y) :
    ∀ f, Placed K (((s.setFiber g .hold).dropCb w e).setPhase w .top) f := by
  obtain ⟨hown, -, hallows, -⟩ := owned_of_phase (fun f => (hs f).where_) hp rfl
  obtain rfl : y = .hold := hallows
  have hst : (s.setFiber g .hold).fibers g = .hold := update_self ..
  refine placed_giveUp hs hp ⟨fun _ _ => rfl, fun f hf => update_of_ne hf .., fun _ _ => rfl,
    le_rfl⟩ rfl rfl (hown.queue.imp_right fun h => ⟨h.1, .inr (.inl hst)⟩) fun hK => ?_
  rw [hst]
  rcases ((hs g).ledger hK).phase_due hp rfl with ⟨hn, hd⟩ | ⟨hn, hd⟩
  · exact .inr ⟨hn, .inr (.inl ⟨hd, rfl⟩)⟩
  · exact .inl ⟨hn, hd⟩

theorem placed_recycle (hs : ∀ f, Placed K s f) (hp : s.phase w = .after .recycling e g y) :
    ∀ f, Placed K ((s.setFiber g .init).setPhase w .top) f := by
  obtain ⟨hown, -, hallows, hiff, hcb⟩ := owned_of_phase (fun f => (hs f).where_) hp rfl
  have htop : (Phase.top : Phase W).fiber ≠ some g := nofun
  have hclosed : ¬ (Phase.after .recycling e g y).Open := by
    rcases hallows with rfl | rfl <;> exact id
  have hbeside : Beside s (s.setFiber g .init) w g (.after .recycling e g y) .top :=
    beside ⟨fun _ _ => rfl, fun _ hf => update_of_ne hf .., fun _ _ => rfl, le_rfl⟩ rfl hp
      (.inr rfl) (.inl rfl)
  refine hbeside.owned hs hown.sole (.inr (hiff.1 (hcb rfl))) ((if_neg htop).mpr (update_self ..))
    (.inl (hown.queue_of_closed hp hclosed)) hown.born fun hK => (if_neg htop).mpr ?_
  have hdue := ((hs g).ledger hK).phase_due hp rfl
  rcases hallows with rfl | rfl <;> exact hdue

theorem placed_ended (hs : ∀ f, Placed K s f) (hp : s.phase w = .after .checkEnd e g y)
    (hst : s.fibers g = .term ∨ s.fibers g = .except) :
    ∀ f, Placed K (s.setPhase w (if e.task = .cb then .after .recycling e g y else .top)) f := by
  obtain ⟨hown, hstate, -⟩ := owned_of_phase (fun f => (hs f).where_) hp rfl
  have hy : y = .term ∨ y = .except := by
    cases y <;> simp_all [Yield.state]
  split
  · rename_i he
    exact placed_after hs hp rfl rfl rfl rfl rfl (fun _ _ => hy) fun _ => he
  · rename_i he
    have hclosed : ¬ (Phase.after .checkEnd e g y).Open := by
      rcases hy with rfl | rfl <;> exact id
    have hzero := hown.queue_of_closed hp hclosed
    have hdrop : s.dropCb w e = s := if_neg he
    rw [← hdrop]
    refine placed_giveUp hs hp ⟨fun _ _ => rfl, fun _ _ => rfl, fun _ _ => rfl, le_rfl⟩ rfl rfl
      (.inl hzero) fun hK => .inr ⟨hzero, .inr (.inr ⟨?_, hst⟩)⟩
    have hdue := ((hs g).ledger hK).phase_due hp rfl
    rcases hy with rfl | rfl <;> exact hdue.2

theorem placed_enter (hs : ∀ f, Placed K s f) (hp : s.phase w = .before .passed e g) :
    ∀ f, Placed K ((s.start e g).setPhase w (.before .running e g)) f := by
  obtain ⟨hworkers, hqueue, hfibers, hnext, hduty, -⟩ := s.start_fields e g
  refine placed_stay hs hp rfl rfl hworkers hqueue hnext (fun f hf => ?_)
    (fun f _ => congrFun hduty f) (fun h => ?_) (fun _ => .inr trivial) fun _ => ?_
  · rw [hfibers, update_of_ne hf]
  · rw [hfibers, update_self]
    exact ⟨rfl, h.2⟩
  · rw [hduty]
    exact id

theorem Move.placed {s' : State W} {l : Label W} (hm : Move s l s') (hc : Careful s l)
    (hd : K → Disciplined s l) (hs : ∀ f, Placed K s f) : ∀ f, Placed K s' f := by
  cases hm with
  | schedule ts => exact placed_pushAll hs ts hc hd
  | create => exact placed_create hs
  | flags | loadAbort | passAbort | yieldAbort | recycleAbort =>
    exact fun f => (hs f).frame (fun _ => .inl rfl) rfl rfl le_rfl rfl
  | take w e rest hp hscan => exact placed_take hs hp hscan rfl rfl rfl rfl
  | nothing w hp =>
    refine Beside.still hs fun g => beside ⟨fun _ _ => rfl, fun _ _ => rfl, fun _ _ => rfl, le_rfl⟩
      rfl hp (.inl rfl) (.inl ?_)
    split <;> rfl
  | idle w b hp =>
    refine Beside.still hs fun g => ⟨⟨fun _ _ => rfl, fun _ _ => rfl, fun _ _ => rfl, le_rfl⟩, hp,
      .inl rfl, .inl rfl, fun v hv => update_of_ne hv .., fun f _ => ?_⟩
    simp [State.cbFiber, State.setIdleTerm]
  | pick w e g hp he hst =>
    exact placed_stay hs hp (Phase.fiber_taken he) rfl rfl rfl rfl (fun _ _ => rfl) (fun _ _ => rfl)
      (fun h => ⟨h.1, by simp [he, h.2]⟩) (fun h => h.elim) fun _ => id
  | skip w e g hp he hst =>
    obtain ⟨-, hent, -⟩ := owned_of_phase (fun f => (hs f).where_) hp (Phase.fiber_taken he)
    rcases hst with hst | hst <;> simp [Enterable, hst] at hent
  | loadNew w e hp he hcb =>
    obtain ⟨howner, hqueue⟩ := (hs s.nextFiber).where_.nowhere_of_unborn le_rfl
    exact placed_load hs hp he (fun v hv => absurd hv (howner v)) (.inl hcb) hqueue
      (Nat.le_succ _) (Nat.lt_succ_self _)
  | loadOld w e g hp he hcb hst =>
    have hown := (hs g).where_.owned_of_owns (.inr hcb)
    exact placed_load hs hp he hown.sole (.inr hcb) (hown.queue_of_closed hp id) le_rfl hown.born
  | pass w e g hp hst =>
    exact placed_stay hs hp rfl rfl rfl rfl rfl (fun _ _ => rfl) (fun _ _ => rfl) id
      (fun h => h.elim) fun _ => id
  | enter w e g hp => exact placed_enter hs hp
  | yieldReady w e g hp hst =>
    exact placed_stay hs hp rfl rfl rfl rfl rfl (fun f hf => update_of_ne hf ..) (fun _ _ => rfl)
      (fun h => ⟨update_self .., trivial, h.2, by simp⟩) (fun _ => .inl hc) fun _ => id
  | yieldHold w e g hp hst =>
    refine placed_stay hs hp rfl rfl rfl rfl rfl (fun _ _ => rfl) (fun f hf => update_of_ne hf ..)
      (fun h => ⟨h.1, trivial, h.2, by simp⟩) (fun _ => .inr trivial) fun _ hdue =>
      .inl ⟨hdue.1, ?_⟩
    exact update_self ..
  | finish w e g y hy hp =>
    refine placed_stay hs hp rfl rfl rfl rfl rfl (fun f hf => update_of_ne hf ..)
      (fun f hf => update_of_ne hf ..) (fun h => ⟨update_self .., trivial, h.2, by simp⟩)
      (fun _ => .inl hc) fun _ hdue => ?_
    rcases hy with rfl | rfl <;> exact ⟨hdue.1, update_self ..⟩
  | switched w e g y hp | decrement w e g y hp =>
    exact placed_after hs hp rfl rfl rfl rfl rfl (fun _ _ => trivial) (by simp)
  | isReady w e g y hp hst | notReady w e g y hp hst | notEnded w e g y hp hst =>
    refine placed_after hs hp rfl rfl rfl rfl rfl (fun hy ha => ?_) (by simp)
    cases y <;> simp_all [Yield.state, After.Allows]
  | ended w e g y hp hst => exact placed_ended hs hp hst
  | putBack w e g y hp => exact placed_putBack hs hp rfl rfl rfl rfl rfl
  | park w e g y hp => exact placed_park hs hp
  | recycle w e g y hp => exact placed_recycle hs hp
  | drop w hp =>
    exact Beside.still hs fun g => beside ⟨fun _ _ => rfl, fun _ _ => rfl, fun _ _ => rfl, le_rfl⟩
      rfl hp (.inl rfl) (.inl rfl)

theorem Move.careful {s' : State W} {l : Label W} (hm : Move s l s') (hd : Disciplined s l)
    (hl : ∀ f, Ledger s f) : Careful s l := by
  cases hm with
  | schedule ts =>
    exact ⟨hd.1, fun f hf => (hl f).canSchedule (hd.2 f hf).1 (hd.2 f hf).2⟩
  | yieldReady w e g hp | finish w e g y hy hp => exact ((hl g).phase_due hp rfl).1
  | _ => trivial

/-- Where fibers are owned in this way, no assertion fails. -/
theorem Move.aborted {s' : State W} {l : Label W} (hm : Move s l s') (hs : ∀ f, Where s f)
    (ha : s.aborted = none) : s'.aborted = none := by
  cases hm with
  | loadAbort w e g hp he hcb hst =>
    have hown := (hs g).owned_of_owns (.inr hcb)
    have hfiber : (s.phase w).fiber ≠ some g := by
      rw [hp, Phase.fiber_taken_cb he]
      exact nofun
    exact absurd (.inl ((if_neg hfiber).mp hown.fits)) hst
  | passAbort w e g hp hst =>
    obtain ⟨-, hent, -⟩ := owned_of_phase hs hp rfl
    exact absurd hst hent.ne_exec
  | yieldAbort w e g hp hst =>
    obtain ⟨-, hexec, -⟩ := owned_of_phase hs hp rfl
    exact absurd hexec hst
  | recycleAbort w e g y hp hst =>
    obtain ⟨-, hstate, hallows, -⟩ := owned_of_phase hs hp rfl
    refine absurd (.inr ?_) hst
    rw [hstate]
    exact hallows.imp (congrArg Yield.state) (congrArg Yield.state)
  | schedule ts =>
    exact s.pushAll_induction (P := fun t => t.aborted = none)
      (fun t k _ h => by cases k <;> exact h) ha ts
  | enter w e g hp => exact (s.start_fields e g).2.2.2.2.2.trans ha
  | putBack w e g y hp | park w e g y hp =>
    rw [State.dropCb_eq]
    exact ha
  | _ => exact ha

end

/-- In `swapIn`, until the switch back to the worker. -/
def Phase.Entered (f : ℕ) : Phase W → Prop
  | .before _ _ g => g = f
  | .after .leaving _ g _ => g = f
  | _ => False

theorem Phase.Entered.fiber {f : ℕ} {p : Phase W} (h : p.Entered f) : p.fiber = some f := by
  cases p with
  | before a e g => exact congrArg some h
  | after a e g y =>
    cases a with
    | leaving => exact congrArg some h
    | _ => exact h.elim
  | _ => exact h.elim

section

variable [DecidableEq W] {s : State W}

theorem careful_where (h : Reachable Initial Step Careful s) :
    (∀ f, Where s f) ∧ s.aborted = none := by
  obtain ⟨hs, ha⟩ := h.invariant (P := fun s => (∀ f, Placed False s f) ∧ s.aborted = none)
    (fun s h => ⟨h.placed, h.aborted⟩) fun s l s' ⟨hs, ha⟩ hc ⟨_, hm⟩ =>
      ⟨hm.placed hc False.elim hs, hm.aborted (fun f => (hs f).where_) ha⟩
  exact ⟨fun f => (hs f).where_, ha⟩

theorem disciplined_ledger (h : Reachable Initial Step Disciplined s) :
    (∀ f, Where s f) ∧ (∀ f, Ledger s f) ∧ s.aborted = none := by
  obtain ⟨hs, ha⟩ := h.invariant (P := fun s => (∀ f, Placed True s f) ∧ s.aborted = none)
    (fun s h => ⟨h.placed, h.aborted⟩) fun s l s' ⟨hs, ha⟩ hd ⟨_, hm⟩ =>
      ⟨hm.placed (hm.careful hd fun f => (hs f).ledger trivial) (fun _ => hd) hs,
        hm.aborted (fun f => (hs f).where_) ha⟩
  exact ⟨fun f => (hs f).where_, fun f => (hs f).ledger trivial, ha⟩

/-- With careful scheduling no fiber is entered by one worker while another one has entered
it and not returned, and the assertion of `swapIn` does not fail. -/
theorem careful_entered_unique (h : Reachable Initial Step Careful s) :
    (∀ v w f, (s.phase v).Entered f → (s.phase w).Entered f → v = w) ∧
      s.aborted ≠ some .swapIn := by
  obtain ⟨hs, ha⟩ := careful_where h
  refine ⟨fun v w f hv hw => ?_, by rw [ha]; exact nofun⟩
  have hown := (hs f).owned_of_owns (.inl hw.fiber)
  exact hown.sole v (.inl hv.fiber)

end

abbrev AnyRun (s : State Bool) : Prop := Reachable Initial Step (fun _ _ => True) s

/-- Two workers enter one fiber where it is scheduled while it runs and then yields to READY,
and the assertion fails where it is scheduled twice while it does not run. -/
theorem entered_twice :
    (∃ s : State Bool, AnyRun s ∧ (s.phase false).Entered 0 ∧ (s.phase true).Entered 0) ∧
      ∃ s : State Bool, AnyRun s ∧ s.aborted = some .swapIn := by
  have hstart : AnyRun State.new := .start initial_new
  have hcreate := hstart.andThen ⟨rfl, .create⟩
  constructor
  · have h := hcreate.andThen ⟨rfl, .schedule [(.fiber 0, none)]⟩
    have h := h.andThen ⟨rfl, .take false ⟨0, .fiber 0, none⟩ [] rfl rfl⟩
    have h := h.andThen ⟨rfl, .pick false _ 0 rfl rfl (by decide)⟩
    have h := h.andThen ⟨rfl, .pass false _ 0 rfl (by decide)⟩
    have h := h.andThen ⟨rfl, .enter false _ 0 rfl⟩
    have h := h.andThen ⟨rfl, .schedule [(.fiber 0, none)]⟩
    have h := h.andThen ⟨rfl, .yieldReady false _ 0 rfl rfl⟩
    have h := h.andThen ⟨rfl, .take true ⟨1, .fiber 0, none⟩ [] rfl rfl⟩
    have h := h.andThen ⟨rfl, .pick true _ 0 rfl rfl (by decide)⟩
    have h := h.andThen ⟨rfl, .pass true _ 0 rfl (by decide)⟩
    exact ⟨_, h, rfl, rfl⟩
  · have h := hcreate.andThen ⟨rfl, .schedule [(.fiber 0, none), (.fiber 0, none)]⟩
    have h := h.andThen ⟨rfl, .take false ⟨0, .fiber 0, none⟩ [⟨1, .fiber 0, none⟩] rfl rfl⟩
    have h := h.andThen ⟨rfl, .take true ⟨1, .fiber 0, none⟩ [] rfl rfl⟩
    have h := h.andThen ⟨rfl, .pick false _ 0 rfl rfl (by decide)⟩
    have h := h.andThen ⟨rfl, .pick true _ 0 rfl rfl (by decide)⟩
    have h := h.andThen ⟨rfl, .pass false _ 0 rfl (by decide)⟩
    have h := h.andThen ⟨rfl, .enter false _ 0 rfl⟩
    have h := h.andThen ⟨rfl, .passAbort true _ 0 rfl rfl⟩
    exact ⟨_, h, rfl⟩

/-- A run with care: the fiber is scheduled again while it runs. -/
theorem careful_entered_unique_run : ∃ s : State Bool, Reachable Initial Step Careful s ∧
    (s.phase false).Entered 0 ∧ s.queued 0 = 1 ∧
    ((∀ v w f, (s.phase v).Entered f → (s.phase w).Entered f → v = w) ∧
      s.aborted ≠ some .swapIn) := by
  have h : Reachable Initial Step Careful (State.new : State Bool) := .start initial_new
  have h := h.andThen ⟨rfl, .create⟩
  have h := h.andThen ⟨rfl, .schedule [(.fiber 0, none)]⟩ ⟨by decide, by
    intro f hf
    obtain rfl := mem_singleton.1 hf
    exact ⟨by decide, rfl, .inl ⟨by decide, .inl rfl⟩⟩⟩
  have h := h.andThen ⟨rfl, .take false ⟨0, .fiber 0, none⟩ [] rfl rfl⟩
  have h := h.andThen ⟨rfl, .pick false _ 0 rfl rfl (by decide)⟩
  have h := h.andThen ⟨rfl, .pass false _ 0 rfl (by decide)⟩
  have h := h.andThen ⟨rfl, .enter false _ 0 rfl⟩
  have h := h.andThen ⟨rfl, .schedule [(.fiber 0, none)]⟩ ⟨by decide, by
    intro f hf
    obtain rfl := mem_singleton.1 hf
    exact ⟨by decide, rfl, .inr ⟨false, rfl, trivial⟩⟩⟩
  exact ⟨_, h, rfl, rfl, careful_entered_unique h⟩

end JKYi.Scheduler
