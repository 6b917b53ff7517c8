import JKYi.IOManager.Sections

/-!
# Events and registrations in any interleaving

Whatever sections are going on, finishing them leads to well-formed contexts whose masks
are those of the kernel. The count of pending events and the fate of each registration
follow from this.
-/

namespace JKYi.IOManager

open Function List

variable {F S : Type} [Fintype F]

/-- How often a registration is in a context or about to be stored in one by its `addEvent`. -/
def State.pending (s : State F S) (r : ℕ) : ℕ :=
  ∑ fd, ((s.fds fd).holds r + stores r (s.stage fd).rest)

structure Inv (s : State F S) : Prop where
  failed : s.failed = none
  settles : ∀ fd, ∃ c, (s.fds fd).settle (s.stage fd).rest = some c ∧ c.Wf ∧
    c.events = s.kernel fd
  count : s.pendingEventCount + ∑ fd, delta (s.stage fd).rest = ∑ fd, ((s.kernel fd).card : ℤ)
  registered : ∀ r, s.pending r + s.discarded.count r + (s.scheduled.map Prod.snd).count r =
    if r < s.registrations then 1 else 0
  callers : ∀ fd e scheduler hasCb, s.stage fd = .entered (.addEvent e scheduler hasCb) →
    scheduler.isSome = true

/-- Callers reach the manager through `IOManager::GetThis()`, so their thread has a scheduler. -/
def Label.Managed : Label F S → Prop
  | .enter _ (.addEvent _ scheduler _) => scheduler.isSome = true
  | _ => True

/-- When `idle` handles a report, its events are all set or none is. -/
def Timely (s : State F S) (l : Label F S) : Prop :=
  l.Managed ∧ ∀ fd report, l = .control fd true → s.stage fd = .entered (.handle report) →
    report.Fits (s.fds fd).events

variable {s t : State F S} {fd : F}

section

def State.books (s : State F S) :
    (F → FdContext S) × ℤ × (F → Finset Event) × ℕ × List ℕ × List (S × ℕ) :=
  (s.fds, s.pendingEventCount, s.kernel, s.registrations, s.discarded, s.scheduled)

theorem Inv.keep (h : Inv s) (hfailed : t.failed = none)
    (hrest : ∀ fd, (t.stage fd).rest = (s.stage fd).rest) (hbooks : t.books = s.books)
    (hcallers : ∀ fd e scheduler hasCb, t.stage fd = .entered (.addEvent e scheduler hasCb) →
      scheduler.isSome = true) : Inv t := by
  simp only [State.books, Prod.mk.injEq] at hbooks
  obtain ⟨hfds, hcount, hkernel, hregistrations, hdiscarded, hscheduled⟩ := hbooks
  constructor
  · exact hfailed
  · intro fd
    rw [hfds, hrest, hkernel]
    exact h.settles fd
  · simp only [hrest, hcount, hkernel]
    exact h.count
  · intro r
    simp only [State.pending, hrest, hfds, hdiscarded, hscheduled, hregistrations]
    exact h.registered r
  · exact hcallers

theorem State.pending_eq (s : State F S) (r : ℕ) :
    s.pending r = ∑ fd, (s.fds fd).holds r + ∑ fd, stores r (s.stage fd).rest :=
  Finset.sum_add_distrib

variable [DecidableEq F]

omit [Fintype F] in
theorem rest_update {x : Stage S} (hx : x.rest = (s.stage fd).rest) (fd' : F) :
    (update s.stage fd x fd').rest = (s.stage fd').rest :=
  (forall_update_iff s.stage fun fd y => y.rest = (s.stage fd).rest).2 ⟨hx, fun _ _ => rfl⟩ fd'

theorem Inv.callers_update (h : Inv s) {x : Stage S}
    (hx : ∀ e scheduler hasCb, x = .entered (.addEvent e scheduler hasCb) →
      scheduler.isSome = true) :
    ∀ fd' e scheduler hasCb,
      update s.stage fd x fd' = .entered (.addEvent e scheduler hasCb) →
      scheduler.isSome = true :=
  (forall_update_iff s.stage fun _ y => ∀ e scheduler hasCb,
    y = .entered (.addEvent e scheduler hasCb) → scheduler.isSome = true).2
    ⟨hx, fun fd' _ => h.callers fd'⟩

theorem Inv.control (h : Inv s) {call : Call S} {mask : Finset Event}
    (hstage : s.stage fd = .entered call)
    (hadd : ∀ e scheduler hasCb, call = .addEvent e scheduler hasCb → e ∉ (s.fds fd).events)
    (hreport : ∀ report, call = .handle report → report.Fits (s.fds fd).events)
    (hrequest : call.request (s.fds fd).events = some mask) :
    Inv { s with
      stage := update s.stage fd
        (.acting (call.actions (s.fds fd).events s.registrations))
      kernel := update s.kernel fd mask
      registrations := s.registrations + (if call.registers then 1 else 0) } := by
  obtain ⟨c, hc, hwf, hevents⟩ := h.settles fd
  rw [hstage] at hc
  cases hc
  obtain ⟨c', hsettle, hwf', hevents', hdelta⟩ := settle_actions hwf
    (fun e scheduler hasCb heq =>
      ⟨hadd e scheduler hasCb heq, h.callers fd e scheduler hasCb (by rw [hstage, heq])⟩)
    hreport hrequest s.registrations
  constructor
  · exact h.failed
  · intro fd'
    by_cases heq : fd' = fd
    · subst heq
      simp only [update_self]
      exact ⟨c', hsettle, hwf', hevents'⟩
    · simp only [update_of_ne heq]
      exact h.settles fd'
  · have hcount := h.count
    have hrest := sum_update_entry (fun _ x => delta (Stage.rest x)) s.stage fd
      (.acting (call.actions (s.fds fd).events s.registrations))
    have hkernel := sum_update_entry (fun _ k => (Finset.card k : ℤ)) s.kernel fd mask
    rw [hstage] at hrest
    rw [← hevents] at hkernel
    change _ + delta [] = _ + delta (call.actions (s.fds fd).events s.registrations) at hrest
    change _ + 0 = _ at hrest
    change s.pendingEventCount + _ = _
    linarith
  · intro r
    have hregistered := h.registered r
    have hrest := sum_update_entry (fun _ x => stores r (Stage.rest x)) s.stage fd
      (.acting (call.actions (s.fds fd).events s.registrations))
    rw [hstage] at hrest
    change _ + 0 = _ + stores r (call.actions (s.fds fd).events s.registrations) at hrest
    rw [stores_actions] at hrest
    rw [State.pending_eq] at hregistered ⊢
    change ∑ fd, (s.fds fd).holds r + ∑ fd', stores r (update s.stage fd _ fd').rest +
      s.discarded.count r + (s.scheduled.map Prod.snd).count r = _
    have hnew : (if r < s.registrations + (if call.registers then 1 else 0) then 1 else 0) =
        (if r < s.registrations then 1 else 0) +
          if call.registers then [s.registrations].count r else 0 := by
      simp only [count_singleton, beq_iff_eq]
      cases call.registers with
      | false => simp
      | true =>
        simp only [if_true]
        split_ifs <;> omega
    rw [hnew]
    omega
  · exact h.callers_update fun e scheduler hasCb hx => by cases hx

theorem Inv.act (h : Inv s) {a : Action S} {rest : List (Action S)} {c : FdContext S}
    (hstage : s.stage fd = .acting (a :: rest)) (hact : (s.fds fd).act a = some c) :
    Inv { s with
      fds := update s.fds fd c
      stage := update s.stage fd (.acting rest)
      pendingEventCount := s.pendingEventCount + a.delta
      discarded := s.discarded ++ (s.fds fd).discards a
      scheduled := s.scheduled ++ (s.fds fd).schedules a } := by
  constructor
  · exact h.failed
  · intro fd'
    by_cases heq : fd' = fd
    · subst heq
      obtain ⟨c', hsettle, hwf⟩ := h.settles fd'
      rw [hstage, Stage.rest, settle_cons, hact, Option.bind_some] at hsettle
      simp only [update_self]
      exact ⟨c', hsettle, hwf⟩
    · simp only [update_of_ne heq]
      exact h.settles fd'
  · have hcount := h.count
    have hrest := sum_update_entry (fun _ x => delta (Stage.rest x)) s.stage fd (.acting rest)
    rw [hstage] at hrest
    change _ + delta (a :: rest) = _ + delta rest at hrest
    rw [delta_cons] at hrest
    change s.pendingEventCount + a.delta + _ = _
    linarith
  · intro r
    have hregistered := h.registered r
    have hfds := sum_update_entry (fun _ x => FdContext.holds r x) s.fds fd c
    have hrest := sum_update_entry (fun _ x => stores r (Stage.rest x)) s.stage fd (.acting rest)
    rw [hstage] at hrest
    change _ + stores r (a :: rest) = _ + stores r rest at hrest
    rw [stores_cons] at hrest
    have hone := holds_act r hact
    rw [State.pending_eq] at hregistered ⊢
    change ∑ fd', (update s.fds fd c fd').holds r +
      ∑ fd', stores r (update s.stage fd _ fd').rest +
      (s.discarded ++ _).count r + ((s.scheduled ++ _).map Prod.snd).count r = _
    rw [map_append, count_append, count_append, ← hregistered]
    omega
  · exact h.callers_update fun e scheduler hasCb hx => by cases hx

theorem Inv.step {l : Label F S} (h : Inv s) (hl : Timely s l) (hstep : Step s l t) : Inv t := by
  cases hstep with
  | enter hfailed hstage hcall =>
    refine h.keep hfailed (rest_update (by rw [hstage]; rfl)) rfl (h.callers_update ?_)
    rintro e scheduler hasCb ⟨⟩
    exact hl.1
  | take hfailed hstage hmem | giveUp hfailed hstage hadd | leave hfailed hstage =>
    exact h.keep hfailed (rest_update (by rw [hstage]; rfl)) rfl
      (h.callers_update fun e scheduler hasCb hx => by cases hx)
  | control hfailed hstage hadd hrequest =>
    exact h.control hstage hadd (fun report heq => hl.2 _ report rfl (by rw [hstage, heq])) hrequest
  | act hfailed hstage hact => exact h.act hstage hact
  | @fail fd a rest hfailed hstage hact =>
    obtain ⟨c, hsettle, -⟩ := h.settles fd
    rw [hstage, Stage.rest, settle_cons, hact] at hsettle
    cases hsettle
  | epollWait hfailed hready => exact h.keep hfailed (fun _ => rfl) rfl h.callers

omit [DecidableEq F] in
theorem inv_initial (h : Initial s) : Inv s := by
  subst h
  constructor
  · rfl
  · intro fd
    exact ⟨_, settle_nil, FdContext.wf_create, rfl⟩
  · simp [Stage.rest, delta]
  · intro r
    simp [State.pending, Stage.rest, stores, FdContext.holds, FdContext.create,
      EventContext.holds, EventContext.empty]
  · intro fd e scheduler hasCb hstage
    cases hstage

theorem inv_of_reachable (h : Reachable Initial Step Timely s) : Inv s :=
  h.invariant (fun _ => inv_initial) fun _ _ _ hinv hl hstep => hinv.step hl hstep

end

variable [DecidableEq F]

/-- The reported events are among those that are set when `idle` handles them. -/
def Contained (s : State F S) : Label F S → Prop
  | .control fd true => ∀ report, s.stage fd = .entered (.handle report) →
    report.ready ⊆ (s.fds fd).events
  | _ => True

omit [Fintype F] [DecidableEq F] in
theorem contained_control (fd : F) {call : Call S} (hstage : s.stage fd = .entered call)
    (hcall : ∀ report, call ≠ .handle report) :
    (Label.control fd true : Label F S).Managed ∧ Contained s (.control fd true) :=
  ⟨trivial, fun report h => absurd (Stage.entered.inj (hstage.symm.trans h)) (hcall report)⟩

omit [Fintype F] [DecidableEq F] in
theorem timely_of_contained (s : State F S) (l : Label F S) (h : l.Managed ∧ Contained s l) :
    Timely s l := by
  refine ⟨h.1, fun fd report hl hstage => .inr ?_⟩
  subst hl
  have hready := h.2 report hstage
  unfold Report.realEvents
  split
  · exact Finset.union_subset hready (Finset.Subset.refl _)
  · exact Finset.union_subset hready (Finset.empty_subset _)

omit [Fintype F] [DecidableEq F] in
theorem Inv.wf_of_free [Fintype F] (h : Inv s) (hfree : s.stage fd = .free) :
    (s.fds fd).Wf ∧ (s.fds fd).events = s.kernel fd := by
  obtain ⟨c, hc, hwf, hevents⟩ := h.settles fd
  rw [hfree] at hc
  cases hc
  exact ⟨hwf, hevents⟩

/-- The events of all descriptors in any interleaving. -/
theorem events_accounted
    (h : Reachable Initial Step (fun s l => l.Managed ∧ Contained s l) s) :
    s.failed = none ∧
    ((∀ fd, s.stage fd = .free) → s.pendingEventCount = ∑ fd, ((s.fds fd).events.card : ℤ)) ∧
    (∀ fd, s.stage fd = .free → ∀ e, e ∈ (s.fds fd).events ↔ ((s.fds fd).context e).Armed) ∧
    (∀ r < s.registrations,
      s.pending r + s.discarded.count r + (s.scheduled.map Prod.snd).count r = 1) ∧
    ∀ fd t, Step s (.control fd false) t →
      t = { s with stage := update s.stage fd (.acting []) } := by
  have hinv := inv_of_reachable (h.mono timely_of_contained)
  refine ⟨hinv.failed, ?_, ?_, ?_, ?_⟩
  · intro hfree
    have hcount := hinv.count
    have hrest : ∀ fd, delta (s.stage fd).rest = 0 := fun fd => by rw [hfree fd]; rfl
    simp only [hrest, Finset.sum_const_zero, add_zero] at hcount
    rw [hcount]
    apply Finset.sum_congr rfl
    intro fd _
    rw [(hinv.wf_of_free (hfree fd)).2]
  · intro fd hfree e
    obtain ⟨hwf, -⟩ := hinv.wf_of_free hfree
    refine ⟨hwf.armed e, fun harmed => ?_⟩
    by_contra hnot
    rw [hwf.unused e hnot] at harmed
    cases harmed.1
  · intro r hr
    rw [hinv.registered r, if_pos hr]
  · rintro fd t ⟨⟩
    rfl

section

def added (e : Event) (r : ℕ) (c : FdContext Unit) : FdContext Unit :=
  (c.settle ((Call.addEvent e (some ()) false).actions c.events r)).getD c

/-- Fibers wait for both events of the descriptor, and both are reported. -/
def bothReported : State Unit Unit :=
  ⟨fun _ => added .READ 1 (added .WRITE 0 .create), fun _ => .free, 2,
    fun _ => insert .READ (insert .WRITE ∅), [((), ⟨true, true, false⟩)], 2, [], [], none⟩

theorem reachable_both :
    Reachable Initial Step (fun s l => l.Managed ∧ Contained s l) bothReported := by
  have h : Reachable (Initial (F := Unit) (S := Unit)) Step
    (fun s l => l.Managed ∧ Contained s l) _ := .start rfl
  have h := h.andThen (a := .enter () (.addEvent .WRITE (some ()) false)) (.enter rfl rfl (by simp))
  have h := h.next (contained_control () rfl (by simp))
    (.control rfl rfl (by rintro _ _ _ ⟨⟩; decide) rfl)
  iterate 5 replace h := h.andThen (a := .act ()) (.act rfl rfl rfl)
  have h := h.andThen (a := .leave ()) (.leave rfl rfl)
  have h := h.andThen (a := .enter () (.addEvent .READ (some ()) false)) (.enter rfl rfl (by simp))
  have h := h.next (contained_control () rfl (by simp))
    (.control rfl rfl (by rintro _ _ _ ⟨⟩; decide) rfl)
  iterate 5 replace h := h.andThen (a := .act ()) (.act rfl rfl rfl)
  have h := h.andThen (a := .leave ()) (.leave rfl rfl)
  exact h.andThen (.epollWait rfl (by decide))

end

/-- Fibers wait for both events of a descriptor, and `cancelAll` wakes them. -/
theorem events_accounted_cancel : ∃ s : State Unit Unit,
    Reachable Initial Step (fun s l => l.Managed ∧ Contained s l) s ∧
    s.registrations = 2 ∧ s.pendingEventCount = 0 ∧
    ∀ r < 2, s.pending r + s.discarded.count r + (s.scheduled.map Prod.snd).count r = 1 := by
  have h := reachable_both.andThen (a := .enter () .cancelAll) (.enter rfl rfl (by simp))
  have h := h.next (contained_control () rfl (by simp))
    (.control rfl rfl (by simp) rfl)
  iterate 11 replace h := h.andThen (a := .act ()) (.act rfl rfl rfl)
  have h := h.andThen (a := .leave ()) (.leave rfl rfl)
  exact ⟨_, h, rfl, rfl, (events_accounted h).2.2.2.1⟩

/-- On a thread without a scheduler `addEvent` sets the bit of a context that has none. -/
theorem event_without_scheduler : ∃ s : State Unit Unit, Reachable Initial Step Contained s ∧
    s.stage () = .free ∧ .READ ∈ (s.fds ()).events ∧ ¬ ((s.fds ()).context .READ).Armed := by
  have h : Reachable (Initial (F := Unit) (S := Unit)) Step Contained _ := .start rfl
  have h := h.andThen (a := .enter () (.addEvent .READ none true)) (.enter rfl rfl (by simp))
  have h := h.next (contained_control () rfl (by simp)).2
    (.control rfl rfl (by rintro _ _ _ ⟨⟩; decide) rfl)
  iterate 5 replace h := h.andThen (a := .act ()) (.act rfl rfl rfl)
  have h := h.andThen (a := .leave ()) (.leave rfl rfl)
  exact ⟨_, h, rfl, by decide, fun harmed => by cases harmed.1⟩

/-- The section of `idle` for a report ends at the assertion of `triggerEvent` exactly when some of
the reported events are set and others are not; otherwise the assertion never fails. -/
theorem triggers_only_set (h : Reachable Initial Step Timely s) :
    s.failed = none ∧ ∀ fd report, s.stage fd = .entered (.handle report) →
      ((∀ mask, (Call.handle report : Call S).request (s.fds fd).events = some mask →
          ((s.fds fd).settle ((Call.handle report).actions (s.fds fd).events
            s.registrations)).isSome = true) ↔
        report.Fits (s.fds fd).events) := by
  have hinv := inv_of_reachable h
  refine ⟨hinv.failed, ?_⟩
  intro fd report hstage
  obtain ⟨c, hc, hwf, -⟩ := hinv.settles fd
  rw [hstage] at hc
  cases hc
  have hrequest : (Call.handle report : Call S).request (s.fds fd).events =
      if (s.fds fd).events ∩ report.realEvents (s.fds fd).events = ∅ then none
      else some ((s.fds fd).events \ report.realEvents (s.fds fd).events) := rfl
  constructor
  · intro hruns
    by_contra hnot
    obtain ⟨hmeet, hsub⟩ := not_or.1 hnot
    have hsome := hruns _ (hrequest.trans (if_neg hmeet))
    rw [Call.actions, settle_triggerEvents_eq_none hwf hsub] at hsome
    cases hsome
  · intro hfits mask hmask
    obtain ⟨hmeet, -⟩ := Option.ite_none_left_eq_some.1 hmask
    rw [Call.actions, settle_triggerEvents hwf (hfits.resolve_left hmeet)]
    rfl

/-- Both events of a descriptor are reported, and one of them is deleted before `idle` takes the
lock. -/
theorem trigger_assertion_fails : ∃ s : State Unit Unit,
    Reachable Initial Step (fun _ l => l.Managed) s ∧ s.failed = some ((), .assertSet .READ) := by
  have h := reachable_both.andThen (a := .enter () (.delEvent .READ)) (.enter rfl rfl (by simp))
  have h := h.next (contained_control () rfl (by simp))
    (.control rfl rfl (by simp) rfl)
  iterate 3 replace h := h.andThen (a := .act ()) (.act rfl rfl rfl)
  have h := h.andThen (a := .leave ()) (.leave rfl rfl)
  have h := (h.andThen (.take rfl rfl (mem_singleton_self _))).mono fun _ _ hl => hl.1
  have h := h.andThen (a := .control () true) (.control rfl rfl (by simp) rfl)
  have h := h.andThen (a := .act ()) (.fail rfl rfl rfl)
  exact ⟨_, h, rfl⟩

/-- Both events are reported, and `idle` triggers both. -/
theorem triggers_only_set_both : ∃ s : State Unit Unit, Reachable Initial Step Timely s ∧
    s.stage () = .entered (.handle ⟨true, true, false⟩) ∧ s.failed = none ∧
    ((s.fds ()).settle (triggerEvents {.READ, .WRITE})).isSome = true := by
  have h := reachable_both.andThen (.take rfl rfl (mem_singleton_self _))
  have h := h.mono timely_of_contained
  obtain ⟨hfailed, hsection⟩ := triggers_only_set h
  have hruns := (hsection () ⟨true, true, false⟩ rfl).2 (.inr (by decide)) ∅ rfl
  exact ⟨_, h, rfl, hfailed, hruns⟩

end JKYi.IOManager
