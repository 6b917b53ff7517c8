import JKYi.IOManager.Model

/-!
# Critical sections of a context

A section that runs to its end takes a well-formed context to a well-formed one whose mask
is the one passed to `epoll_ctl`, and changes the count of events by the difference.
Each action keeps track of the registrations it finds.
-/

namespace JKYi.IOManager

open List Option Function

variable {S : Type} {c c' : FdContext S} {e : Event}

/-- Ready to be triggered: a scheduler, and either a callback or a fiber. -/
def EventContext.Armed (ctx : EventContext S) : Prop :=
  ctx.scheduler.isSome = true ∧ (ctx.cb.isSome = true ↔ ctx.fiber.isNone = true)

/-- The mask says which of the two contexts are in use. -/
structure FdContext.Wf (c : FdContext S) : Prop where
  armed : ∀ e ∈ c.events, (c.context e).Armed
  unused : ∀ e, e ∉ c.events → c.context e = .empty

/-- The events of `es` are taken out of use. -/
def FdContext.clear (c : FdContext S) (es : Finset Event) : FdContext S :=
  ⟨fun e => if e ∈ es then .empty else c.context e, c.events \ es⟩

/-- The actions that are left, one after the other. -/
def FdContext.settle (c : FdContext S) (actions : List (Action S)) : Option (FdContext S) :=
  actions.foldlM FdContext.act c

def delta (actions : List (Action S)) : ℤ := (actions.map Action.delta).sum

section

variable {a : Action S} {rest actions : List (Action S)}

theorem settle_nil : c.settle [] = some c := rfl

theorem settle_cons : c.settle (a :: rest) = (c.act a).bind fun c' => c'.settle rest := rfl

theorem settle_append : c.settle (actions ++ rest) = (c.settle actions).bind fun c' =>
    c'.settle rest :=
  foldlM_append

theorem delta_cons : delta (a :: rest) = a.delta + delta rest := sum_cons

theorem delta_append : delta (actions ++ rest) = delta actions + delta rest := by
  simp [delta]

end

theorem FdContext.wf_create : (FdContext.create : FdContext S).Wf :=
  ⟨fun _ he => absurd he (Finset.notMem_empty _), fun _ _ => rfl⟩

theorem clear_empty : c.clear ∅ = c := by
  simp [FdContext.clear]

theorem clear_singleton :
    c.clear {e} = ⟨update c.context e .empty, c.events.erase e⟩ := by
  have hcontext : (fun e' => if e' ∈ ({e} : Finset Event) then .empty else c.context e') =
      update c.context e .empty := by
    funext e'
    simp [update_apply]
  rw [FdContext.clear, hcontext, Finset.sdiff_singleton_eq_erase]

theorem clear_clear (es es' : Finset Event) : (c.clear es).clear es' = c.clear (es ∪ es') := by
  have hcontext : ∀ e, (if e ∈ es' then .empty else if e ∈ es then .empty else c.context e) =
      if e ∈ es ∪ es' then .empty else c.context e := by
    intro e
    by_cases he : e ∈ es <;> by_cases he' : e ∈ es' <;> simp [he, he']
  simp only [FdContext.clear, hcontext, sdiff_sdiff_left, Finset.sup_eq_union]

theorem FdContext.Wf.clear (h : c.Wf) (es : Finset Event) : (c.clear es).Wf := by
  constructor
  · intro e he
    obtain ⟨hmem, hes⟩ := Finset.mem_sdiff.1 he
    simp only [FdContext.clear, if_neg hes]
    exact h.armed e hmem
  · intro e he
    by_cases hes : e ∈ es
    · exact if_pos hes
    · simp only [FdContext.clear, if_neg hes]
      exact h.unused e fun hmem => he (Finset.mem_sdiff.2 ⟨hmem, hes⟩)

theorem FdContext.Wf.arm (h : c.Wf) (e : Event) {ctx : EventContext S} (hctx : ctx.Armed) :
    FdContext.Wf (⟨update c.context e ctx, insert e c.events⟩ : FdContext S) := by
  constructor
  · intro e' he'
    by_cases heq : e' = e
    · subst heq
      simpa using hctx
    · simp only [update_of_ne heq]
      exact h.armed e' (Finset.mem_of_mem_insert_of_ne he' heq)
  · intro e' he'
    rw [Finset.mem_insert, not_or] at he'
    simp only [update_of_ne he'.1]
    exact h.unused e' he'.2

theorem EventContext.Armed.take {ctx : EventContext S} (h : ctx.Armed) :
    { ctx.take.2 with scheduler := none } = (.empty : EventContext S) := by
  obtain ⟨scheduler, fiber, cb⟩ := ctx
  obtain ⟨-, hone⟩ := h
  cases cb with
  | none =>
    cases fiber with
    | none => rfl
    | some r => rfl
  | some r =>
    cases fiber with
    | none => rfl
    | some r' => simp at hone

theorem settle_triggerEvent (h : c.Wf) (he : e ∈ c.events) :
    c.settle (triggerEvent e) = some (c.clear {e}) := by
  have harmed := h.armed e he
  simp only [triggerEvent, settle_cons, settle_nil, FdContext.act, if_pos he, bind_some,
    if_pos harmed.1, FdContext.setContext, update_self, update_idem,
    harmed.take, clear_singleton]

theorem settle_triggerEvent_eq_none (he : e ∉ c.events) : c.settle (triggerEvent e) = none := by
  simp only [triggerEvent, settle_cons, FdContext.act, if_neg he, bind_none]

theorem settle_trigger_if (h : c.Wf) (es : Finset Event) (he : e ∈ es → e ∈ c.events) :
    c.settle (if e ∈ es then triggerEvent e ++ [.decrement] else []) =
      some (c.clear ({e} ∩ es)) := by
  by_cases hmem : e ∈ es
  · rw [if_pos hmem, settle_append, settle_triggerEvent h (he hmem),
      Finset.singleton_inter_of_mem hmem]
    rfl
  · rw [if_neg hmem, settle_nil, Finset.singleton_inter_of_notMem hmem, clear_empty]

theorem mem_clear_READ (es : Finset Event) :
    .WRITE ∈ (c.clear ({.READ} ∩ es)).events ↔ .WRITE ∈ c.events := by
  simp [FdContext.clear]

theorem settle_triggerEvents (h : c.Wf) {es : Finset Event} (hes : es ⊆ c.events) :
    c.settle (triggerEvents es) = some (c.clear es) := by
  have hwrite : .WRITE ∈ es → .WRITE ∈ (c.clear ({.READ} ∩ es)).events :=
    fun he => (mem_clear_READ es).2 (hes he)
  have hunion : ∀ es : Finset Event, ({.READ} ∩ es) ∪ ({.WRITE} ∩ es) = es := by decide
  rw [triggerEvents, settle_append, settle_trigger_if h es fun he => hes he, bind_some,
    settle_trigger_if (h.clear _) es hwrite, clear_clear, hunion]

/-- An event that is not set makes the assertion of `triggerEvent` fail. -/
theorem settle_triggerEvents_eq_none (h : c.Wf) {es : Finset Event} (hes : ¬ es ⊆ c.events) :
    c.settle (triggerEvents es) = none := by
  by_cases hread : .READ ∈ es → .READ ∈ c.events
  · have hwrite : .WRITE ∈ es ∧ .WRITE ∉ c.events := by
      by_contra hall
      refine hes fun e he => ?_
      cases e with
      | READ => exact hread he
      | WRITE => exact not_not.1 fun hnot => hall ⟨he, hnot⟩
    have hnot : .WRITE ∉ (c.clear ({.READ} ∩ es)).events :=
      fun hmem => hwrite.2 ((mem_clear_READ es).1 hmem)
    rw [triggerEvents, settle_append, settle_trigger_if h es hread, bind_some,
      if_pos hwrite.1, settle_append, settle_triggerEvent_eq_none hnot]
    rfl
  · obtain ⟨hmem, hnot⟩ := Classical.not_imp.1 hread
    rw [triggerEvents, settle_append, if_pos hmem, settle_append, settle_triggerEvent_eq_none hnot]
    rfl

theorem delta_triggerEvents (es : Finset Event) :
    delta (triggerEvents es : List (Action S)) = -es.card := by
  have hcard : (es.card : ℤ) = (if .READ ∈ es then 1 else 0) + (if .WRITE ∈ es then 1 else 0) := by
    revert es
    decide
  rw [hcard, triggerEvents, delta_append]
  split <;> split <;> rfl

theorem settle_addEvent (h : c.Wf) (he : e ∉ c.events) (scheduler : Option S) (hasCb : Bool)
    (r : ℕ) :
    c.settle ((Call.addEvent e scheduler hasCb).actions c.events r) =
      some ⟨update c.context e
        (if hasCb then ⟨scheduler, none, some r⟩ else ⟨scheduler, some r, none⟩),
        insert e c.events⟩ := by
  have hempty := h.unused e he
  cases hasCb <;> simp [Call.actions, settle_cons, settle_nil, FdContext.act, hempty,
    EventContext.empty, FdContext.setContext]

theorem armed_addEvent {scheduler : Option S} (hscheduler : scheduler.isSome = true)
    (hasCb : Bool) (r : ℕ) : EventContext.Armed
      (if hasCb then ⟨scheduler, none, some r⟩ else ⟨scheduler, some r, none⟩ :
        EventContext S) := by
  cases hasCb <;> exact ⟨hscheduler, by simp⟩

/-- When the reported events fit the mask: `idle` skips the report, or triggers only events that
are set. -/
def Report.Fits (report : Report) (events : Finset Event) : Prop :=
  events ∩ report.realEvents events = ∅ ∨ report.realEvents events ⊆ events

theorem settle_actions (h : c.Wf) {call : Call S} {mask : Finset Event}
    (hadd : ∀ e scheduler hasCb, call = .addEvent e scheduler hasCb →
      e ∉ c.events ∧ scheduler.isSome = true)
    (hreport : ∀ report, call = .handle report → report.Fits c.events)
    (hrequest : call.request c.events = some mask) (r : ℕ) :
    ∃ c', c.settle (call.actions c.events r) = some c' ∧ c'.Wf ∧ c'.events = mask ∧
      delta (call.actions c.events r) = mask.card - c.events.card := by
  cases call with
  | addEvent e scheduler hasCb =>
    obtain ⟨he, hscheduler⟩ := hadd e scheduler hasCb rfl
    cases hrequest
    refine ⟨_, settle_addEvent h he scheduler hasCb r,
      h.arm e (armed_addEvent hscheduler hasCb r), rfl, ?_⟩
    rw [Finset.card_insert_of_notMem he]
    cases hasCb <;> simp [Call.actions, delta, Action.delta]
  | delEvent e =>
    obtain ⟨he, ⟨⟩⟩ := ite_none_right_eq_some.1 hrequest
    refine ⟨c.clear {e}, ?_, h.clear {e}, Finset.sdiff_singleton_eq_erase e c.events, ?_⟩
    · rw [clear_singleton]
      rfl
    have hcard := Finset.card_erase_add_one he
    simp only [Call.actions, delta, map_cons, map_nil, Action.delta, sum_cons, sum_nil]
    omega
  | cancelEvent e =>
    obtain ⟨he, ⟨⟩⟩ := ite_none_right_eq_some.1 hrequest
    refine ⟨c.clear {e}, settle_triggerEvent h he, h.clear {e},
      Finset.sdiff_singleton_eq_erase e c.events, ?_⟩
    have hcard := Finset.card_erase_add_one he
    simp only [Call.actions, triggerEvent, delta, map_cons, map_nil, Action.delta,
      sum_cons, sum_nil]
    omega
  | cancelAll =>
    obtain ⟨-, ⟨⟩⟩ := ite_none_left_eq_some.1 hrequest
    have hevents : (c.clear c.events).events = ∅ := Finset.sdiff_self c.events
    refine ⟨c.clear c.events, ?_, h.clear c.events, hevents, ?_⟩
    · rw [Call.actions, settle_append, settle_triggerEvents h (Finset.Subset.refl c.events),
        bind_some, settle_cons, FdContext.act, if_pos hevents]
      rfl
    · rw [Call.actions, delta_append, delta_triggerEvents]
      simp [delta, Action.delta]
  | handle report =>
    obtain ⟨hmeet, ⟨⟩⟩ := ite_none_left_eq_some.1 hrequest
    have hes := (hreport report rfl).resolve_left hmeet
    refine ⟨c.clear (report.realEvents c.events), settle_triggerEvents h hes, h.clear _, rfl, ?_⟩
    have hcard := Finset.card_sdiff_add_card_eq_card hes
    rw [Call.actions, delta_triggerEvents]
    omega

variable {a : Action S} {rest : List (Action S)}

/-- How often a context holds a registration. -/
def EventContext.holds (r : ℕ) (ctx : EventContext S) : ℕ :=
  ctx.fiber.toList.count r + ctx.cb.toList.count r

def FdContext.holds (r : ℕ) (c : FdContext S) : ℕ := ∑ e, (c.context e).holds r

def Action.stores (r : ℕ) : Action S → ℕ
  | .storeFiber _ r' => [r'].count r
  | .storeCb _ r' => [r'].count r
  | _ => 0

def stores (r : ℕ) (actions : List (Action S)) : ℕ := (actions.map (Action.stores r)).sum

theorem stores_cons (r : ℕ) : stores r (a :: rest) = a.stores r + stores r rest := sum_cons

theorem holds_setContext (r : ℕ) (ctx : EventContext S) :
    (c.setContext e ctx).holds r + (c.context e).holds r = c.holds r + ctx.holds r :=
  sum_update_entry (fun _ x => EventContext.holds r x) c.context e ctx

theorem holds_take (r : ℕ) (ctx : EventContext S) :
    ctx.take.2.holds r + ctx.take.1.toList.count r = ctx.holds r := by
  obtain ⟨scheduler, fiber, cb⟩ := ctx
  cases cb with
  | none | some r' => simp [EventContext.take, EventContext.holds]

theorem holds_act (r : ℕ) (h : c.act a = some c') :
    c'.holds r + (c.discards a).count r + ((c.schedules a).map Prod.snd).count r =
      c.holds r + a.stores r := by
  cases a with
  | increment | decrement | setEvent e | clearEvent e =>
    cases h
    rfl
  | assertEmpty e | assertSet e | assertNone =>
    obtain ⟨-, ⟨⟩⟩ := ite_none_right_eq_some.1 h
    rfl
  | setScheduler e s | dropScheduler e =>
    cases h
    exact Nat.add_right_cancel (holds_setContext r _)
  | storeFiber e r' =>
    cases h
    have hset := holds_setContext (c := c) (e := e) r { c.context e with fiber := some r' }
    simp only [EventContext.holds, toList_some] at hset
    simp only [FdContext.discards, FdContext.schedules, Action.stores, map_nil, count_nil]
    omega
  | storeCb e r' =>
    cases h
    have hset := holds_setContext (c := c) (e := e) r { c.context e with cb := some r' }
    simp only [EventContext.holds, toList_some] at hset
    simp only [FdContext.discards, FdContext.schedules, Action.stores, map_nil, count_nil]
    omega
  | resetContext e =>
    cases h
    have hset := holds_setContext (c := c) (e := e) r .empty
    simp only [FdContext.discards, FdContext.schedules, Action.stores, map_nil,
      count_nil, count_append]
    exact hset
  | schedule e =>
    obtain ⟨hsome, ⟨⟩⟩ := ite_none_right_eq_some.1 h
    obtain ⟨s, hs⟩ := isSome_iff_exists.1 hsome
    have hset := holds_setContext (c := c) (e := e) r (c.context e).take.2
    have htake := holds_take r (c.context e)
    have hlist : ((c.schedules (.schedule e)).map Prod.snd).count r =
        (c.context e).take.1.toList.count r := by
      simp only [FdContext.schedules, hs]
      cases (c.context e).take.1 <;> rfl
    rw [hlist]
    simp only [FdContext.discards, Action.stores, count_nil]
    omega

theorem stores_triggerEvents (r : ℕ) (events : Finset Event) :
    stores r (triggerEvents events : List (Action S)) = 0 := by
  unfold triggerEvents
  split <;> split <;> rfl

theorem stores_append (r : ℕ) (actions rest : List (Action S)) :
    stores r (actions ++ rest) = stores r actions + stores r rest := by
  simp [stores]

theorem stores_actions (r : ℕ) (call : Call S) (events : Finset Event) (r' : ℕ) :
    stores r (call.actions events r') = if call.registers then [r'].count r else 0 := by
  cases call with
  | addEvent e scheduler hasCb =>
    cases hasCb <;> simp [Call.actions, stores, Action.stores, Call.registers]
  | delEvent e => rfl
  | cancelEvent e => rfl
  | cancelAll =>
    rw [Call.actions, stores_append, stores_triggerEvents]
    rfl
  | handle report => exact stores_triggerEvents r _

end JKYi.IOManager
