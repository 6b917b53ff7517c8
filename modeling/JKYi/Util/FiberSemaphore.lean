import JKYi.Foundation.Interleaving

/-!
# A semaphore of fibers

`FiberSemaphore` counts permits and keeps the fibers that wait for one in a
`std::list`, both under a spin lock. A node of the list is known by its address:
`pop_front` frees the first one, and an iterator to a freed node cannot be read
any more.
-/

namespace JKYi.FiberSemaphore

open List Function

/-- An element of `m_waiters`. -/
structure Node (S F : Type) where
  addr : ℕ
  scheduler : S
  fiber : F
  deriving DecidableEq

inductive Call where
  | tryWait
  | wait
  | notify
  deriving DecidableEq

/-- Where a fiber is: in a call that has the lock, in `notify` with its iterator before and
behind `pop_front`, about to release the lock, or in `wait` behind `push_back`. -/
inductive Phase where
  | outside
  | inside (c : Call)
  | next (it : ℕ)
  | popped (it : ℕ)
  | leaving
  | pushed
  | yielding
  | parked
  deriving DecidableEq

/-- The semaphore, its fibers, and the jobs given to schedulers. `acquired` counts the permits
handed out, `notified` the calls of `notify` that have had their effect. -/
structure State (S F : Type) where
  lock : Option F
  concurrency : UInt64
  waiters : List (Node S F)
  phase : F → Phase
  scheduled : List (S × F)
  crashed : Bool
  acquired : ℕ
  notified : ℕ

variable {S F : Type}

/-- `*it`, unless the node is freed. -/
def deref (waiters : List (Node S F)) (it : ℕ) : Option (Node S F) :=
  waiters.find? fun x => x.addr == it

section

variable [DecidableEq F]

def State.setPhase (s : State S F) (f : F) (p : Phase) : State S F :=
  { s with phase := update s.phase f p }

inductive Label (F : Type) where
  | begin (f : F)
  | other

inductive Move (s : State S F) : Label F → State S F → Prop
  | lock (f : F) (c : Call) (hp : s.phase f = .outside) (hfree : s.lock = none) :
      Move s .other ({ s with lock := some f }.setPhase f (.inside c))
  | tryTake (f : F) (hp : s.phase f = .inside .tryWait) (hc : 0 < s.concurrency) :
      Move s .other ({ s with concurrency := s.concurrency - 1, acquired := s.acquired + 1
        }.setPhase f .leaving)
  | tryFail (f : F) (hp : s.phase f = .inside .tryWait) (hc : ¬ 0 < s.concurrency) :
      Move s .other (s.setPhase f .leaving)
  | pass (f : F) (hp : s.phase f = .inside .wait) (hc : 0 < s.concurrency) :
      Move s .other ({ s with concurrency := s.concurrency - 1, acquired := s.acquired + 1
        }.setPhase f .leaving)
  | push (f : F) (sc : S) (a : ℕ) (hp : s.phase f = .inside .wait) (hc : ¬ 0 < s.concurrency)
      (hnew : ∀ x ∈ s.waiters, x.addr ≠ a) :
      Move s .other ({ s with waiters := s.waiters ++ [Node.mk a sc f] }.setPhase f .pushed)
  | release (f : F) (hp : s.phase f = .inside .notify) (hw : s.waiters = []) :
      Move s (.begin f) ({ s with concurrency := s.concurrency + 1, notified := s.notified + 1
        }.setPhase f .leaving)
  | begin (f : F) (x : Node S F) (rest : List (Node S F)) (hp : s.phase f = .inside .notify)
      (hw : s.waiters = x :: rest) : Move s (.begin f) (s.setPhase f (.next x.addr))
  | popFront (f : F) (it : ℕ) (hp : s.phase f = .next it) :
      Move s .other ({ s with waiters := s.waiters.tail }.setPhase f (.popped it))
  | schedule (f : F) (it : ℕ) (x : Node S F) (hp : s.phase f = .popped it)
      (hx : deref s.waiters it = some x) :
      Move s .other ({ s with
        scheduled := s.scheduled ++ [(x.scheduler, x.fiber)], acquired := s.acquired + 1,
        notified := s.notified + 1 }.setPhase f .leaving)
  | crash (f : F) (it : ℕ) (hp : s.phase f = .popped it) (hx : deref s.waiters it = none) :
      Move s .other { s with crashed := true }
  | unlock (f : F) (hp : s.phase f = .leaving) :
      Move s .other ({ s with lock := none }.setPhase f .outside)
  | unlockWait (f : F) (hp : s.phase f = .pushed) :
      Move s .other ({ s with lock := none }.setPhase f .yielding)
  | yieldToHold (f : F) (hp : s.phase f = .yielding) : Move s .other (s.setPhase f .parked)
  | resume (f : F) (sc : S) (l₁ l₂ : List (S × F)) (hp : s.phase f = .parked)
      (hl : s.scheduled = l₁ ++ (sc, f) :: l₂) :
      Move s .other ({ s with scheduled := l₁ ++ l₂ }.setPhase f .outside)

def Step (s : State S F) (l : Label F) (s' : State S F) : Prop := s.crashed = false ∧ Move s l s'

/-- `FiberSemaphore(n)`. -/
structure Initial (n : UInt64) (s : State S F) : Prop where
  lock : s.lock = none
  concurrency : s.concurrency = n
  waiters : s.waiters = []
  phase : ∀ f, s.phase f = .outside
  scheduled : s.scheduled = []
  crashed : s.crashed = false
  acquired : s.acquired = 0
  notified : s.notified = 0

end

/-- `f` has gone to wait and has not been scheduled since. -/
def State.Waiting (s : State S F) (f : F) : Prop :=
  (s.phase f = .pushed ∨ s.phase f = .yielding ∨ s.phase f = .parked) ∧
    ∀ sc, (sc, f) ∉ s.scheduled

/-- No `notify` finds a waiter, or a counter that cannot grow. -/
def NotifyFits (s : State S F) : Label F → Prop
  | .begin _ => s.waiters = [] ∧ s.concurrency.toNat + 1 < 2 ^ 64
  | .other => True

def Phase.InSection : Phase → Prop
  | .inside _ | .next _ | .popped _ | .leaving | .pushed => True
  | .outside | .yielding | .parked => False

def Phase.Gone : Phase → Prop
  | .pushed | .yielding | .parked => True
  | .outside | .inside _ | .next _ | .popped _ | .leaving => False

/-- What the iterator of `notify` refers to. -/
def State.Fits (s : State S F) : Phase → Prop
  | .next it => ∃ x rest, s.waiters = x :: rest ∧ x.addr = it
  | .popped it => s.concurrency = 0 ∧ ∀ x ∈ s.waiters, x.addr ≠ it
  | .outside | .inside _ | .leaving | .pushed | .yielding | .parked => True

def State.Queued (s : State S F) (f : F) : Prop := ∃ x ∈ s.waiters, x.fiber = f

/-- What holds in every run: a fiber that has gone to wait stays in the list, or was taken out
by a `notify` that cannot go on. -/
structure Inv (s : State S F) : Prop where
  holder (f : F) : (s.phase f).InSection → s.lock = some f
  fits (f : F) : s.Fits (s.phase f)
  addrs : (s.waiters.map Node.addr).Nodup
  idle : 0 < s.concurrency → s.waiters = []
  gone (f : F) : (s.phase f).Gone → s.Queued f ∨ ∃ g it, s.phase g = .popped it
  scheduled : s.scheduled = []

theorem State.Fits.of_not_inSection {s : State S F} {p : Phase} (h : ¬ p.InSection) :
    s.Fits p := by
  cases p <;> first | trivial | exact absurd trivial h

theorem deref_eq_none {waiters : List (Node S F)} {it : ℕ} (h : ∀ x ∈ waiters, x.addr ≠ it) :
    deref waiters it = none := by
  rw [deref, List.find?_eq_none]
  intro x hx
  rw [beq_iff_eq]
  exact h x hx

section

variable {s t : State S F} {f g : F} {p : Phase}

theorem Inv.sole (h : Inv s) (hf : (s.phase f).InSection) (hg : (s.phase g).InSection) :
    g = f := by
  have hlock := (h.holder g hg).symm.trans (h.holder f hf)
  exact Option.some.inj hlock

/-- As long as no `notify` is behind `pop_front`, those who wait are in the list. -/
theorem Inv.queued (h : Inv s) (hf : (s.phase f).InSection) (hpop : ∀ it, s.phase f ≠ .popped it)
    (hg : (s.phase g).Gone) : s.Queued g := by
  rcases h.gone g hg with hq | ⟨v, it, hv⟩
  · exact hq
  · have hsection : (s.phase v).InSection := by
      rw [hv]
      trivial
    rw [h.sole hf hsection] at hv
    exact absurd hv (hpop it)

variable [DecidableEq F]

theorem forall_setPhase {P : F → Phase → Prop} (hphase : t.phase = s.phase) (hf : P f p)
    (hother : ∀ g, g ≠ f → P g (s.phase g)) (g : F) : P g ((t.setPhase f p).phase g) :=
  (forall_update_iff t.phase P).2 ⟨hf, hphase ▸ hother⟩ g

theorem Inv.move {q : Phase} (h : Inv s) (hp : s.phase f = q) (hq : q.InSection)
    (hpop : ∀ it, q ≠ .popped it) (hphase : t.phase = s.phase)
    (hlock : p.InSection → t.lock = s.lock) (hfits : t.Fits p)
    (haddrs : (t.waiters.map Node.addr).Nodup) (hidle : 0 < t.concurrency → t.waiters = [])
    (hgone : p.Gone → t.Queued f)
    (hkeep : (∀ g, s.Queued g → t.Queued g) ∨ ∃ it, p = .popped it)
    (hscheduled : t.scheduled = []) : Inv (t.setPhase f p) := by
  subst hp
  have hout : ∀ g, g ≠ f → ¬ (s.phase g).InSection := fun g hg hs => hg (h.sole hq hs)
  refine ⟨?_, ?_, haddrs, hidle, fun g hg => ?_, hscheduled⟩
  · exact forall_setPhase (P := fun g q => q.InSection → t.lock = some g) hphase
      (fun hin => (hlock hin).trans (h.holder f hq)) fun g hg hs => absurd hs (hout g hg)
  · exact forall_setPhase hphase hfits fun g hg => .of_not_inSection (hout g hg)
  · rcases hkeep with hkeep | ⟨it, hit⟩
    · exact .inl (forall_setPhase (P := fun g q => q.Gone → t.Queued g) hphase hgone
        (fun g _ hg => hkeep g (h.queued hq hpop hg)) g hg)
    · exact .inr ⟨f, it, (update_self ..).trans hit⟩

theorem Inv.keepWaiters {q : Phase} (h : Inv s) (hp : s.phase f = q) (hq : q.InSection)
    (hpop : ∀ it, q ≠ .popped it)
    (hsame : (t.phase, t.waiters, t.scheduled) = (s.phase, s.waiters, s.scheduled))
    (hlock : p.InSection → t.lock = s.lock) (hfits : t.Fits p)
    (hidle : 0 < t.concurrency → s.waiters = []) (hgone : ¬ p.Gone) : Inv (t.setPhase f p) := by
  simp only [Prod.mk.injEq] at hsame
  obtain ⟨hphase, hwaiters, hscheduled⟩ := hsame
  refine h.move hp hq hpop hphase hlock hfits ?_ ?_ (fun hg => absurd hg hgone) (.inl ?_)
    (hscheduled.trans h.scheduled)
  · rw [hwaiters]
    exact h.addrs
  · rw [hwaiters]
    exact hidle
  · intro g hg
    rw [State.Queued, hwaiters]
    exact hg

theorem Inv.moveOutside (h : Inv s) (hphase : t.phase = s.phase)
    (hwaiters : t.waiters = s.waiters) (hconcurrency : t.concurrency = s.concurrency)
    (hscheduled : t.scheduled = s.scheduled)
    (hf : ¬ (s.phase f).InSection) (hfits : ∀ u : State S F, u.Fits p)
    (hlock : ∀ g, g ≠ f → (s.phase g).InSection → t.lock = some g)
    (hin : p.InSection → t.lock = some f) (hgone : p.Gone → (s.phase f).Gone) :
    Inv (t.setPhase f p) := by
  have hfitsEq : ∀ q, (t.setPhase f p).Fits q ↔ s.Fits q := by
    intro q
    cases q <;> simp only [State.Fits, State.setPhase, hwaiters, hconcurrency]
  refine ⟨?_, ?_, ?_, ?_, fun g hg => ?_, hscheduled.trans h.scheduled⟩
  · exact forall_setPhase (P := fun g q => q.InSection → t.lock = some g) hphase hin hlock
  · exact forall_setPhase hphase (hfits _) fun g _ => (hfitsEq _).2 (h.fits g)
  · change (t.waiters.map Node.addr).Nodup
    rw [hwaiters]
    exact h.addrs
  · change 0 < t.concurrency → t.waiters = []
    rw [hwaiters, hconcurrency]
    exact h.idle
  · have hold : (s.phase g).Gone := forall_setPhase (P := fun g q => q.Gone → (s.phase g).Gone)
      hphase hgone (fun _ _ => id) g hg
    rcases h.gone g hold with ⟨x, hx, hxg⟩ | ⟨v, it, hv⟩
    · left
      refine ⟨x, ?_, hxg⟩
      rw [← hwaiters] at hx
      exact hx
    · right
      have hvf : v ≠ f := by
        rintro rfl
        rw [hv] at hf
        exact hf trivial
      refine ⟨v, it, (update_of_ne hvf ..).trans ?_⟩
      rw [hphase, hv]

theorem Move.inv {l : Label F} {s' : State S F} (hmove : Move s l s') (h : Inv s) :
    Inv s' := by
  cases hmove with
  | lock f c hp hfree =>
    have hnone : ∀ g, ¬ (s.phase g).InSection := by
      intro g hg
      have hlock := h.holder g hg
      rw [hfree] at hlock
      cases hlock
    exact h.moveOutside rfl rfl rfl rfl (hnone f) (fun _ => trivial)
      (fun g _ hg => absurd hg (hnone g)) (fun _ => rfl) (fun hg => absurd hg not_false)
  | tryTake f hp hc | pass f hp hc =>
    exact h.keepWaiters hp trivial nofun rfl (fun _ => rfl) trivial (fun _ => h.idle hc) not_false
  | tryFail f hp hc =>
    exact h.keepWaiters hp trivial nofun rfl (fun _ => rfl) trivial h.idle not_false
  | push f sc a hp hc hnew =>
    refine h.move hp trivial nofun rfl (fun _ => rfl) trivial ?_ (fun hc' => absurd hc' hc)
      (fun _ => ⟨_, mem_append_right _ (mem_singleton_self _), rfl⟩) (.inl ?_)
      h.scheduled
    · change ((s.waiters ++ [Node.mk a sc f]).map Node.addr).Nodup
      rw [map_append, map_singleton, nodup_append]
      refine ⟨h.addrs, nodup_singleton _, fun b hb c hc => ?_⟩
      obtain ⟨x, hx, rfl⟩ := mem_map.1 hb
      rw [mem_singleton.1 hc]
      exact hnew x hx
    · rintro g ⟨x, hx, hxg⟩
      exact ⟨x, mem_append_left _ hx, hxg⟩
  | release f hp hw =>
    exact h.keepWaiters hp trivial nofun rfl (fun _ => rfl) trivial (fun _ => hw) not_false
  | begin f x rest hp hw =>
    exact h.keepWaiters hp trivial nofun rfl (fun _ => rfl) ⟨x, rest, hw, rfl⟩ h.idle not_false
  | popFront f it hp =>
    have hfits := h.fits f
    rw [hp] at hfits
    obtain ⟨x, rest, hw, rfl⟩ := hfits
    have hzero : s.concurrency = 0 := by
      by_contra hc
      have hnil := h.idle (UInt64.pos_iff_ne_zero.2 hc)
      rw [hw] at hnil
      cases hnil
    have haddrs := h.addrs
    rw [hw, map_cons, nodup_cons] at haddrs
    have htail : s.waiters.tail = rest := by rw [hw]; rfl
    refine h.move hp trivial nofun rfl (fun _ => rfl) ⟨hzero, ?_⟩ ?_ ?_
      (fun hg => absurd hg not_false) (.inr ⟨_, rfl⟩) h.scheduled
    · change ∀ y ∈ s.waiters.tail, y.addr ≠ x.addr
      rw [htail]
      exact fun y hy hyx => haddrs.1 (hyx ▸ mem_map_of_mem hy)
    · change (s.waiters.tail.map Node.addr).Nodup
      rw [htail]
      exact haddrs.2
    · exact fun hc => absurd hzero (UInt64.pos_iff_ne_zero.1 hc)
  | schedule f it x hp hx =>
    have hfits := h.fits f
    rw [hp] at hfits
    rw [deref_eq_none hfits.2] at hx
    cases hx
  | crash f it hp hx => exact ⟨h.holder, h.fits, h.addrs, h.idle, h.gone, h.scheduled⟩
  | unlock f hp =>
    exact h.keepWaiters hp trivial nofun rfl (fun hin => absurd hin not_false) trivial h.idle
      not_false
  | unlockWait f hp =>
    have hin : (s.phase f).InSection := by
      rw [hp]
      trivial
    have hq := h.queued hin (by rw [hp]; nofun) (by rw [hp]; trivial)
    exact h.move hp trivial nofun rfl (fun hin => absurd hin not_false) trivial h.addrs h.idle
      (fun _ => hq) (.inl fun _ hg => hg) h.scheduled
  | yieldToHold f hp =>
    exact h.moveOutside rfl rfl rfl rfl (by rw [hp]; exact not_false) (fun _ => trivial)
      (fun g _ hg => h.holder g hg) (fun hin => absurd hin not_false)
      (fun _ => by rw [hp]; trivial)
  | resume f sc l₁ l₂ hp hl =>
    rw [h.scheduled] at hl
    cases l₁ <;> cases hl

end

section

variable [DecidableEq F] {n : UInt64} {s : State S F}

omit [DecidableEq F] in
theorem Initial.inv (h : Initial n s) : Inv s := by
  refine ⟨fun f hf => ?_, fun f => ?_, ?_, fun _ => h.waiters, fun f hf => ?_, h.scheduled⟩
  · rw [h.phase f] at hf
    exact absurd hf not_false
  · rw [h.phase f]
    trivial
  · rw [h.waiters]
    exact nodup_nil
  · rw [h.phase f] at hf
    exact absurd hf not_false

theorem inv_of_reachable {C : State S F → Label F → Prop} (h : Reachable (Initial n) Step C s) :
    Inv s :=
  h.invariant (fun _ h => h.inv) fun _ _ _ hs _ hstep => hstep.2.inv hs

omit [DecidableEq F] in
theorem Inv.not_waiting (h : Inv s) (hc : 0 < s.concurrency) (f : F) : ¬ s.Waiting f := by
  rintro ⟨hphase, -⟩
  have hgone : (s.phase f).Gone := by
    rcases hphase with hp | hp | hp <;> rw [hp] <;> trivial
  rcases h.gone f hgone with ⟨x, hx, -⟩ | ⟨g, it, hg⟩
  · rw [h.idle hc] at hx
    cases hx
  · have hfits := h.fits g
    rw [hg] at hfits
    exact absurd hfits.1 (UInt64.pos_iff_ne_zero.1 hc)

structure Calm (n : UInt64) (s : State S F) : Prop where
  crashed : s.crashed = false
  count : s.acquired + s.concurrency.toNat = n.toNat + s.notified
  quiet (f : F) (it : ℕ) : s.phase f ≠ .next it ∧ s.phase f ≠ .popped it

theorem Calm.set {t : State S F} {f : F} {p : Phase} (h : Calm n s) (hphase : t.phase = s.phase)
    (hcrashed : t.crashed = s.crashed) (hp : ∀ it, p ≠ .next it ∧ p ≠ .popped it)
    (hcount : t.acquired + t.concurrency.toNat = n.toNat + t.notified) :
    Calm n (t.setPhase f p) :=
  ⟨hcrashed.trans h.crashed, hcount,
    forall_setPhase (P := fun _ q => ∀ it, q ≠ .next it ∧ q ≠ .popped it) hphase hp
      fun g _ => h.quiet g⟩

theorem Move.calm {l : Label F} {s' : State S F} (hmove : Move s l s') (hc : NotifyFits s l)
    (h : Calm n s) : Calm n s' := by
  have hcount := h.count
  cases hmove with
  | begin f x rest hp hw =>
    rw [NotifyFits, hw] at hc
    cases hc.1
  | popFront f it hp => exact absurd hp (h.quiet f it).1
  | schedule f it x hp hx | crash f it hp hx => exact absurd hp (h.quiet f it).2
  | tryTake f hp hpos | pass f hp hpos =>
    refine h.set rfl rfl (fun _ => ⟨nofun, nofun⟩) ?_
    have hpos := UInt64.lt_iff_toNat_lt.1 hpos
    have hsub : (s.concurrency - 1).toNat = s.concurrency.toNat - 1 :=
      UInt64.toNat_sub_of_le _ _ (UInt64.le_iff_toNat_le.2 hpos)
    change s.acquired + 1 + (s.concurrency - 1).toNat = n.toNat + s.notified
    rw [hsub]
    simp only [UInt64.toNat_zero] at hpos
    omega
  | release f hp hw =>
    refine h.set rfl rfl (fun _ => ⟨nofun, nofun⟩) ?_
    have hadd : (s.concurrency + 1).toNat = s.concurrency.toNat + 1 :=
      (UInt64.toNat_add ..).trans (Nat.mod_eq_of_lt hc.2)
    change s.acquired + (s.concurrency + 1).toNat = n.toNat + (s.notified + 1)
    omega
  | lock | tryFail | push | unlock | unlockWait | yieldToHold | resume =>
    exact h.set rfl rfl (fun _ => ⟨nofun, nofun⟩) hcount

omit [DecidableEq F] in
theorem Initial.calm (h : Initial n s) : Calm n s := by
  refine ⟨h.crashed, ?_, fun f it => by simp [h.phase f]⟩
  rw [h.acquired, h.concurrency, h.notified, Nat.zero_add, Nat.add_zero]

/-- Permits are conserved, nobody waits beside a free one and there is no undefined behaviour as
long as every `notify` has room to count its permit and finds no waiter. A `notify` that finds
one reads the node that it has freed, so that no fiber is ever scheduled. -/
theorem fiberSemaphore_conserves (n : UInt64) :
    (∀ s : State S F, Reachable (Initial n) Step NotifyFits s →
      s.crashed = false ∧ (0 < s.concurrency → ∀ f, ¬ s.Waiting f) ∧
        s.acquired + s.concurrency.toNat = n.toNat + s.notified) ∧
    ∀ s : State S F, Reachable (Initial n) Step (fun _ _ => True) s →
      s.scheduled = [] ∧ ∀ f it, s.phase f = .popped it → deref s.waiters it = none := by
  constructor
  · intro s h
    have hinv := inv_of_reachable h
    have hcalm : Calm n s := h.invariant (fun _ h => h.calm) fun _ _ _ hs hc hstep =>
      hstep.2.calm hc hs
    exact ⟨hcalm.crashed, hinv.not_waiting, hcalm.count⟩
  · intro s h
    have hinv := inv_of_reachable h
    refine ⟨hinv.scheduled, fun f it hf => ?_⟩
    have hfits := hinv.fits f
    rw [hf] at hfits
    exact deref_eq_none hfits.2

end

def State.new (n : UInt64) : State S F := ⟨none, n, [], fun _ => .outside, [], false, 0, 0⟩

theorem initial_new (n : UInt64) : Initial n (State.new n : State S F) :=
  ⟨rfl, rfl, rfl, fun _ => rfl, rfl, rfl, rfl, rfl⟩

/-- Initial value 0; one fiber waits and the other one notifies: the first is taken out of the
list and never scheduled. -/
theorem fiberSemaphore_loses_waiter : ∃ s : State ℕ Bool,
    Reachable (Initial 0) Step (fun _ _ => True) s ∧ s.Waiting false ∧ s.waiters = [] ∧
      s.scheduled = [] ∧ s.crashed = true := by
  have h : Reachable (Initial 0) Step (fun _ _ => True) (State.new 0 : State ℕ Bool) :=
    .start (initial_new 0)
  have h := h.andThen ⟨rfl, .lock false .wait rfl rfl⟩
  have h := h.andThen ⟨rfl, .push false 7 100 rfl (by decide) nofun⟩
  have h := h.andThen ⟨rfl, .unlockWait false rfl⟩
  have h := h.andThen ⟨rfl, .yieldToHold false rfl⟩
  have h := h.andThen ⟨rfl, .lock true .notify rfl rfl⟩
  have h := h.andThen ⟨rfl, .begin true _ _ rfl rfl⟩
  have h := h.andThen ⟨rfl, .popFront true 100 rfl⟩
  have h := h.andThen ⟨rfl, .crash true 100 rfl rfl⟩
  exact ⟨_, h, ⟨.inr (.inr rfl), nofun⟩, rfl, rfl, rfl⟩

/-- Initial value 1: one permit is taken, and given back while nobody waits. -/
theorem fiberSemaphore_conserves_run : ∃ s : State ℕ Bool,
    Reachable (Initial 1) Step NotifyFits s ∧ s.acquired = 1 ∧ s.notified = 1 ∧
      s.concurrency = 1 ∧ s.crashed = false ∧ ∀ f, ¬ s.Waiting f := by
  have h : Reachable (Initial 1) Step NotifyFits (State.new 1 : State ℕ Bool) :=
    .start (initial_new 1)
  have h := h.andThen ⟨rfl, .lock false .wait rfl rfl⟩
  have h := h.andThen ⟨rfl, .pass false rfl (by decide)⟩
  have h := h.andThen ⟨rfl, .unlock false rfl⟩
  have h := h.andThen ⟨rfl, .lock true .notify rfl rfl⟩
  have h := h.andThen ⟨rfl, .release true rfl rfl⟩ ⟨rfl, by decide⟩
  have hprop := (fiberSemaphore_conserves 1).1 _ h
  exact ⟨_, h, rfl, rfl, rfl, hprop.1, hprop.2.1 (by decide)⟩

end JKYi.FiberSemaphore
