import JKYi.Foundation.Interleaving

/-!
# Scoped locks on a shared mutex

`ScopedLockImpl<Mutex>` keeps in `m_locked` whether it has locked the mutex.
`lock()` and `unlock()` test it; the destructor does not and unlocks in any case.
The mutex is a flag without an owner, so what a stray `unlock` frees is the lock
of another thread.
-/

namespace JKYi.ScopedLock

open Function

/-- `m_mutex.lock()`, `m_mutex.unlock()` and the assignment of `m_locked`. -/
inductive Action where
  | lock
  | unlock
  | setLocked (b : Bool)
  deriving DecidableEq

/-- What the member functions of `ScopedLockImpl` execute. -/
def construct : List Action := [.lock, .setLocked true]

def destroy : List Action := [.unlock, .setLocked false]

def lock (locked : Bool) : List Action := if !locked then [.lock, .setLocked true] else []

def unlock (locked : Bool) : List Action := if locked then [.unlock, .setLocked false] else []

/-- A thread: whether its guard exists, `m_locked`, and what is left of the function that it
executes. `holds` says that it has acquired the mutex and not released it since. -/
structure Thread where
  guard : Bool
  locked : Bool
  todo : List Action
  holds : Bool
  deriving DecidableEq

/-- The flag of the mutex, and whether it was ever unlocked by a thread that did not hold it. -/
structure State (W : Type) where
  flag : Bool
  threads : W → Thread
  stray : Bool

variable {W : Type} [DecidableEq W]

def State.set (s : State W) (w : W) (x : Thread) : State W :=
  { s with threads := update s.threads w x }

inductive Label (W : Type) where
  | destroy (w : W)
  | unlock (w : W)
  | other

/-- One step of a thread: a call of a member function, or the next access of the one that it
executes. `pthread_mutex_lock` waits until the mutex is free. -/
inductive Step (s : State W) : Label W → State W → Prop
  | construct (w : W) (x : Thread) (hx : s.threads w = x) (hg : x.guard = false)
      (ht : x.todo = []) : Step s .other (s.set w { x with guard := true, todo := construct })
  | callLock (w : W) (x : Thread) (hx : s.threads w = x) (hg : x.guard = true) (ht : x.todo = []) :
      Step s .other (s.set w { x with todo := lock x.locked })
  | callUnlock (w : W) (x : Thread) (hx : s.threads w = x) (hg : x.guard = true)
      (ht : x.todo = []) : Step s .other (s.set w { x with todo := unlock x.locked })
  | destroy (w : W) (x : Thread) (hx : s.threads w = x) (hg : x.guard = true) (ht : x.todo = []) :
      Step s (.destroy w) (s.set w { x with guard := false, todo := destroy })
  | lock (w : W) (x : Thread) (rest : List Action) (hx : s.threads w = x)
      (ht : x.todo = .lock :: rest) (hfree : s.flag = false) :
      Step s .other ({ s with flag := true }.set w { x with todo := rest, holds := true })
  | unlock (w : W) (x : Thread) (rest : List Action) (hx : s.threads w = x)
      (ht : x.todo = .unlock :: rest) :
      Step s (.unlock w) ({ s with flag := false, stray := s.stray || !x.holds }.set w
        { x with todo := rest, holds := false })
  | setLocked (w : W) (x : Thread) (b : Bool) (rest : List Action) (hx : s.threads w = x)
      (ht : x.todo = .setLocked b :: rest) :
      Step s .other (s.set w { x with locked := b, todo := rest })

/-- No thread has a guard, and the mutex is free. -/
structure Initial (s : State W) : Prop where
  flag : s.flag = false
  stray : s.stray = false
  threads : ∀ w, (s.threads w).guard = false ∧ (s.threads w).todo = [] ∧
    (s.threads w).holds = false

def LockedAtEnd (s : State W) : Label W → Prop
  | .destroy w => (s.threads w).locked = true
  | .unlock _ | .other => True

/-- Between two functions a guard is locked exactly where its thread holds the mutex. -/
inductive Thread.Fits : Thread → Prop
  | between (guard locked : Bool) : Fits ⟨guard, locked, [], guard && locked⟩
  | locking (locked : Bool) : Fits ⟨true, locked, [.lock, .setLocked true], false⟩
  | acquired (locked : Bool) : Fits ⟨true, locked, [.setLocked true], true⟩
  | unlocking (guard locked : Bool) : Fits ⟨guard, locked, [.unlock, .setLocked false], true⟩
  | released (guard locked : Bool) : Fits ⟨guard, locked, [.setLocked false], false⟩

structure Inv (s : State W) : Prop where
  fits (w : W) : (s.threads w).Fits
  sole (v w : W) : (s.threads v).holds = true → (s.threads w).holds = true → v = w
  flag : s.flag = true ↔ ∃ w, (s.threads w).holds = true
  stray : s.stray = false

section

variable {s : State W} {w : W} {x : Thread}

omit [DecidableEq W] in
theorem Inv.fits_of (h : Inv s) (hx : s.threads w = x) : x.Fits := hx ▸ h.fits w

theorem Inv.set {t : State W} (h : Inv s) (ht : t.threads = s.threads) (hfits : x.Fits)
    (hsole : x.holds = true → ∀ v, v ≠ w → (s.threads v).holds = false)
    (hflag : t.flag = true ↔ x.holds = true ∨ ∃ v, v ≠ w ∧ (s.threads v).holds = true)
    (hstray : t.stray = false) : Inv (t.set w x) := by
  have hself : (t.set w x).threads w = x := update_self ..
  have hother : ∀ v, v ≠ w → (t.set w x).threads v = s.threads v := by
    intro v hv
    rw [← ht]
    exact update_of_ne hv ..
  refine ⟨fun v => ?_, fun u v hu hv => ?_, ?_, hstray⟩
  · by_cases hv : v = w
    · rw [hv, hself]
      exact hfits
    · rw [hother v hv]
      exact h.fits v
  · by_cases huw : u = w <;> by_cases hvw : v = w
    · rw [huw, hvw]
    · rw [huw, hself] at hu
      rw [hother v hvw, hsole hu v hvw] at hv
      cases hv
    · rw [hvw, hself] at hv
      rw [hother u huw, hsole hv u huw] at hu
      cases hu
    · rw [hother u huw] at hu
      rw [hother v hvw] at hv
      exact h.sole u v hu hv
  · refine hflag.trans ⟨?_, ?_⟩
    · rintro (hx | ⟨v, hv, hholds⟩)
      · exact ⟨w, by rw [hself]; exact hx⟩
      · exact ⟨v, by rw [hother v hv]; exact hholds⟩
    · rintro ⟨v, hholds⟩
      by_cases hv : v = w
      · rw [hv, hself] at hholds
        exact .inl hholds
      · rw [hother v hv] at hholds
        exact .inr ⟨v, hv, hholds⟩

theorem Inv.keep (h : Inv s) (hfits : x.Fits) (hholds : x.holds = (s.threads w).holds) :
    Inv (s.set w x) := by
  refine h.set rfl hfits (fun hx v hv => ?_) ?_ h.stray
  · rw [hholds] at hx
    exact Bool.eq_false_iff.2 fun hvh => hv (h.sole v w hvh hx)
  · rw [h.flag, hholds]
    constructor
    · rintro ⟨v, hv⟩
      by_cases hvw : v = w
      · exact .inl (hvw ▸ hv)
      · exact .inr ⟨v, hvw, hv⟩
    · rintro (hw | ⟨v, -, hv⟩)
      · exact ⟨w, hw⟩
      · exact ⟨v, hv⟩

theorem Inv.acquire (h : Inv s) (hfits : x.Fits) (hfree : s.flag = false) (hx : x.holds = true) :
    Inv ({ s with flag := true }.set w x) := by
  have hnone : ∀ v, (s.threads v).holds = false := by
    intro v
    refine Bool.eq_false_iff.2 fun hv => ?_
    rw [h.flag.2 ⟨v, hv⟩] at hfree
    cases hfree
  refine Inv.set h rfl hfits (fun _ v _ => hnone v) (iff_of_true rfl (.inl hx)) h.stray

theorem Inv.release {b : Bool} (h : Inv s) (hfits : x.Fits) (hw : (s.threads w).holds = true)
    (hx : x.holds = false) (hb : b = false) :
    Inv ({ s with flag := false, stray := b }.set w x) := by
  refine Inv.set h rfl hfits (fun hx' => ?_) (iff_of_false Bool.false_ne_true ?_) hb
  · rw [hx] at hx'
    cases hx'
  · rintro (hx' | ⟨v, hv, hholds⟩)
    · rw [hx] at hx'
      cases hx'
    · exact hv (h.sole v w hholds hw)

theorem Step.inv {s' : State W} {l : Label W} (hstep : Step s l s') (hc : LockedAtEnd s l)
    (h : Inv s) : Inv s' := by
  cases hstep with
  | construct w x hx hg ht =>
    have hfits := h.fits_of hx
    cases hfits <;> cases ht
    cases hg
    exact h.keep (.locking _) (by rw [hx])
  | callLock w x hx hg ht =>
    have hfits := h.fits_of hx
    cases hfits <;> cases ht
    cases hg
    rename_i locked
    cases locked
    · exact h.keep (.locking false) (by rw [hx])
    · exact h.keep (.between true true) (by rw [hx])
  | callUnlock w x hx hg ht =>
    have hfits := h.fits_of hx
    cases hfits <;> cases ht
    cases hg
    rename_i locked
    cases locked
    · exact h.keep (.between true false) (by rw [hx])
    · exact h.keep (.unlocking true true) (by rw [hx])
  | destroy w x hx hg ht =>
    have hfits := h.fits_of hx
    rw [LockedAtEnd, hx] at hc
    cases hfits <;> cases ht
    cases hg
    cases hc
    exact h.keep (.unlocking false true) (by rw [hx])
  | lock w x rest hx ht hfree =>
    have hfits := h.fits_of hx
    cases hfits <;> cases ht
    exact h.acquire (.acquired _) hfree rfl
  | unlock w x rest hx ht =>
    have hfits := h.fits_of hx
    cases hfits <;> cases ht
    exact h.release (.released _ _) (by rw [hx]) rfl (by rw [h.stray]; rfl)
  | setLocked w x b rest hx ht =>
    have hfits := h.fits_of hx
    cases hfits <;> cases ht
    · exact h.keep (.between true true) (by rw [hx])
    · rename_i guard locked
      cases guard <;> exact h.keep (.between _ false) (by rw [hx])

end

section

variable {s : State W}

omit [DecidableEq W] in
theorem Initial.inv (h : Initial s) : Inv s := by
  have hnone : ∀ w, (s.threads w).holds ≠ true := fun w => by simp [(h.threads w).2.2]
  refine ⟨fun w => ?_, fun v _ hv => absurd hv (hnone v), ?_, h.stray⟩
  · obtain ⟨hg, ht, hh⟩ := h.threads w
    cases hx : s.threads w with
    | mk guard locked todo holds =>
      rw [hx] at hg ht hh
      cases hg
      cases ht
      cases hh
      exact .between false locked
  · rw [h.flag]
    exact iff_of_false Bool.false_ne_true fun ⟨w, hw⟩ => hnone w hw

/-- Where guards are locked when they are destroyed, every `unlock` is one of the thread that
holds the mutex and one thread at most holds it; the destructor of a guard that is not locked
makes a stray `unlock`. -/
theorem scopedLock_exclusive (h : Reachable Initial Step LockedAtEnd s) :
    (s.stray = false ∧ ∀ v w, (s.threads v).holds = true → (s.threads w).holds = true → v = w) ∧
    ∀ w s₁ s₂, Step s (.destroy w) s₁ → Step s₁ (.unlock w) s₂ →
      (s₂.stray = false ↔ (s.threads w).locked = true) := by
  have hinv : Inv s := h.invariant (fun s h => h.inv) fun s l s' hs hc hstep => hstep.inv hc hs
  refine ⟨⟨hinv.stray, hinv.sole⟩, fun w s₁ s₂ hdestroy hunlock => ?_⟩
  cases hdestroy with
  | destroy _ x hx hg ht =>
    cases hunlock with
    | unlock _ y rest hy _ =>
      have hfits := hinv.fits_of hx
      have hyx := hy.symm.trans (update_self ..)
      change (s.stray || !y.holds) = false ↔ _
      rw [hinv.stray, hyx, hx]
      cases hfits <;> cases ht
      cases hg
      simp

end

/-- Three threads. The guard of the first is unlocked early, as in `Scheduler::start`, and its
destructor frees the mutex that the second one holds, which the third one then acquires. -/
theorem scopedLock_stray : ∃ s : State (Fin 3),
    Reachable Initial Step (fun _ _ => True) s ∧ s.stray = true ∧
      (s.threads 1).holds = true ∧ (s.threads 2).holds = true := by
  have h : Reachable Initial Step (fun _ _ => True)
      (⟨false, fun _ => ⟨false, false, [], false⟩, false⟩ : State (Fin 3)) :=
    .start ⟨rfl, rfl, fun _ => ⟨rfl, rfl, rfl⟩⟩
  have h := h.andThen (.construct 0 _ rfl rfl rfl)
  have h := h.andThen (.lock 0 _ _ rfl rfl rfl)
  have h := h.andThen (.setLocked 0 _ _ _ rfl rfl)
  have h := h.andThen (.callUnlock 0 _ rfl rfl rfl)
  have h := h.andThen (.unlock 0 _ _ rfl rfl)
  have h := h.andThen (.setLocked 0 _ _ _ rfl rfl)
  have h := h.andThen (.construct 1 _ rfl rfl rfl)
  have h := h.andThen (.lock 1 _ _ rfl rfl rfl)
  have h := h.andThen (.destroy 0 _ rfl rfl rfl)
  have h := h.andThen (.unlock 0 _ _ rfl rfl)
  have h := h.andThen (.construct 2 _ rfl rfl rfl)
  have h := h.andThen (.lock 2 _ _ rfl rfl rfl)
  exact ⟨_, h, rfl, rfl, rfl⟩

/-- Two threads, one of which waits for the other. -/
theorem scopedLock_exclusive_run : ∃ s : State Bool, Reachable Initial Step LockedAtEnd s ∧
    (s.threads false).holds = true ∧ (s.threads true).todo = construct ∧ s.stray = false ∧
      ∀ v w, (s.threads v).holds = true → (s.threads w).holds = true → v = w := by
  have h : Reachable Initial Step LockedAtEnd
      (⟨false, fun _ => ⟨false, false, [], false⟩, false⟩ : State Bool) :=
    .start ⟨rfl, rfl, fun _ => ⟨rfl, rfl, rfl⟩⟩
  have h := h.andThen (.construct false _ rfl rfl rfl)
  have h := h.andThen (.construct true _ rfl rfl rfl)
  have h := h.andThen (.lock false _ _ rfl rfl rfl)
  have h := h.andThen (.setLocked false _ _ _ rfl rfl)
  exact ⟨_, h, rfl, rfl, (scopedLock_exclusive h).1⟩

end JKYi.ScopedLock
