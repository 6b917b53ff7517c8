import Mathlib.Tactic
import Mathlib.Algebra.BigOperators.Group.Finset.Basic

/-!
# Runs of interleaved threads

A system of threads is a labelled transition system; a run is any interleaving
of its steps. Conditions on the environment are conditions on single steps. What
a step of one thread does to a count over all threads is what it does to its own
contribution.
-/

namespace JKYi

open Finset Function

section

variable {σ l : Type*} {init : σ → Prop} {step : σ → l → σ → Prop} {C : σ → l → Prop}

/-- The states of the runs all of whose steps satisfy `C`. -/
inductive Reachable (init : σ → Prop) (step : σ → l → σ → Prop) (C : σ → l → Prop) : σ → Prop
  | start {s : σ} : init s → Reachable init step C s
  | next {s s' : σ} {a : l} : Reachable init step C s → C s a → step s a s' →
    Reachable init step C s'

theorem Reachable.andThen {s s' : σ} {a : l} (h : Reachable init step C s) (hs : step s a s')
    (hc : C s a := by trivial) : Reachable init step C s' :=
  h.next hc hs

theorem Reachable.mono {C' : σ → l → Prop} (hC : ∀ s a, C s a → C' s a) {s : σ}
    (h : Reachable init step C s) : Reachable init step C' s := by
  induction h with
  | start h => exact .start h
  | next _ hc hs ih => exact ih.next (hC _ _ hc) hs

theorem Reachable.invariant_under {P Q : σ → Prop}
    (hQ : ∀ s, Reachable init step C s → Q s) (hinit : ∀ s, init s → P s)
    (hstep : ∀ s a s', Q s → P s → C s a → step s a s' → P s') {s : σ}
    (h : Reachable init step C s) : P s := by
  induction h with
  | start h => exact hinit _ h
  | next h hc hs ih => exact hstep _ _ _ (hQ _ h) ih hc hs

/-- What holds at the start and is kept by every step holds throughout the run. -/
theorem Reachable.invariant {P : σ → Prop} (hinit : ∀ s, init s → P s)
    (hstep : ∀ s a s', P s → C s a → step s a s' → P s') {s : σ}
    (h : Reachable init step C s) : P s :=
  h.invariant_under (Q := fun _ => True) (fun _ _ => trivial) hinit fun s a s' _ => hstep s a s'

/-- The runs, with the steps they take and the states before these steps, the last one first. -/
inductive Trace (init : σ → Prop) (step : σ → l → σ → Prop) : List (σ × l) → σ → Prop
  | start {s : σ} : init s → Trace init step [] s
  | next {tr : List (σ × l)} {s s' : σ} {a : l} : Trace init step tr s → step s a s' →
    Trace init step ((s, a) :: tr) s'

theorem Reachable.trace {s : σ} (h : Reachable init step C s) :
    ∃ tr, Trace init step tr s ∧ ∀ p ∈ tr, C p.1 p.2 := by
  induction h with
  | start h => exact ⟨[], .start h, nofun⟩
  | next _ hc hs ih =>
    obtain ⟨tr, htr, hall⟩ := ih
    exact ⟨_, htr.next hs, List.forall_mem_cons.mpr ⟨hc, hall⟩⟩

variable {P : σ → Prop} {F : σ → l → Prop} {tr : List (σ × l)} {s : σ}

theorem Trace.invariant (h : Trace init step tr s) (hinit : ∀ s, init s → P s)
    (hstep : ∀ s a s', P s → step s a s' → P s') : P s := by
  induction h with
  | start h => exact hinit _ h
  | next _ hs ih => exact hstep _ _ _ ih hs

/-- What each step keeps exactly if it is fine, and no step restores, holds at the end of the runs
of fine steps. -/
theorem Trace.good_iff (h : Trace init step tr s) (hinit : ∀ s, init s → P s)
    (hstep : ∀ tr s a s', Trace init step tr s → step s a s' → (P s' ↔ P s ∧ F s a)) :
    P s ↔ ∀ p ∈ tr, F p.1 p.2 := by
  induction h with
  | start h => simp [hinit _ h]
  | next h hs ih =>
    rw [hstep _ _ _ _ h hs, ih, List.forall_mem_cons]
    exact And.comm

/-- The same for what holds in all states of a run. -/
theorem Trace.all_good_iff (h : Trace init step tr s) (hinit : ∀ s, init s → P s)
    (hstep : ∀ tr s a s', Trace init step tr s → P s → step s a s' → (P s' ↔ F s a)) :
    (∀ t ∈ s :: tr.map Prod.fst, P t) ↔ ∀ p ∈ tr, F p.1 p.2 := by
  induction h with
  | start h => simp [hinit _ h]
  | next h hs ih =>
    rw [List.map_cons, List.forall_mem_cons, ih, List.forall_mem_cons]
    exact and_congr_left fun hfine => hstep _ _ _ _ h (ih.mpr hfine _ List.mem_cons_self) hs

end

variable {W α : Type*} [Fintype W]

/-- One entry of a family changes: a sum over the family changes by what the old and the new
entry contribute. -/
theorem sum_update_entry {M : Type*} [AddCommMonoid M] [DecidableEq W] (m : W → α → M) (g : W → α)
    (w : W) (x : α) :
    ∑ v, m v (update g w x v) + m w (g w) = ∑ v, m v (g v) + m w x := by
  rw [← add_sum_erase _ _ (mem_univ w), ← add_sum_erase _ (fun v => m v (g v)) (mem_univ w)]
  have hrest : ∑ v ∈ Finset.univ.erase w, m v (update g w x v) =
      ∑ v ∈ Finset.univ.erase w, m v (g v) := by
    apply sum_congr rfl
    intro v hv
    rw [update_of_ne (ne_of_mem_erase hv)]
  rw [hrest, update_self]
  abel

def threadCount (p : α → Prop) [DecidablePred p] (g : W → α) : ℕ :=
  ∑ w, if p (g w) then 1 else 0

variable {p : α → Prop} [DecidablePred p] {g : W → α} {w : W} {x : α}

theorem threadCount_update [DecidableEq W] (p : α → Prop) [DecidablePred p] (g : W → α) (w : W)
    (x : α) :
    threadCount p (update g w x) + (if p (g w) then 1 else 0) =
      threadCount p g + (if p x then 1 else 0) :=
  sum_update_entry (fun _ y => if p y then 1 else 0) g w x

def Balanced [DecidableEq W] (p : α → Prop) [DecidablePred p] (x x' : ℤ) (g g' : W → α) : Prop :=
  (g' = g ∧ x' = x) ∨ ∃ w q, g' = update g w q ∧
    x' + (if p (g w) then 1 else 0) = x + (if p q then 1 else 0)

theorem Balanced.keep [DecidableEq W] {x x' : ℤ} {g' : W → α} (h : Balanced p x x' g g')
    (hx : x = threadCount p g) : x' = threadCount p g' := by
  rcases h with ⟨rfl, rfl⟩ | ⟨w, q, rfl, hq⟩
  · exact hx
  · have hcount := threadCount_update p g w q
    split_ifs at hcount hq <;> omega

theorem threadCount_eq_zero_iff : threadCount p g = 0 ↔ ∀ w, ¬ p (g w) := by
  simp [threadCount]

theorem threadCount_of_sole (hsole : ∀ v, v ≠ w → ¬ p (g v)) :
    threadCount p g = if p (g w) then 1 else 0 := by
  rw [threadCount, sum_eq_single w]
  · intro v _ hv
    rw [if_neg (hsole v hv)]
  · intro h
    exact absurd (mem_univ w) h

end JKYi
