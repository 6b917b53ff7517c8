import Mathlib.Tactic

/-!
# Stateful computations that return, throw or crash

A computation transforms a state `σ`. It returns a value, throws an exception
that a caller may catch (the state at the throw is kept), or has undefined
behaviour, after which nothing is known. The three ends are kept apart because
`catch (...)` recovers from the second and never from the third.
-/

namespace JKYi

/-- How a run from a given state ends. -/
inductive Outcome (ε σ α : Type) where
  | ok (a : α) (s : σ)
  | raised (e : ε) (s : σ)
  | crash

def Outcome.value {ε σ α : Type} : Outcome ε σ α → Option α
  | .ok a _ => some a
  | .raised _ _ => none
  | .crash => none

theorem Outcome.value_eq_some {ε σ α : Type} {o : Outcome ε σ α} {a : α} :
    o.value = some a ↔ ∃ s, o = .ok a s := by
  cases o <;> simp [Outcome.value]

instance {ε σ α : Type} [DecidableEq α] {o : Outcome ε σ α} {a : α} :
    Decidable (∃ s, o = .ok a s) :=
  decidable_of_iff _ Outcome.value_eq_some

/-- A run from a fixed state can be evaluated. -/
instance {ε σ α : Type} [DecidableEq α] {o : Outcome ε σ α} {a : α} {P : σ → Prop}
    [DecidablePred P] : Decidable (∃ s, o = .ok a s ∧ P s) :=
  match o with
  | .ok b s => decidable_of_iff (b = a ∧ P s) (by simp [and_comm])
  | .raised _ _ => isFalse nofun
  | .crash => isFalse nofun

/-- A computation over the state `σ` with exceptions `ε`. -/
def Run (ε σ α : Type) := σ → Outcome ε σ α

namespace Run

variable {ε σ α β : Type}

instance : Monad (Run ε σ) where
  pure a := fun s => .ok a s
  bind x f := fun s =>
    match x s with
    | .ok a s' => f a s'
    | .raised e s' => .raised e s'
    | .crash => .crash

def crash : Run ε σ α := fun _ => .crash

def throw (e : ε) : Run ε σ α := fun s => .raised e s

def get : Run ε σ σ := fun s => .ok s s

def set (s : σ) : Run ε σ Unit := fun _ => .ok () s

def tryCatch (x h : Run ε σ α) : Run ε σ α := fun s =>
  match x s with
  | .raised _ s' => h s'
  | out => out

def onSnd {τ : Type} (x : Run ε σ α) : Run ε (τ × σ) α := fun (t, s) =>
  match x s with
  | .ok a s' => .ok a (t, s')
  | .raised e s' => .raised e (t, s')
  | .crash => .crash

def withLocal {τ : Type} (s : σ) (x : Run ε (τ × σ) α) : Run ε τ α := fun t =>
  match x (t, s) with
  | .ok a (t', _) => .ok a t'
  | .raised e (t', _) => .raised e t'
  | .crash => .crash

def withObject {τ : Type} (t : τ) (x : Run ε (τ × σ) α) : Run ε σ (α × τ) := fun s =>
  match x (t, s) with
  | .ok a (t', s') => .ok (a, t') s'
  | .raised e (_, s') => .raised e s'
  | .crash => .crash

def assign {τ : Type} (f : τ → τ) : Run ε (τ × σ) Unit := fun (t, s) => .ok () (f t, s)

@[simp] theorem pure_run (a : α) (s : σ) : (pure a : Run ε σ α) s = .ok a s := rfl

@[simp] theorem throw_run (e : ε) (s : σ) : (throw e : Run ε σ α) s = .raised e s := rfl

@[simp] theorem crash_run (s : σ) : (crash : Run ε σ α) s = .crash := rfl

@[simp] theorem get_run (s : σ) : (get : Run ε σ σ) s = .ok s s := rfl

@[simp] theorem set_run (s t : σ) : (set t : Run ε σ Unit) s = .ok () t := rfl

variable {τ : Type} {x : Run ε σ α} {f : α → Run ε σ β} {s s' : σ} {t t' : τ} {a : α} {e : ε}

theorem bind_ok (h : x s = .ok a s') : (x >>= f) s = f a s' := by
  simp only [bind, h]

theorem bind_raised (h : x s = .raised e s') : (x >>= f) s = .raised e s' := by
  simp only [bind, h]

theorem bind_crash (h : x s = .crash) : (x >>= f) s = .crash := by
  simp only [bind, h]

@[simp] theorem pure_bind_run (a : α) (f : α → Run ε σ β) (s : σ) :
    ((pure a : Run ε σ α) >>= f) s = f a s := rfl

theorem bind_congr {x y : Run ε σ α} (h : x s = y s) (f : α → Run ε σ β) :
    (x >>= f) s = (y >>= f) s := by
  simp only [bind, h]

theorem bind_assoc {γ : Type} (x : Run ε σ α) (f : α → Run ε σ β) (g : β → Run ε σ γ) :
    (x >>= f) >>= g = x >>= fun a => f a >>= g := by
  funext s
  cases h : x s <;> simp only [bind, h]

theorem bind_eq_ok_iff {b : β} :
    (x >>= f) s = .ok b s' ↔ ∃ a t, x s = .ok a t ∧ f a t = .ok b s' := by
  cases h : x s with
  | ok a t => rw [bind_ok h]; simp
  | raised e t => rw [bind_raised h]; simp
  | crash => rw [bind_crash h]; simp

theorem map_ok (f : α → β) (h : x s = .ok a s') : (f <$> x) s = .ok (f a) s' :=
  bind_ok h

theorem bind_pure_ok (f : α → β) (h : x s = .ok a s') :
    (x >>= fun a => pure (f a)) s = .ok (f a) s' :=
  bind_ok h

theorem discard_ok (h : x s = .ok a s') : discard x s = .ok () s' :=
  bind_ok h

theorem discard_eq_ok_iff {u : Unit} : discard x s = .ok u s' ↔ ∃ a, x s = .ok a s' := by
  constructor
  · intro h
    obtain ⟨a, t, ha, ht⟩ := bind_eq_ok_iff.mp h
    cases ht
    exact ⟨a, ha⟩
  · rintro ⟨a, ha⟩
    exact discard_ok ha

theorem onSnd_ok (t : τ) (h : x s = .ok a s') : onSnd x (t, s) = .ok a (t, s') := by
  simp [onSnd, h]

theorem onSnd_raised (t : τ) (h : x s = .raised e s') : onSnd x (t, s) = .raised e (t, s') := by
  simp [onSnd, h]

theorem onSnd_crash (t : τ) (h : x s = .crash) : onSnd x (t, s) = .crash := by
  simp [onSnd, h]

theorem onSnd_eq_ok_iff : onSnd x (t, s) = .ok a (t', s') ↔ t' = t ∧ x s = .ok a s' := by
  cases h : x s with
  | ok b s₁ =>
    simp only [onSnd, h, Outcome.ok.injEq, Prod.mk.injEq]
    tauto
  | raised e s₁ => simp [onSnd, h]
  | crash => simp [onSnd, h]

theorem withLocal_eq_ok_iff {x : Run ε (τ × σ) α} :
    withLocal s x t = .ok a t' ↔ ∃ s', x (t, s) = .ok a (t', s') := by
  cases h : x (t, s) with
  | ok b p =>
    obtain ⟨t₁, s₁⟩ := p
    simp [withLocal, h]
  | raised e p | crash => simp [withLocal, h]

theorem tryCatch_ok {x h : Run ε σ α} (hx : x s = .ok a s') : tryCatch x h s = .ok a s' := by
  simp [tryCatch, hx]

theorem tryCatch_raised {x h : Run ε σ α} (hx : x s = .raised e s') : tryCatch x h s = h s' := by
  simp [tryCatch, hx]

theorem tryCatch_inv {x h : Run ε σ α} {P : α → Prop}
    (hx : ∀ a t, x s = .ok a t → P a) (hh : ∀ t a t', h t = .ok a t' → P a)
    (hrun : tryCatch x h s = .ok a s') : P a := by
  cases hs : x s with
  | ok b t =>
    cases (tryCatch_ok hs).symm.trans hrun
    exact hx a s' hs
  | raised e t => exact hh t a s' ((tryCatch_raised hs).symm.trans hrun)
  | crash => simp [tryCatch, hs] at hrun

theorem tryCatch_bind_ok {x : Run ε σ β} {f : β → Run ε σ α} {h : Run ε σ α} {b : β}
    (hx : x s = .ok b s') : tryCatch (x >>= f) h s = tryCatch (f b) h s' := by
  simp only [tryCatch, bind_ok hx]

theorem withLocal_congr {x y : Run ε (τ × σ) α}
    (h : x (t, s) = y (t', s')) : withLocal s x t = withLocal s' y t' := by
  simp only [withLocal, h]

theorem withObject_ok {x : Run ε (τ × σ) α} (h : x (t, s) = .ok a (t', s')) :
    withObject t x s = .ok (a, t') s' := by
  simp [withObject, h]

theorem withObject_eq_ok_iff {x : Run ε (τ × σ) α} :
    withObject t x s = .ok (a, t') s' ↔ x (t, s) = .ok a (t', s') := by
  cases h : x (t, s) with
  | ok b p =>
    obtain ⟨t₁, s₁⟩ := p
    simp [withObject, h, and_assoc]
  | raised e p | crash => simp [withObject, h]

theorem withObject_bind (t : τ) (x : Run ε (τ × σ) α) (f : α → Run ε (τ × σ) β) :
    withObject t (x >>= f) = withObject t x >>= fun r => withObject r.2 (f r.1) := by
  funext s
  cases h : x (t, s) with
  | ok a p =>
    rw [bind_ok (withObject_ok h)]
    simp only [withObject, bind_ok h]
  | raised e p =>
    have hx : withObject t x s = .raised e p.2 := by simp [withObject, h]
    rw [bind_raised hx]
    simp only [withObject, bind_raised h]
  | crash =>
    have hx : withObject t x s = .crash := by simp [withObject, h]
    rw [bind_crash hx]
    simp only [withObject, bind_crash h]

theorem withObject_get (t : τ) (f : τ × σ → Run ε (τ × σ) β) (s : σ) :
    withObject t (get >>= f) s = withObject t (f (t, s)) s := rfl

theorem withObject_field (t : τ) (x : Run ε σ α) (g : α → τ → τ) (f : α → Run ε (τ × σ) β) :
    withObject t (do let a ← onSnd x; assign (g a); f a) =
      x >>= fun a => withObject (g a t) (f a) := by
  funext s
  cases h : x s with
  | ok a s₁ =>
    rw [bind_ok h, withObject, bind_ok (onSnd_ok t h)]
    rfl
  | raised e s₁ =>
    have hx : onSnd x (t, s) = .raised e (t, s₁) := by simp [onSnd, h]
    rw [bind_raised h, withObject, bind_raised hx]
  | crash => rw [bind_crash h, withObject, bind_crash (onSnd_crash t h)]

theorem withObject_field_last (t : τ) (x : Run ε σ α) (g : α → τ → τ) :
    withObject t (do let a ← onSnd x; assign (g a)) = x >>= fun a => pure ((), g a t) :=
  withObject_field t x g fun _ => pure ()

end Run
end JKYi
