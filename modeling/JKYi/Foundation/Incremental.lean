import Mathlib.Tactic

/-!
# Consumers of a stream that arrives in pieces

A consumer looks at the items that have arrived. It waits for more, takes some off
the front, or stops. When more items do not change a decision once it is made, the
pieces in which a stream arrives make no difference.
-/

namespace JKYi

open List

/-- What a consumer does next: nothing yet, take `n` items off the front with some outputs, or take
`n` items off and stop. -/
inductive Move (σ ο ρ : Type*) where
  | wait
  | take (n : ℕ) (out : List ο) (s : σ)
  | stop (n : ℕ) (r : ρ)

/-- A move takes no more than `k` items off, and some if it is not the last one. -/
def Move.Fits {σ ο ρ : Type*} (k : ℕ) : Move σ ο ρ → Prop
  | .wait => True
  | .take n _ _ => 0 < n ∧ n ≤ k
  | .stop n _ => n ≤ k

theorem Move.Fits.mono {σ ο ρ : Type*} {m : Move σ ο ρ} {k l : ℕ} (h : m.Fits k) (hkl : k ≤ l) :
    m.Fits l := by
  cases m with
  | wait => trivial
  | take n out s => exact ⟨h.1, h.2.trans hkl⟩
  | stop n r => exact le_trans h hkl

/-- A consumer in a state `σ` with outputs `ο` that may stop with a result `ρ`. More items do not
change its decisions. -/
structure Consumer (α σ ο ρ : Type*) where
  move : σ → List α → Move σ ο ρ
  decided (s : σ) (w : List α) : move s w = .wait ∨
    (move s w).Fits w.length ∧ ∀ more, move s (w ++ more) = move s w

namespace Consumer

@[ext]
structure Progress (α σ ο ρ : Type*) where
  outputs : List ο
  status : σ ⊕ ρ
  left : List α

variable {α σ ο ρ : Type*}

def Progress.waiting (s : σ) (w : List α) : Progress α σ ο ρ := ⟨[], .inl s, w⟩

def Progress.after (p : Progress α σ ο ρ) (out : List ο) : Progress α σ ο ρ :=
  { p with outputs := out ++ p.outputs }

variable (C : Consumer α σ ο ρ)

def drain : ℕ → σ → List α → Progress α σ ο ρ
  | 0, s, w => .waiting s w
  | fuel + 1, s, w =>
    match C.move s w with
    | .wait => .waiting s w
    | .take n out s' => (drain fuel s' (w.drop n)).after out
    | .stop n r => ⟨[], .inr r, w.drop n⟩

/-- Each move but the last takes items off. -/
def run (s : σ) (w : List α) : Progress α σ ο ρ := C.drain (w.length + 1) s w

def resume (p : Progress α σ ο ρ) (more : List α) : Progress α σ ο ρ :=
  match p.status with
  | .inl s => (C.run s (p.left ++ more)).after p.outputs
  | .inr r => ⟨p.outputs, .inr r, p.left ++ more⟩

variable {C} {s s' : σ} {w more : List α} {n : ℕ} {out : List ο} {r : ρ}

theorem bounds_of_take (h : C.move s w = .take n out s') : 0 < n ∧ n ≤ w.length := by
  rcases C.decided s w with hwait | ⟨hfits, -⟩
  · rw [hwait] at h
    cases h
  · rw [h] at hfits
    exact hfits

theorem bound_of_stop (h : C.move s w = .stop n r) : n ≤ w.length := by
  rcases C.decided s w with hwait | ⟨hfits, -⟩
  · rw [hwait] at h
    cases h
  · rw [h] at hfits
    exact hfits

theorem move_append (h : C.move s w ≠ .wait) (more : List α) :
    C.move s (w ++ more) = C.move s w :=
  ((C.decided s w).resolve_left h).2 more

@[simp] theorem Progress.after_nil (p : Progress α σ ο ρ) : p.after [] = p := rfl

theorem resume_after (p : Progress α σ ο ρ) (out : List ο) (more : List α) :
    C.resume (p.after out) more = (C.resume p more).after out := by
  cases h : p.status <;> simp [resume, Progress.after, h]

theorem foldl_resume_after (p : Progress α σ ο ρ) (out : List ο) (pieces : List (List α)) :
    pieces.foldl C.resume (p.after out) = (pieces.foldl C.resume p).after out := by
  induction pieces generalizing p with
  | nil => rfl
  | cons piece pieces ih => rw [foldl_cons, resume_after, ih, foldl_cons]

theorem foldl_resume_stopped (out : List ο) (r : ρ) (w : List α) (pieces : List (List α)) :
    pieces.foldl C.resume ⟨out, .inr r, w⟩ = ⟨out, .inr r, w ++ pieces.flatten⟩ := by
  induction pieces generalizing w with
  | nil => simp
  | cons piece pieces ih =>
    rw [foldl_cons, flatten_cons, ← append_assoc]
    exact ih (w ++ piece)

theorem drain_eq_run {fuel : ℕ} (h : w.length < fuel) : C.drain fuel s w = C.run s w := by
  suffices hboth : ∀ {f g : ℕ} {s : σ} {w : List α}, w.length < f → w.length < g →
      C.drain f s w = C.drain g s w from hboth h (Nat.lt_succ_self _)
  intro f
  induction f with
  | zero => intro g s w hf; omega
  | succ f ih =>
    intro g s w hf hg
    cases g with
    | zero => omega
    | succ g =>
      rw [drain, drain]
      cases hmove : C.move s w with
      | wait => rfl
      | stop n r => rfl
      | take n out s' =>
        have hbounds := bounds_of_take hmove
        have hlen : (w.drop n).length = w.length - n := length_drop
        have hrest : C.drain f s' (w.drop n) = C.drain g s' (w.drop n) :=
          ih (by omega) (by omega)
        exact congrArg (·.after out) hrest

theorem run_wait (h : C.move s w = .wait) : C.run s w = .waiting s w := by
  rw [run, drain, h]

theorem run_stop (h : C.move s w = .stop n r) : C.run s w = ⟨[], .inr r, w.drop n⟩ := by
  rw [run, drain, h]

theorem run_take (h : C.move s w = .take n out s') :
    C.run s w = (C.run s' (w.drop n)).after out := by
  have hbounds := bounds_of_take h
  have hlen : (w.drop n).length = w.length - n := length_drop
  rw [run, drain, h]
  have hrest : C.drain w.length s' (w.drop n) = C.run s' (w.drop n) := drain_eq_run (by omega)
  exact congrArg (·.after out) hrest

@[elab_as_elim]
theorem run_induction {motive : σ → List α → Progress α σ ο ρ → Prop}
    (wait : ∀ {s w}, C.move s w = .wait → motive s w (.waiting s w))
    (stop : ∀ {s w n r}, C.move s w = .stop n r → motive s w ⟨[], .inr r, w.drop n⟩)
    (take : ∀ {s w n out s'}, C.move s w = .take n out s' →
      motive s' (w.drop n) (C.run s' (w.drop n)) →
      motive s w ((C.run s' (w.drop n)).after out)) (s : σ) (w : List α) :
    motive s w (C.run s w) := by
  induction hlen : w.length using Nat.strong_induction_on generalizing s w with
  | _ k ih =>
    cases hmove : C.move s w with
    | wait =>
      rw [run_wait hmove]
      exact wait hmove
    | stop n r =>
      rw [run_stop hmove]
      exact stop hmove
    | take n out s' =>
      have hbounds := bounds_of_take hmove
      have hdrop : (w.drop n).length = w.length - n := length_drop
      rw [run_take hmove]
      exact take hmove (ih _ (by omega) s' (w.drop n) hdrop)

theorem run_invariant {I : σ → Prop} {J : ρ → Prop}
    (htake : ∀ {s w n out s'}, I s → C.move s w = .take n out s' → I s')
    (hstop : ∀ {s w n r}, I s → C.move s w = .stop n r → J r) (hs : I s) :
    (C.run s w).status.elim I J := by
  induction s, w using run_induction (C := C) with
  | wait hmove => exact hs
  | stop hmove => exact hstop hs hmove
  | take hmove ih => exact ih (htake hs hmove)

/-- What a consumer does with a stream can be cut anywhere. -/
theorem run_append (s : σ) (w more : List α) :
    C.run s (w ++ more) = C.resume (C.run s w) more := by
  induction s, w using run_induction (C := C) with
  | wait hmove => rfl
  | @stop s w n r hmove =>
    have hsame : C.move s (w ++ more) = .stop n r :=
      (move_append (by simp [hmove]) more).trans hmove
    rw [run_stop hsame, drop_append_of_le_length (bound_of_stop hmove)]
    rfl
  | @take s w n out s' hmove ih =>
    have hsame : C.move s (w ++ more) = .take n out s' :=
      (move_append (by simp [hmove]) more).trans hmove
    rw [run_take hsame, drop_append_of_le_length (bounds_of_take hmove).2, ih, resume_after]

theorem run_append_waiting (h : (C.run s w).status = .inl s') (more : List α) :
    C.run s (w ++ more) = (C.run s' ((C.run s w).left ++ more)).after (C.run s w).outputs := by
  rw [run_append, resume, h]

/-- The pieces of a stream one by one come to the same as the whole stream. -/
theorem foldl_resume_run (s : σ) (w : List α) (pieces : List (List α)) :
    pieces.foldl C.resume (C.run s w) = C.run s (w ++ pieces.flatten) := by
  induction pieces generalizing w with
  | nil => simp
  | cons piece pieces ih =>
    rw [foldl_cons, ← run_append, ih, flatten_cons, append_assoc]

theorem foldl_resume (h : C.move s [] = .wait) (pieces : List (List α)) :
    pieces.foldl C.resume (.waiting s []) = C.run s pieces.flatten := by
  rw [← run_wait h, foldl_resume_run, nil_append]

end Consumer
end JKYi
