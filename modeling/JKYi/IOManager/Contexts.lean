import JKYi.Foundation.Bytes
import JKYi.Foundation.Interleaving

/-!
# The vector of contexts

`addEvent` looks at the size of `m_fdContexts` under a read lock and resizes it under a write
lock that it takes later, to a size that depends on its own descriptor only. `delEvent`,
`cancelEvent` and `cancelAll` only read the vector.
-/

namespace JKYi.IOManager

open List

/-- `m_fdContexts`, with the contexts numbered as they are created, how many there have been, and
the descriptors of the threads that are between the two locks of `addEvent`. -/
structure Contexts (W : Type) where
  fdContexts : List (Option ℕ)
  created : ℕ
  growing : W → Option ℕ

def createContexts : List (Option ℕ) → ℕ → List (Option ℕ) × ℕ
  | [], n => ([], n)
  | some p :: v, n => (some p :: (createContexts v n).1, (createContexts v n).2)
  | none :: v, n => (some n :: (createContexts v (n + 1)).1, (createContexts v (n + 1)).2)

namespace Contexts

variable {W : Type} {s s' : Contexts W}

def contextResize (size : ℕ) (s : Contexts W) : Contexts W :=
  let resized := s.fdContexts.take size ++ List.replicate (size - s.fdContexts.length) none
  { s with
    fdContexts := (createContexts resized s.created).1
    created := (createContexts resized s.created).2 }

def Init (s : Contexts W) : Prop := s = contextResize 32 ⟨[], 0, fun _ => none⟩

/-- The critical sections of `addEvent(fd)` on the thread `w`. -/
inductive Section (W : Type) where
  | read (w : W) (fd : ℕ)
  | write (w : W) (fd : ℕ)

/-- A thread passes a section; the product `fd*1.5` of an `int` is exact. -/
inductive Step [DecidableEq W] : Contexts W → Section W → Contexts W → Prop
  | find {s : Contexts W} {w : W} {fd : ℕ} : s.growing w = none →
    intOfSize s.fdContexts.length > fd → Step s (.read w fd) s
  | miss {s : Contexts W} {w : W} {fd : ℕ} : s.growing w = none →
    ¬ intOfSize s.fdContexts.length > fd →
    Step s (.read w fd) { s with growing := Function.update s.growing w (some fd) }
  | grow {s : Contexts W} {w : W} {fd : ℕ} : s.growing w = some fd →
    Step s (.write w fd)
      { s.contextResize (fd * 3 / 2) with growing := Function.update s.growing w none }

/-- The index that `addEvent` uses after its resize is inside of the vector. -/
def Inside (s : Contexts W) (a : Section W) : Prop :=
  ∀ w fd, a = .write w fd → fd < (s.contextResize (fd * 3 / 2)).fdContexts.length

/-- A resize does not make the vector shorter, and the descriptor is not 0 or 1. -/
def Grows (s : Contexts W) (a : Section W) : Prop :=
  ∀ w fd, a = .write w fd → s.fdContexts.length ≤ fd * 3 / 2 ∧ 2 ≤ fd

@[simp] theorem length_createContexts (v : List (Option ℕ)) (n : ℕ) :
    (createContexts v n).1.length = v.length := by
  induction v generalizing n with
  | nil => rfl
  | cons x v ih => cases x <;> simp [createContexts, ih]

theorem none_notMem_createContexts (v : List (Option ℕ)) (n : ℕ) :
    none ∉ (createContexts v n).1 := by
  induction v generalizing n with
  | nil => simp [createContexts]
  | cons x v ih => cases x <;> simp [createContexts, ih]

theorem createContexts_append {v : List (Option ℕ)} (hv : none ∉ v) (u : List (Option ℕ)) (n : ℕ) :
    (createContexts (v ++ u) n).1 = v ++ (createContexts u n).1 := by
  induction v with
  | nil => rfl
  | cons x v ih =>
    cases x with
    | none => simp at hv
    | some p => simp_all [createContexts]

@[simp] theorem length_contextResize (size : ℕ) (s : Contexts W) :
    (s.contextResize size).fdContexts.length = size := by
  simp only [contextResize, length_createContexts, length_append, length_take, length_replicate]
  omega

theorem kept_contextResize_iff (hs : none ∉ s.fdContexts) (size : ℕ) :
    s.fdContexts <+: (s.contextResize size).fdContexts ↔ s.fdContexts.length ≤ size := by
  constructor
  · intro h
    simpa using h.length_le
  · intro h
    rw [contextResize, take_of_length_le h]
    rw [createContexts_append hs]
    exact prefix_append ..

variable [DecidableEq W] {a : Section W}

theorem Step.created (h : Step s a s') (hs : none ∉ s.fdContexts) : none ∉ s'.fdContexts := by
  cases h with
  | find => exact hs
  | miss => exact hs
  | grow => exact none_notMem_createContexts _ _

theorem Step.kept_iff (h : Step s a s') (hs : none ∉ s.fdContexts) :
    (s.fdContexts <+: s'.fdContexts ∧ s.Inside a) ↔ s.Grows a := by
  cases h with
  | find | miss => simp [Inside, Grows]
  | @grow w fd hw =>
    have hkept := kept_contextResize_iff hs (fd * 3 / 2)
    simp only [Inside, Grows, length_contextResize, Section.write.injEq, and_imp, hkept]
    constructor
    · rintro ⟨hle, hin⟩ _ _ rfl rfl
      have := hin _ _ rfl rfl
      omega
    · intro h
      have := h _ _ rfl rfl
      exact ⟨this.1, fun _ _ _ hfd => by omega⟩

theorem created_of_trace {run : List (Contexts W × Section W)} (h : Trace Init Step run s) :
    none ∉ s.fdContexts := by
  refine h.invariant (P := fun s => none ∉ s.fdContexts) (fun s h => ?_)
    fun _ _ _ hs hstep => hstep.created hs
  rw [h]
  exact none_notMem_createContexts _ _

/-- In a run of any number of threads all contexts stay where they are, and the index after a
resize is inside, exactly when every resize grows. -/
theorem contexts_kept_iff {run : List (Contexts W × Section W)} (h : Trace Init Step run s) :
    (((s :: run.map Prod.fst).Pairwise
        fun later earlier => earlier.fdContexts <+: later.fdContexts) ∧
      ∀ p ∈ run, p.1.Inside p.2) ↔ ∀ p ∈ run, p.1.Grows p.2 := by
  induction h with
  | start => simp
  | @next run s s' a h hstep ih =>
    have hiff := hstep.kept_iff (created_of_trace h)
    simp only [map_cons, forall_mem_cons (a := (s, a)), pairwise_cons (a := s'),
      forall_mem_cons (a := s), ← ih, ← hiff]
    constructor
    · rintro ⟨⟨⟨hkept, -⟩, hall⟩, hin, hins⟩
      exact ⟨⟨hkept, hin⟩, hall, hins⟩
    · rintro ⟨⟨hkept, hin⟩, hall, hins⟩
      refine ⟨⟨⟨hkept, fun earlier hmem => ?_⟩, hall⟩, hin, hins⟩
      exact ((pairwise_cons.1 hall).1 earlier hmem).trans hkept

/-- One thread registers the descriptor 40. -/
theorem contexts_kept_one : ∃ (run : List (Contexts Unit × Section Unit)) (s : Contexts Unit),
    Trace Init Step run s ∧ s.fdContexts.length = 60 ∧ (s :: run.map Prod.fst).Pairwise
      fun later earlier => earlier.fdContexts <+: later.fdContexts := by
  have hsize : intOfSize 32 = 32 := intOfSize_eq (by decide)
  have h₀ : Trace Init Step [] (contextResize 32 ⟨[], 0, fun _ : Unit => none⟩) := .start rfl
  have h₁ := h₀.next (.miss (w := ()) rfl (by simp [hsize] : ¬ intOfSize _ > (40 : ℕ)))
  have h₂ := h₁.next (.grow (w := ()) (by simp : _ = some 40))
  exact ⟨_, _, h₂, by simp, ((contexts_kept_iff h₂).2 (by simp [Grows])).1⟩

/-- Descriptors 40 and 100 at the same time: the vector of 150 contexts shrinks to 60. -/
theorem context_lost : ∃ s s' : Contexts Bool,
    Reachable Init Step (fun _ _ => True) s ∧ Step s (.write false 40) s' ∧
      s.fdContexts.length = 150 ∧ s'.fdContexts.length = 60 := by
  have hsize : intOfSize 32 = 32 := intOfSize_eq (by decide)
  have h₀ : Reachable Init Step (fun _ _ => True)
      (contextResize 32 ⟨[], 0, fun _ : Bool => none⟩) := .start rfl
  have h₁ := h₀.andThen
    (.miss (w := false) rfl (by simp [hsize] : ¬ intOfSize _ > (40 : ℕ))) trivial
  have h₂ := h₁.andThen
    (.miss (w := true) rfl (by simp [hsize] : ¬ intOfSize _ > (100 : ℕ))) trivial
  have h₃ := h₂.andThen (.grow (w := true) (by simp : _ = some 100))
  exact ⟨_, _, h₃, .grow (by simp [contextResize]), by simp, by simp⟩

end Contexts
end JKYi.IOManager
