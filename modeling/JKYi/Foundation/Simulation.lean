import JKYi.Foundation.Run

/-!
# Simulation of an abstract machine along whole runs

A stateful implementation answers a list of requests one after the other. If
every admissible request keeps a relation to the state of an abstract machine
and answers as the machine does, then so does every admissible list of
requests, in every state it passes.
-/

namespace JKYi

variable {ι ε σ τ α β : Type}

/-- The answers of a run together with the state after each of them; `none` when
some request does not return. -/
def Run.trace (step : ι → Run ε σ α) : List ι → σ → Option (List (α × σ))
  | [], _ => some []
  | i :: is, s =>
    match step i s with
    | .ok a s' => (Run.trace step is s').map ((a, s') :: ·)
    | _ => none

/-- Every request meets its precondition in the state it is made in. -/
def Run.Admissible (step : ι → Run ε σ α) (pre : ι → σ → Prop) : List ι → σ → Prop
  | [], _ => True
  | i :: is, s => pre i s ∧ ∀ a s', step i s = .ok a s' → Run.Admissible step pre is s'

/-- The run of a machine whose requests always return. -/
def machineTrace (next : ι → τ → β × τ) : List ι → τ → List (β × τ)
  | [], _ => []
  | i :: is, t => next i t :: machineTrace next is (next i t).2

theorem Run.trace_simulates {step : ι → Run ε σ α} {pre : ι → σ → Prop} {next : ι → τ → β × τ}
    (R : σ → τ → Prop) (Q : α → β → Prop)
    (hstep : ∀ i s t, R s t → pre i s →
      ∃ a s', step i s = .ok a s' ∧ R s' (next i t).2 ∧ Q a (next i t).1) :
    ∀ (is : List ι) (s : σ) (t : τ), R s t → Run.Admissible step pre is s →
      ∃ tr, Run.trace step is s = some tr ∧
        List.Forall₂ (fun x y => Q x.1 y.1 ∧ R x.2 y.2) tr (machineTrace next is t) := by
  intro is
  induction is with
  | nil =>
    intro s t _ _
    exact ⟨[], rfl, .nil⟩
  | cons i is ih =>
    intro s t hR hadm
    obtain ⟨a, s', hs, hR', hQ⟩ := hstep i s t hR hadm.1
    obtain ⟨tr, htr, hall⟩ := ih s' (next i t).2 hR' (hadm.2 a s' hs)
    refine ⟨(a, s') :: tr, ?_, .cons ⟨hQ, hR'⟩ hall⟩
    simp [Run.trace, hs, htr]

end JKYi
