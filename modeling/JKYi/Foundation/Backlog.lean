import Mathlib.Tactic

/-!
# Work that is done one job a round

Jobs are done in their order, and a job needs some amount of material. In every round
more material arrives, and then at most one job is done. What one round leaves undone
has to wait for another, so that the work is through in time only if at no point more
jobs lack material than there are rounds to come.
-/

namespace JKYi

open List

/-- How many of the jobs are done, one a round at most, when `ready` is at hand and a round brings
its amount. -/
def served : List ℕ → ℕ → List ℕ → ℕ
  | _, _, [] => 0
  | [], _, _ :: _ => 0
  | job :: jobs, ready, amount :: amounts =>
    if job ≤ ready + amount then served jobs (ready + amount - job) amounts + 1
    else served (job :: jobs) (ready + amount) amounts

/-- How many of the jobs lack material when no round limits the work. -/
def unfinished : List ℕ → ℕ → ℕ
  | [], _ => 0
  | job :: jobs, ready => if job ≤ ready then unfinished jobs (ready - job) else jobs.length + 1

theorem served_nil (ready : ℕ) (amounts : List ℕ) : served [] ready amounts = 0 := by
  cases amounts <;> rfl

variable {job ready amount : ℕ}

theorem served_done (h : job ≤ ready + amount) (jobs amounts : List ℕ) :
    served (job :: jobs) ready (amount :: amounts) =
      served jobs (ready + amount - job) amounts + 1 := if_pos h

theorem served_later (h : ¬ job ≤ ready + amount)
    (jobs amounts : List ℕ) :
    served (job :: jobs) ready (amount :: amounts) =
      served (job :: jobs) (ready + amount) amounts := if_neg h

theorem unfinished_done (h : job ≤ ready) (jobs : List ℕ) :
    unfinished (job :: jobs) ready = unfinished jobs (ready - job) := if_pos h

theorem unfinished_later (h : ¬ job ≤ ready) (jobs : List ℕ) :
    unfinished (job :: jobs) ready = (job :: jobs).length := if_neg h

theorem unfinished_le_length (jobs : List ℕ) (ready : ℕ) :
    unfinished jobs ready ≤ jobs.length := by
  induction jobs generalizing ready with
  | nil => exact le_rfl
  | cons job jobs ih =>
    by_cases h : job ≤ ready
    · rw [unfinished_done h]
      exact (ih _).trans (Nat.le_succ _)
    · exact (unfinished_later h jobs).le

variable {jobs : List ℕ}

theorem unfinished_zero (h : ∀ job ∈ jobs, 0 < job) :
    unfinished jobs 0 = jobs.length := by
  cases jobs with
  | nil => rfl
  | cons job jobs => exact unfinished_later (not_le.mpr (h job mem_cons_self)) jobs

/-- After every round no more jobs lack material than rounds are left. -/
def InTime (jobs : List ℕ) (ready : ℕ) (amounts : List ℕ) : Prop :=
  ∀ before after, amounts = before ++ after → before ≠ [] →
    unfinished jobs (ready + before.sum) ≤ after.length

theorem inTime_nil (jobs : List ℕ) (ready : ℕ) : InTime jobs ready [] := by
  intro before after heq hne
  exact absurd (append_eq_nil_iff.mp heq.symm).1 hne

/-- The first round, and the rounds after it. -/
theorem inTime_cons {amounts : List ℕ} :
    InTime jobs ready (amount :: amounts) ↔
      unfinished jobs (ready + amount) ≤ amounts.length ∧
        InTime jobs (ready + amount) amounts := by
  constructor
  · intro h
    constructor
    · simpa using h [amount] amounts rfl (cons_ne_nil _ _)
    · intro before after heq hne
      rw [add_assoc, ← sum_cons]
      exact h (amount :: before) after (congrArg (amount :: ·) heq) (cons_ne_nil _ _)
  · rintro ⟨hfirst, hrest⟩ before after heq hne
    cases before with
    | nil => exact absurd rfl hne
    | cons a before =>
      obtain ⟨rfl, rfl⟩ := List.cons.inj heq
      rw [sum_cons, ← add_assoc]
      by_cases hnil : before = []
      · subst hnil
        simpa using hfirst
      · exact hrest before after rfl hnil

theorem inTime_done (h : job ≤ ready) (jobs amounts : List ℕ) :
    InTime (job :: jobs) ready amounts ↔ InTime jobs (ready - job) amounts := by
  refine forall₄_congr fun before after _ _ => ?_
  rw [unfinished_done (by omega), Nat.sub_add_comm h]

/-- All jobs are done just when there are rounds enough and the material comes in time. -/
theorem served_eq_length_iff (jobs : List ℕ) (ready : ℕ) (amounts : List ℕ) :
    served jobs ready amounts = jobs.length ↔
      jobs.length ≤ amounts.length ∧ InTime jobs ready amounts := by
  induction amounts generalizing jobs ready with
  | nil =>
    rw [and_iff_left (inTime_nil jobs ready), length_nil, Nat.le_zero]
    exact eq_comm
  | cons amount amounts ih =>
    cases jobs with
    | nil => exact iff_of_true rfl ⟨Nat.zero_le _, fun _ _ _ _ => Nat.zero_le _⟩
    | cons job jobs =>
      rw [inTime_cons]
      by_cases h : job ≤ ready + amount
      · rw [served_done h, unfinished_done h, inTime_done h, length_cons, length_cons,
          add_left_inj, add_le_add_iff_right, ih]
        refine and_congr_right fun hlen => (and_iff_right ?_).symm
        exact (unfinished_le_length _ _).trans hlen
      · rw [served_later h, unfinished_later h, ih]
        constructor
        · exact fun hboth => ⟨hboth.1.trans (Nat.le_succ _), hboth⟩
        · exact fun hall => hall.2

theorem served_all_iff (h : ∀ job ∈ jobs, 0 < job) (amounts : List ℕ) :
    served jobs 0 amounts = jobs.length ↔
      ∀ before after, amounts = before ++ after → unfinished jobs before.sum ≤ after.length := by
  rw [served_eq_length_iff]
  constructor
  · rintro ⟨hlen, hin⟩ before after heq
    by_cases hnil : before = []
    · subst hnil
      subst heq
      exact (unfinished_zero h).le.trans hlen
    · rw [← Nat.zero_add before.sum]
      exact hin before after heq hnil
  · intro hall
    constructor
    · rw [← unfinished_zero h]
      exact hall [] amounts rfl
    · intro before after heq _
      rw [Nat.zero_add]
      exact hall before after heq

end JKYi
