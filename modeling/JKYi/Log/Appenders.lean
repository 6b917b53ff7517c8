import JKYi.Foundation.Interleaving

/-!
# The formatters of appenders

An appender without a formatter of its own carries a copy of the formatter of a logger, made when
it is attached and replaced when the logger gets another formatter.
-/

namespace JKYi.Log

open Function Option

/-- A `LogAppender`, and what the last call of its `setFormatter` has given to it. -/
structure Appender (F : Type) where
  formatter : Option F
  hasFormatter : Bool
  given : Option F

/-- The appenders, and for every logger its formatter and the appenders attached to it. -/
structure Loggers (A L F : Type) where
  appender : A → Appender F
  formatter : L → F
  appenders : L → List A

inductive Call (A L F : Type) where
  | addAppender (l : L) (a : A)
  | delAppender (l : L) (a : A)
  | setFormatter (l : L) (f : F)
  | setOwn (a : A) (f : Option F)

namespace Appender

variable {F : Type}

def setFormatter (f : Option F) : Appender F := ⟨f, f.isSome, f⟩

def inherit (a : Appender F) (f : F) : Appender F := { a with formatter := some f }

def Own (a : Appender F) : Prop :=
  a.hasFormatter = a.given.isSome ∧ ∀ f, a.given = some f → a.formatter = some f

end Appender

namespace Loggers

variable {A L F : Type} [DecidableEq A] [DecidableEq L] {s s' : Loggers A L F}

def addAppender (s : Loggers A L F) (l : L) (a : A) : Loggers A L F :=
  { s with
    appender := if (s.appender a).formatter.isNone then
        update s.appender a ((s.appender a).inherit (s.formatter l))
      else s.appender
    appenders := update s.appenders l (s.appenders l ++ [a]) }

def delAppender (s : Loggers A L F) (l : L) (a : A) : Loggers A L F :=
  { s with appenders := update s.appenders l ((s.appenders l).erase a) }

def setFormatter (s : Loggers A L F) (l : L) (f : F) : Loggers A L F :=
  { s with
    formatter := update s.formatter l f
    appender := fun a =>
      if a ∈ s.appenders l ∧ (s.appender a).hasFormatter = false then (s.appender a).inherit f
      else s.appender a }

def exec (s : Loggers A L F) : Call A L F → Loggers A L F
  | .addAppender l a => s.addAppender l a
  | .delAppender l a => s.delAppender l a
  | .setFormatter l f => s.setFormatter l f
  | .setOwn a f => { s with appender := update s.appender a (.setFormatter f) }

/-- Appenders as they are constructed, and none of them attached. -/
def Init (s : Loggers A L F) : Prop :=
  (∀ a, s.appender a = ⟨none, false, none⟩) ∧ ∀ l, s.appenders l = []

def Step (s : Loggers A L F) (c : Call A L F) (s' : Loggers A L F) : Prop := s' = s.exec c

/-- Every attached appender uses its own formatter, or else that of its logger. -/
def Wired (s : Loggers A L F) : Prop :=
  ∀ l, ∀ a ∈ s.appenders l,
    (s.appender a).formatter = some ((s.appender a).given.getD (s.formatter l))

/-- An appender with an inherited formatter is attached only where this is the formatter, a
formatter that is passed on is also that of the other loggers of the appender, and an attached
appender is not left without a formatter. -/
def Careful (s : Loggers A L F) : Call A L F → Prop
  | .addAppender l a => (s.appender a).given = none → ∀ f, (s.appender a).formatter = some f →
    f = s.formatter l
  | .setFormatter l f => ∀ a ∈ s.appenders l, (s.appender a).given = none →
    ∀ k ≠ l, a ∈ s.appenders k → s.formatter k = f
  | .setOwn a none => ∀ l, a ∉ s.appenders l
  | _ => True

theorem own_exec (h : ∀ a, (s.appender a).Own) (c : Call A L F) (a : A) :
    ((s.exec c).appender a).Own := by
  cases c <;> simp only [exec, addAppender, delAppender, setFormatter, Appender.Own,
    Appender.inherit, Appender.setFormatter, update_apply] at * <;> grind

theorem wired_addAppender_iff (hown : ∀ a, (s.appender a).Own) (h : s.Wired) (l : L) (a : A) :
    (s.addAppender l a).Wired ↔ s.Careful (.addAppender l a) := by
  cases hf : (s.appender a).formatter with
  | none =>
    have hfree : ∀ k, a ∉ s.appenders k := by
      intro k hk
      cases hf.symm.trans (h k a hk)
    have hgiven : (s.appender a).given = none := by
      apply eq_none_iff_forall_ne_some.mpr
      intro f hg
      cases hf.symm.trans ((hown a).2 f hg)
    refine iff_of_true (fun k b hb => ?_) (by simp [Careful, hf])
    simp only [addAppender, hf, isNone_none, if_true, Appender.inherit, update_apply] at *
    grind [Wired]
  | some f =>
    simp only [Wired, addAppender, hf, isNone_some, Bool.false_eq_true, if_false, Careful,
      Option.some.injEq, forall_eq']
    constructor
    · intro hw hgiven
      simpa [hf, hgiven] using hw l a (by simp)
    · intro hc k b hb
      by_cases hold : b ∈ s.appenders k
      · exact h k b hold
      · obtain ⟨rfl, rfl⟩ : k = l ∧ b = a := by grind
        cases hg : (s.appender b).given with
        | none => simp [hf, hc hg]
        | some g => exact (hown b).2 g hg

theorem wired_setFormatter_iff (hown : ∀ a, (s.appender a).Own) (h : s.Wired) (l : L) (f : F) :
    (s.setFormatter l f).Wired ↔ s.Careful (.setFormatter l f) := by
  have hflag : ∀ a, (s.appender a).hasFormatter = false ↔ (s.appender a).given = none := by
    intro a
    simp [(hown a).1]
  simp only [Wired, setFormatter, Careful, hflag, update_apply]
  constructor
  · intro hw a ha hgiven k hk hak
    simpa [ha, hgiven, hk, Appender.inherit] using (hw k a hak).symm
  · intro hc k a hak
    have hwired := h k a hak
    by_cases hgiven : (s.appender a).given = none
    · by_cases hk : k = l
      · subst hk
        simp [hak, hgiven, Appender.inherit]
      · by_cases ha : a ∈ s.appenders l
        · simp [ha, hk, hgiven, hc a ha hgiven k hk hak, Appender.inherit]
        · simpa [ha, hk, hgiven] using hwired
    · obtain ⟨g, hg⟩ := ne_none_iff_exists'.mp hgiven
      simpa [hg] using hwired

theorem wired_exec_iff (hown : ∀ a, (s.appender a).Own) (h : s.Wired) (c : Call A L F) :
    (s.exec c).Wired ↔ s.Careful c := by
  cases c with
  | addAppender l a => exact wired_addAppender_iff hown h l a
  | delAppender l a =>
    refine iff_of_true (fun k b hb => h k b ?_) trivial
    simp only [exec, delAppender, update_apply] at hb
    grind
  | setFormatter l f => exact wired_setFormatter_iff hown h l f
  | setOwn a f =>
    cases f with
    | none =>
      simp only [Wired, exec, Careful, Appender.setFormatter, update_apply] at *
      grind
    | some f =>
      refine iff_of_true (fun l b hb => ?_) trivial
      have hb := h l b hb
      simp only [exec, Appender.setFormatter, update_apply]
      grind

/-- All states of a sequence of calls are wired exactly when all the calls are careful. -/
theorem wired_iff_careful {run : List (Loggers A L F × Call A L F)} (h : Trace Init Step run s) :
    (∀ t ∈ s :: run.map Prod.fst, t.Wired) ↔ ∀ p ∈ run, p.1.Careful p.2 := by
  refine h.all_good_iff (fun s h => ?_) fun run s c s' h hwired hstep => ?_
  · simp [Wired, h.2]
  · have hown : ∀ a, (s.appender a).Own := by
      refine h.invariant (P := fun s => ∀ a, (s.appender a).Own) (fun s h => ?_)
        fun s c s' hown hstep => ?_
      · simp [Appender.Own, h.1]
      · subst hstep
        exact own_exec hown c
    subst hstep
    exact wired_exec_iff hown hwired c

/-- Loggers `true` and `false` with formatters of these names, and one appender. -/
def fresh : Loggers Unit Bool Bool := ⟨fun _ => ⟨none, false, none⟩, id, fun _ => []⟩

theorem trace_attached :
    Trace Init Step [(fresh, .addAppender true ())] (fresh.addAppender true ()) :=
  .next (.start ⟨fun _ => rfl, fun _ => rfl⟩) rfl

theorem wired_iff_careful_attached : (fresh.addAppender true ()).Wired :=
  (wired_iff_careful trace_attached).mpr (by simp [Careful, fresh]) _ List.mem_cons_self

/-- An attached appender whose formatter is set to null has none, and one that is attached to a
second logger keeps the formatter of the first. -/
theorem unwired_states :
    (∃ run, ∃ s : Loggers Unit Bool Bool, Trace Init Step run s ∧ () ∈ s.appenders true ∧
      (s.appender ()).formatter = none) ∧
    ∃ run, ∃ s : Loggers Unit Bool Bool, Trace Init Step run s ∧ () ∈ s.appenders false ∧
      s.formatter false = false ∧ (s.appender ()).given = none ∧
      (s.appender ()).formatter = some true :=
  ⟨⟨_, _, trace_attached.next (a := .setOwn () none) rfl, by decide, rfl⟩,
    ⟨_, _, trace_attached.next (a := .addAppender false ()) rfl, by decide, rfl, rfl, rfl⟩⟩

end Loggers
end JKYi.Log
