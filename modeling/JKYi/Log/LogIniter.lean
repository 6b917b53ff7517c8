import Mathlib.Data.Int.Notation
import Mathlib.Data.List.Nodup
import Mathlib.Logic.Function.Basic

/-!
# The listener of the log configuration

A change of the `logs` entry sets up the loggers of the new set and silences those that are only in
the old one. `valid` says which patterns a `LogFormatter` accepts.
-/

namespace JKYi.Log

open Function

structure LogAppenderDefine where
  type : ℤ
  level : ℕ
  formatter : String
  file : String
  deriving DecidableEq

structure LogDefine where
  name : String
  level : ℕ
  formatter : String
  appenders : List LogAppenderDefine
  deriving DecidableEq

/-- A `std::set<LogDefine>`: entries are told apart by their names. -/
structure Defines where
  list : List LogDefine
  nodup : (list.map LogDefine.name).Nodup

/-- An appender writes to a file or to the standard output. -/
structure LogAppender where
  file : Option String
  level : ℕ
  formatter : Option String

structure Logger where
  level : ℕ
  formatter : String
  appenders : List LogAppender

def Logger.silence (l : Logger) : Logger := { l with level := 100, appenders := [] }

variable (valid : String → Bool)

/-- A type other than 1 and 2 leaves a null pointer, on which `setLevel` is called. -/
def newAppender (a : LogAppenderDefine) : Option LogAppender :=
  let formatter := if a.formatter ≠ "" ∧ valid a.formatter then some a.formatter else none
  if a.type = 1 then some ⟨some a.file, a.level, formatter⟩
  else if a.type = 2 then some ⟨none, a.level, formatter⟩
  else none

/-- The logger of an entry; it stays null for an entry that is the same in the old set. -/
def Defines.logger (old : Defines) (m : String → Logger) (i : LogDefine) : Option Logger :=
  match old.list.find? (·.name = i.name) with
  | none => some (m i.name)
  | some j => if i = j then none else some (m i.name)

def setUp (old : Defines) (m : String → Logger) (i : LogDefine) : Option (String → Logger) := do
  let l ← old.logger m i
  let formatter := if i.formatter ≠ "" ∧ valid i.formatter then i.formatter else l.formatter
  let appenders ← i.appenders.mapM (newAppender valid)
  some (update m i.name ⟨i.level, formatter, appenders⟩)

def silence (new : Defines) (m : String → Logger) (i : LogDefine) : String → Logger :=
  if ∃ j ∈ new.list, j.name = i.name then m
  else update m i.name (m i.name).silence

def listener (old new : Defines) (m : String → Logger) : Option (String → Logger) := do
  let m ← new.list.foldlM (setUp valid old) m
  some (old.list.foldl (silence new) m)

/-- The logger has the level and the appenders of the entry. -/
def Follows (i : LogDefine) (l : Logger) : Prop :=
  l.level = i.level ∧ i.appenders.map (newAppender valid) = l.appenders.map some

/-- The loggers are as the new set says, and those that are only in the old one write nothing. -/
def Configured (old new : Defines) (m : String → Logger) : Prop :=
  (∀ i ∈ new.list, Follows valid i (m i.name)) ∧
    ∀ i ∈ old.list, (∀ j ∈ new.list, j.name ≠ i.name) → (m i.name).appenders = []

/-- The entry is not as it was, and its appenders have types that exist. -/
def Changed (old : Defines) (i : LogDefine) : Prop :=
  i ∉ old.list ∧ ∀ a ∈ i.appenders, a.type = 1 ∨ a.type = 2

variable (old new : Defines) (m : String → Logger) (i : LogDefine)

theorem newAppender_eq_none_iff (a : LogAppenderDefine) :
    newAppender valid a = none ↔ ¬ (a.type = 1 ∨ a.type = 2) := by
  grind [newAppender]

theorem mapM_cases {α β : Type} (f : α → Option β) (as : List α) :
    (∃ bs, as.mapM f = some bs ∧ as.map f = bs.map some) ∨
      as.mapM f = none ∧ ∃ a ∈ as, f a = none := by
  induction as with
  | nil => exact .inl ⟨[], rfl, rfl⟩
  | cons a as ih =>
    cases ha : f a with
    | none => exact .inr ⟨by simp [ha], a, List.mem_cons_self, ha⟩
    | some b =>
      obtain ⟨bs, hbs, hmap⟩ | ⟨hnone, c, hc, hfc⟩ := ih
      · exact .inl ⟨b :: bs, by simp [ha, hbs], by simp [ha, hmap]⟩
      · exact .inr ⟨by simp [ha, hnone], c, List.mem_cons_of_mem a hc, hfc⟩

theorem Defines.logger_eq : old.logger m i = if i ∈ old.list then none else some (m i.name) := by
  unfold logger
  cases hfind : old.list.find? (·.name = i.name) with
  | none =>
    have hi : i ∉ old.list := fun hi => by simpa using List.find?_eq_none.mp hfind i hi
    rw [if_neg hi]
  | some j =>
    have hj := List.mem_of_find?_eq_some hfind
    have hname : j.name = i.name := by simpa using List.find?_some hfind
    have hiff : i = j ↔ i ∈ old.list :=
      ⟨fun h => h ▸ hj, fun hi => List.inj_on_of_nodup_map old.nodup hi hj hname.symm⟩
    simp [hiff]

theorem setUp_cases : (∃ l, setUp valid old m i = some (update m i.name l) ∧
    Follows valid i l ∧ Changed old i) ∨ setUp valid old m i = none ∧ ¬ Changed old i := by
  unfold setUp
  rw [old.logger_eq]
  by_cases hi : i ∈ old.list
  · exact .inr ⟨by simp [hi], fun h => h.1 hi⟩
  · obtain ⟨bs, hbs, hmap⟩ | ⟨hnone, a, ha, hfa⟩ := mapM_cases (newAppender valid) i.appenders
    · refine .inl ⟨_, by simp [hi, hbs]; rfl, ⟨rfl, hmap⟩, hi, fun a ha => ?_⟩
      by_contra htype
      have := List.mem_map_of_mem (f := newAppender valid) ha
      rw [(newAppender_eq_none_iff valid a).mpr htype, hmap] at this
      simp at this
    · exact .inr ⟨by simp [hi, hnone], fun h => (newAppender_eq_none_iff valid a).mp hfa (h.2 a ha)⟩

theorem setUpAll_cases (is : List LogDefine) (hs : (is.map LogDefine.name).Nodup) :
    (∃ m', is.foldlM (setUp valid old) m = some m' ∧
      (∀ i ∈ is, Follows valid i (m' i.name) ∧ Changed old i) ∧
        ∀ n, (∀ i ∈ is, i.name ≠ n) → m' n = m n) ∨
      is.foldlM (setUp valid old) m = none ∧ ∃ i ∈ is, ¬ Changed old i := by
  induction is generalizing m with
  | nil => exact .inl ⟨m, rfl, by simp, fun _ _ => rfl⟩
  | cons i is ih =>
    rw [List.map_cons, List.nodup_cons] at hs
    rw [List.foldlM_cons]
    obtain ⟨l, hl, hfollows, hchanged⟩ | ⟨hnone, hi⟩ := setUp_cases valid old m i
    · rw [hl]
      refine (ih (update m i.name l) hs.2).imp ?_ ?_
      · rintro ⟨m', hm', hall, hkeep⟩
        have hi : m' i.name = l :=
          (hkeep _ fun j hj e => hs.1 (List.mem_map.mpr ⟨j, hj, e⟩)).trans (update_self ..)
        refine ⟨m', hm', ?_, fun n hn => ?_⟩
        · rw [List.forall_mem_cons, hi]
          exact ⟨⟨hfollows, hchanged⟩, hall⟩
        · rw [List.forall_mem_cons] at hn
          exact (hkeep n hn.2).trans (update_of_ne hn.1.symm ..)
      · exact fun ⟨hm', j, hj, hn⟩ => ⟨hm', j, List.mem_cons_of_mem i hj, hn⟩
    · exact .inr ⟨by rw [hnone]; rfl, i, List.mem_cons_self, hi⟩

theorem foldl_silence (os : List LogDefine) (n : String) :
    os.foldl (silence new) m n =
      if (∃ i ∈ os, i.name = n) ∧ ∀ j ∈ new.list, j.name ≠ n then (m n).silence else m n := by
  induction os generalizing m with
  | nil => simp
  | cons i os ih =>
    have hi : silence new m i n =
        if i.name = n ∧ ∀ j ∈ new.list, j.name ≠ n then (m n).silence else m n := by
      unfold silence
      split <;> grind [update_apply]
    rw [List.foldl_cons, ih, hi]
    split_ifs <;> first | rfl | grind

/-- The listener does its work exactly if no entry of the new set is as it was in the old one, and
all appenders have a type that exists. -/
theorem configured_iff_changed :
    (∃ m', listener valid old new m = some m' ∧ Configured valid old new m') ↔
      ∀ i ∈ new.list, Changed old i := by
  unfold listener
  obtain ⟨m', hm', hall, -⟩ | ⟨hnone, i, hi, hn⟩ :=
    setUpAll_cases valid old m new.list new.nodup
  · refine iff_of_true ⟨_, by rw [hm']; rfl, fun i hi => ?_, fun i hi hnew => ?_⟩
      fun i hi => (hall i hi).2
    · rw [foldl_silence, if_neg fun h => h.2 i hi rfl]
      exact (hall i hi).1
    · rw [foldl_silence, if_pos ⟨⟨i, hi, rfl⟩, hnew⟩]
      rfl
  · refine iff_of_false ?_ fun h => hn (h i hi)
    rintro ⟨m', hm', -⟩
    rw [hnone] at hm'
    cases hm'

/-- One entry changes its level, the other one stays as it was. -/
theorem unchanged_entry_crashes : listener (fun _ => true)
    ⟨[⟨"a", 1, "", []⟩, ⟨"b", 1, "", []⟩], by decide⟩
    ⟨[⟨"a", 2, "", []⟩, ⟨"b", 1, "", []⟩], by decide⟩ (fun _ => ⟨1, "", []⟩) = none := by
  decide

end JKYi.Log
