import JKYi.Timer.Wakeup

/-!
# Which timers are in the set

Calls of the functions of `Timer` and `TimerManager` in any order, with clocks that are read as
they come. A timer is in the set exactly as long as it has a callback, so that `cancel` finds it.
-/

namespace JKYi.Timers

open OrderedSet TimerManager List Function

variable {Cb : Type}

namespace TimerManager

variable {m r : TimerManager Cb} {now a : ℕ}

/-- Deadlines change, and the set is sorted by the new ones. -/
structure Moved (m r : TimerManager Cb) : Prop where
  sorted : OrderedSet.Sorted (less r.heap) r.timers
  mem (b : ℕ) : b ∈ r.timers ↔ b ∈ m.timers
  cb (b : ℕ) : (r.heap b).cb = (m.heap b).cb

theorem find_of_mem (ha : a ∈ m.timers) : ∃ i, m.find a = some i ∧ m.timers[i]? = some a := by
  cases hi : m.find a with
  | none => exact absurd ha ((find_eq_none_iff (strictTotal_less _)).1 hi)
  | some i =>
    obtain ⟨hlt, hp, -⟩ := List.findIdx?_eq_some_iff_getElem.1 hi
    exact ⟨i, rfl, List.getElem?_eq_some_iff.2 ⟨hlt, (equivalent_iff (strictTotal_less _)).1 hp⟩⟩

section

variable (h : OrderedSet.Sorted (less m.heap) m.timers)
include h

theorem moved_refl : Moved m m := ⟨h, fun _ => Iff.rfl, fun _ => rfl⟩

theorem moved_of_find {i : ℕ} {t : Timer Cb} (hi : m.find a = some i)
    (ht : t.cb = (m.heap a).cb) (hheap : r.heap = ((m.eraseIdx i).store a t).heap)
    (htimers : r.timers = (((m.eraseIdx i).store a t).insert a).timers) : Moved m r := by
  obtain ⟨hsorted, hupdate, hmem⟩ := sorted_moved h hi hheap htimers
  refine ⟨hsorted, hmem, ?_⟩
  rw [hupdate]
  exact (forall_update_iff m.heap fun b t => t.cb = (m.heap b).cb).2 ⟨ht, fun _ _ => rfl⟩

theorem moved_refresh : Moved m (m.refresh now a).1 := by
  unfold refresh
  split
  · exact moved_refl h
  · split
    · exact moved_refl h
    · rename_i i hi
      exact moved_of_find (t := { m.heap a with next := add64 now (m.heap a).ms }) h hi rfl rfl rfl

theorem moved_reset (ms : ℕ) (fromNow : Bool) : Moved m (m.reset now a ms fromNow).1 := by
  unfold reset
  split
  · exact moved_refl h
  · unfold resetLocked
    split
    · exact moved_refl h
    · split
      · exact moved_refl h
      · rename_i i hi
        set t : Timer Cb := { m.heap a with
          ms := ms
          next := add64 (if fromNow then now else sub64 (m.heap a).next (m.heap a).ms) ms }
        obtain ⟨hheap, htimers, -⟩ := addTimer_fields ((m.eraseIdx i).store a t) a
        exact moved_of_find (t := t) h hi rfl hheap htimers

end

end TimerManager

/-- `made` are the timers that exist, and `cancelled` those of them for which `cancel` has
returned true. -/
structure Managed (Cb : Type) where
  manager : TimerManager Cb
  made : List ℕ
  cancelled : List ℕ

namespace Managed

variable {s s' : Managed Cb} {a : ℕ}

/-- A call, or the end of the last pointer to a timer. -/
inductive Step (s : Managed Cb) : Unit → Managed Cb → Prop
  | addTimer (a now ms : ℕ) (cb : Cb) (recurring : Bool) (ha : a ∉ s.made) : Step s () { s with
      manager := ((s.manager.store a (.new now ms (some cb) recurring)).addTimer a).1
      made := a :: s.made }
  | cancel (a : ℕ) (ha : a ∈ s.made) (r : TimerManager Cb × Bool)
      (hr : s.manager.cancel a = some r) : Step s () { s with
      manager := r.1
      cancelled := if r.2 then a :: s.cancelled else s.cancelled }
  | refresh (now a : ℕ) (ha : a ∈ s.made) :
      Step s () { s with manager := (s.manager.refresh now a).1 }
  | reset (now a ms : ℕ) (fromNow : Bool) (ha : a ∈ s.made) :
      Step s () { s with manager := (s.manager.reset now a ms fromNow).1 }
  | listExpiredCb (now probe : ℕ) (hprobe : probe ∉ s.made) :
      Step s () { s with manager := (s.manager.listExpiredCb now probe []).1 }
  | delete (a : ℕ) (ha : a ∉ s.manager.timers) : Step s () { s with
      made := s.made.filter (· ≠ a)
      cancelled := s.cancelled.filter (· ≠ a) }

def initial (s : Managed Cb) : Prop := s.manager.timers = [] ∧ s.made = [] ∧ s.cancelled = []

structure Inv (s : Managed Cb) : Prop where
  sorted : OrderedSet.Sorted (less s.manager.heap) s.manager.timers
  mem (a : ℕ) : a ∈ s.manager.timers ↔ a ∈ s.made ∧ (s.manager.heap a).cb.isSome
  cancelled (a : ℕ) : a ∈ s.cancelled → a ∈ s.made ∧ (s.manager.heap a).cb = none

theorem Inv.moved (h : Inv s) {m : TimerManager Cb} (hm : Moved s.manager m) :
    Inv { s with manager := m } where
  sorted := hm.sorted
  mem b := by
    rw [hm.mem, hm.cb]
    exact h.mem b
  cancelled b hb := by
    rw [hm.cb]
    exact h.cancelled b hb

theorem Inv.addTimer (h : Inv s) (ha : a ∉ s.made) (now ms : ℕ) (cb : Cb) (recurring : Bool) :
    Inv { s with
      manager := ((s.manager.store a (.new now ms (some cb) recurring)).addTimer a).1
      made := a :: s.made } := by
  have hset : a ∉ s.manager.timers := fun hin => ha ((h.mem a).1 hin).1
  obtain ⟨hheap, htimers, -⟩ :=
    (s.manager.store a (.new now ms (some cb) recurring)).addTimer_fields a
  have hother : ∀ b, b ≠ a → (s.manager.store a (.new now ms (some cb) recurring)).heap b =
      s.manager.heap b := fun b hb => update_of_ne hb ..
  refine ⟨?_, fun b => ?_, fun b hb => ?_⟩
  · dsimp only
    rw [hheap, htimers]
    exact sorted_insert (strictTotal_less _) (sorted_store h.sorted hset)
  · dsimp only
    rw [hheap, htimers, TimerManager.mem_insert]
    by_cases hba : b = a
    · simp [hba, store, Timer.new]
    · rw [hother b hba, mem_cons, or_iff_right hba, or_iff_right hba]
      exact h.mem b
  · have hba : b ≠ a := fun hba => ha (hba ▸ (h.cancelled b hb).1)
    dsimp only
    rw [hheap, hother b hba]
    exact ⟨mem_cons_of_mem a (h.cancelled b hb).1, (h.cancelled b hb).2⟩

/-- `cancel` does not erase `end()`: it takes the timer out of the set, if it has a callback. -/
theorem Inv.cancel (h : Inv s) (ha : a ∈ s.made) : ∃ r, s.manager.cancel a = some r ∧
    Inv { s with
      manager := r.1
      cancelled := if r.2 then a :: s.cancelled else s.cancelled } := by
  by_cases hcb : (s.manager.heap a).cb.isSome
  · have hdates := s.manager.clear_dates a
    have hsorted : OrderedSet.Sorted (less (s.manager.clear a).heap) (s.manager.clear a).timers :=
      h.sorted.congr fun b _ c _ => less_congr (hdates b).1 (hdates c).1
    obtain ⟨i, hi, -⟩ := find_of_mem (m := s.manager.clear a) ((h.mem a).2 ⟨ha, hcb⟩)
    have hrun : s.manager.cancel a = some ((s.manager.clear a).eraseIdx i, true) := by
      unfold clear at hi ⊢
      simp only [TimerManager.cancel, hcb, hi, if_true]
    have hheap : ((s.manager.clear a).eraseIdx i).heap =
      update s.manager.heap a { s.manager.heap a with cb := none } := rfl
    refine ⟨_, hrun, sorted_eraseIdx i hsorted, fun b => ?_, fun b hb => ?_⟩
    · dsimp only
      rw [mem_eraseIdx hsorted hi, hheap]
      by_cases hba : b = a
      · simp [hba]
      · rw [update_of_ne hba, ← h.mem]
        exact and_iff_right hba
    · dsimp only
      rw [hheap]
      by_cases hba : b = a
      · rw [hba, update_self]
        exact ⟨ha, rfl⟩
      · rw [update_of_ne hba]
        exact h.cancelled b ((mem_cons.1 hb).resolve_left hba)
  · have hrun : s.manager.cancel a = some (s.manager, false) := if_neg hcb
    exact ⟨_, hrun, h⟩

theorem Inv.listExpiredCb (h : Inv s) {probe : ℕ} (hprobe : probe ∉ s.made) (now : ℕ) :
    Inv { s with manager := (s.manager.listExpiredCb now probe []).1 } := by
  obtain ⟨-, hheap, hsort, hmem, -⟩ := listExpiredCb_expired now h.sorted []
    fun hin => hprobe ((h.mem probe).1 hin).1
  refine ⟨hsort, fun b => ?_, fun b hb => ?_⟩
  · dsimp only
    rw [hmem, hheap]
    have hin := h.mem b
    by_cases hb : b ∈ s.manager.timers
    · cases hdue : s.manager.due now b <;> cases hrec : (s.manager.heap b).recurring <;>
        simp [keep, fired, hdue, hrec, hb, hin.1 hb]
    · simpa [keep, hb] using hin.not.1 hb
  · have hout : b ∉ s.manager.timers := by
      rw [h.mem, (h.cancelled b hb).2]
      simp
    dsimp only
    rw [hheap, if_neg fun hin => hout (mem_filter.1 hin).1]
    exact h.cancelled b hb

theorem Inv.delete (h : Inv s) (ha : a ∉ s.manager.timers) : Inv { s with
    made := s.made.filter (· ≠ a)
    cancelled := s.cancelled.filter (· ≠ a) } := by
  refine ⟨h.sorted, fun b => ?_, fun b hb => ?_⟩
  · by_cases hba : b = a
    · simp [hba, ha]
    · simp [hba, h.mem]
  · obtain ⟨hb, hba⟩ := mem_filter.1 hb
    exact ⟨mem_filter.2 ⟨(h.cancelled b hb).1, hba⟩, (h.cancelled b hb).2⟩

theorem Inv.step (h : Inv s) (hs : Step s () s') : Inv s' := by
  cases hs with
  | addTimer a now ms cb recurring ha => exact h.addTimer ha now ms cb recurring
  | cancel a ha r hr =>
    obtain ⟨r', hr', hinv⟩ := h.cancel ha
    cases hr.symm.trans hr'
    exact hinv
  | refresh now a => exact h.moved (moved_refresh h.sorted)
  | reset now a ms fromNow => exact h.moved (moved_reset h.sorted ms fromNow)
  | listExpiredCb now probe hprobe => exact h.listExpiredCb hprobe now
  | delete a ha => exact h.delete ha

theorem inv_of_initial (h : initial s) : Inv s := by
  obtain ⟨htimers, hmade, hcancelled⟩ := h
  refine ⟨?_, fun a => ?_, fun a ha => ?_⟩
  · rw [htimers]
    exact List.Pairwise.nil
  · simp [htimers, hmade]
  · simp [hcancelled] at ha

/-- In every run a timer is in the set exactly if it has a callback, and the set is ordered by
deadline and address. So the timers with a callback are found, `cancel` never erases `end()`, and
`listExpiredCb` lists no callback of a timer for which `cancel` has returned true. -/
theorem mem_timers_iff_cb (h : Reachable initial Step (fun _ _ => True) s) :
    (∀ a, a ∈ s.manager.timers ↔ a ∈ s.made ∧ (s.manager.heap a).cb.isSome) ∧
    (s.manager.timers.Pairwise fun a b => (s.manager.heap a).next < (s.manager.heap b).next ∨
      (s.manager.heap a).next = (s.manager.heap b).next ∧ a < b) ∧
    (∀ a ∈ s.made, (s.manager.heap a).cb.isSome →
      ∃ i, s.manager.find a = some i ∧ s.manager.timers[i]? = some a) ∧
    (∀ a ∈ s.made, (s.manager.cancel a).isSome) ∧
    ∀ now probe cbs, probe ∉ s.made → ∃ expired : List ℕ,
      (s.manager.listExpiredCb now probe cbs).2 =
        cbs ++ expired.map (fun a => (s.manager.heap a).cb) ∧
      ∀ a ∈ expired, a ∈ s.manager.timers ∧ a ∉ s.cancelled := by
  have hinv : Inv s := h.invariant (fun _ => inv_of_initial) fun _ _ _ hi _ hs => hi.step hs
  refine ⟨hinv.mem, hinv.sorted.imp (less_iff _ _ _).1, fun a ha hcb => ?_, fun a ha => ?_,
    fun now probe cbs hprobe => ?_⟩
  · exact find_of_mem ((hinv.mem a).2 ⟨ha, hcb⟩)
  · obtain ⟨r, hr, -⟩ := hinv.cancel ha
    rw [hr]
    rfl
  · obtain ⟨hcbs, -⟩ := listExpiredCb_expired now hinv.sorted cbs
      fun hin => hprobe ((hinv.mem probe).1 hin).1
    refine ⟨_, hcbs, fun a ha => ?_⟩
    have hin := (mem_filter.1 ha).1
    refine ⟨hin, fun hc => ?_⟩
    have hcb := ((hinv.mem a).1 hin).2
    rw [(hinv.cancelled a hc).2] at hcb
    cases hcb

/-- Of three timers one is cancelled, one expires and one is set again when it expires. -/
theorem mem_timers_iff_cb_expired : ∃ s : Managed Unit,
    Reachable initial Step (fun _ _ => True) s ∧ s.made = [3, 2, 1] ∧ s.cancelled = [2] ∧
      (s.manager.cancel 1).isSome ∧ ∀ a ∈ s.made, (s.manager.heap a).cb.isSome ↔ a = 3 := by
  have h : Reachable initial Step (fun _ _ => True)
      (⟨(State.new Bool 0).manager, [], []⟩ : Managed Unit) := .start ⟨rfl, rfl, rfl⟩
  have h := h.andThen (.addTimer 1 5 10 () false (by decide)) trivial
  have h := h.andThen (.addTimer 2 5 20 () false (by decide)) trivial
  have h := h.andThen (.addTimer 3 5 10 () true (by decide)) trivial
  have h := h.andThen (.cancel 2 (by decide) _ rfl) trivial
  have h := h.andThen (.listExpiredCb 16 4 (by decide)) trivial
  have hall := mem_timers_iff_cb h
  refine ⟨_, h, rfl, rfl, hall.2.2.2.1 1 (by decide), fun a ha => ?_⟩
  exact ((and_iff_right ha).symm.trans (hall.1 a).symm).trans (mem_singleton (a := a) (b := 3))

end Managed
end JKYi.Timers
