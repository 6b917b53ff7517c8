import JKYi.Timer.Model

/-!
# Which timers expire

The comparator is a strict total order on addresses whatever the deadlines are,
so the set stays sorted as long as a timer is outside of it while its deadline
changes. `listExpiredCb` splits the set at the clock, wherever the probe stands
among the timers that are due now.
-/

namespace JKYi.Timers

open OrderedSet List Function

variable {Cb : Type} {heap : ℕ → Timer Cb}

theorem less_iff (heap : ℕ → Timer Cb) (a b : ℕ) : less heap a b = true ↔
    (heap a).next < (heap b).next ∨ (heap a).next = (heap b).next ∧ a < b := by
  change (if (heap a).next < (heap b).next then true
    else if (heap a).next > (heap b).next then false else decide (a < b)) = true ↔ _
  split_ifs with h h'
  · simp [h]
  · simp only [false_iff]
    omega
  · simp only [decide_eq_true_eq]
    omega

theorem strictTotal_less (heap : ℕ → Timer Cb) : StrictTotal (less heap) where
  irrefl a := by
    refine Bool.eq_false_iff.2 fun h => ?_
    rw [less_iff] at h
    omega
  trans a b c hab hbc := by
    rw [less_iff] at hab hbc ⊢
    omega
  tri a b := by
    rw [less_iff, less_iff]
    omega

theorem less_congr {heap' : ℕ → Timer Cb} {a b : ℕ} (ha : (heap' a).next = (heap a).next)
    (hb : (heap' b).next = (heap b).next) : less heap' a b = less heap a b := by
  rw [Bool.eq_iff_iff, less_iff, less_iff, ha, hb]

namespace TimerManager

variable {m : TimerManager Cb} {now probe a : ℕ}

/-- The set is sorted, and its timers have callbacks. -/
structure Valid (m : TimerManager Cb) : Prop where
  sorted : OrderedSet.Sorted (less m.heap) m.timers
  cb (a : ℕ) : a ∈ m.timers → (m.heap a).cb.isSome

theorem sorted_store {t : Timer Cb} (h : OrderedSet.Sorted (less m.heap) m.timers)
    (ha : a ∉ m.timers) : OrderedSet.Sorted (less (m.store a t).heap) m.timers := by
  have hother : ∀ b ∈ m.timers, (m.store a t).heap b = m.heap b := by
    intro b hb
    have hba : b ≠ a := fun h => ha (h ▸ hb)
    exact update_of_ne hba ..
  refine h.congr fun b hb c hc => less_congr ?_ ?_
  · rw [hother b hb]
  · rw [hother c hc]

theorem next_le_of_sorted (h : OrderedSet.Sorted (less m.heap) m.timers) :
    m.timers.Pairwise fun a b => (m.heap a).next ≤ (m.heap b).next := by
  refine List.Pairwise.imp (fun {a b} hab => ?_) h
  rw [less_iff] at hab
  omega

/-- What is less than the probe is due; of the rest, the timers that are due are due now. -/
theorem less_probe_iff (hprobe : probe ∉ m.timers) (ha : a ∈ m.timers) :
    less (Function.update m.heap probe (.probe now)) a probe = true ↔
      (m.heap a).next < now ∨ (m.heap a).next = now ∧ a < probe := by
  have hne : a ≠ probe := fun h => hprobe (h ▸ ha)
  rw [less_iff, update_self, update_of_ne hne]
  rfl

def due (m : TimerManager Cb) (now a : ℕ) : Bool :=
  (m.deleteClockRollover now).2 || decide ((m.heap a).next ≤ now)

theorem expiredEnd_eq (h : OrderedSet.Sorted (less m.heap) m.timers) (hprobe : probe ∉ m.timers) :
    m.expiredEnd now probe false =
      (m.timers.takeWhile fun a => decide ((m.heap a).next ≤ now)).length := by
  refine scan_scan ?_ ?_ fun a ha => ?_
  · refine List.Pairwise.imp_of_mem (fun {a b} ha hb hab hp => ?_) h
    rw [less_probe_iff hprobe ha]
    rw [less_probe_iff hprobe hb] at hp
    rw [less_iff] at hab
    omega
  · refine List.Pairwise.imp (fun {a b} hab hb => ?_) (next_le_of_sorted h)
    simp only [decide_eq_true_eq] at hb ⊢
    omega
  · rw [Bool.eq_iff_iff, Bool.or_eq_true, less_probe_iff hprobe ha]
    simp only [decide_eq_true_eq, beq_iff_eq]
    omega

theorem split_expiredEnd (now : ℕ) (h : OrderedSet.Sorted (less m.heap) m.timers)
    (hprobe : probe ∉ m.timers) :
    m.timers.take (m.expiredEnd now probe (m.deleteClockRollover now).2) =
        m.timers.filter (m.due now) ∧
      m.timers.drop (m.expiredEnd now probe (m.deleteClockRollover now).2) =
        m.timers.filter fun a => !m.due now a := by
  cases hroll : (m.deleteClockRollover now).2 with
  | true =>
    have hall : ∀ a, m.due now a = true := fun a => by rw [due, hroll, Bool.true_or]
    have hend : m.expiredEnd now probe true = m.timers.length := by
      simp [expiredEnd]
    rw [hend, take_length, drop_length]
    refine ⟨(filter_eq_self.2 fun a _ => hall a).symm, ?_⟩
    exact (filter_eq_nil_iff.2 fun a _ => by simp [hall a]).symm
  | false =>
    have hdue : m.due now = fun a => decide ((m.heap a).next ≤ now) := by
      funext a
      rw [due, hroll, Bool.false_or]
    have hpairwise : m.timers.Pairwise fun a b =>
        decide ((m.heap b).next ≤ now) = true → decide ((m.heap a).next ≤ now) = true := by
      refine List.Pairwise.imp (fun {a b} hab hb => ?_) (next_le_of_sorted h)
      simp only [decide_eq_true_eq] at hb ⊢
      omega
    rw [expiredEnd_eq h hprobe, hdue]
    exact ⟨take_takeWhile hpairwise, drop_takeWhile hpairwise⟩

theorem rollover_iff (now : ℕ) (hhour : 60 * 60 * 1000 ≤ m.previousTime)
    (h64 : m.previousTime < 2 ^ 64) :
    (m.deleteClockRollover now).2 = true ↔ now + 60 * 60 * 1000 < m.previousTime := by
  have hsub : sub64 m.previousTime (60 * 60 * 1000) = m.previousTime - 60 * 60 * 1000 := by
    unfold sub64
    omega
  simp only [deleteClockRollover, decide_eq_true_eq, hsub]
  omega

def fired (now : ℕ) (t : Timer Cb) : Timer Cb :=
  if t.recurring then { t with next := add64 now t.ms } else { t with cb := none }

structure Expired (now : ℕ) (expired : List ℕ) (m r : TimerManager Cb) : Prop where
  heap (a : ℕ) : r.heap a = if a ∈ expired then fired now (m.heap a) else m.heap a
  sorted : OrderedSet.Sorted (less r.heap) r.timers
  mem (a : ℕ) : a ∈ r.timers ↔ a ∈ m.timers ∨ a ∈ expired ∧ (m.heap a).recurring = true
  tickled : r.tickled = m.tickled

theorem heap_fire (m : TimerManager Cb) (now a : ℕ) :
    (m.fire now a).heap = Function.update m.heap a (fired now (m.heap a)) := by
  unfold fire fired
  dsimp only
  split <;> rfl

theorem tickled_fire (m : TimerManager Cb) (now a : ℕ) : (m.fire now a).tickled = m.tickled := by
  unfold fire
  dsimp only
  split <;> rfl

theorem mem_fire {b : ℕ} : b ∈ (m.fire now a).timers ↔
    b ∈ m.timers ∨ b = a ∧ (m.heap a).recurring = true := by
  unfold fire
  dsimp only
  split_ifs with hr
  · rw [insert, mem_insert (strictTotal_less _)]
    simp only [hr, and_true]
    exact or_comm
  · simp [hr, store]

theorem sorted_fire (h : OrderedSet.Sorted (less m.heap) m.timers) (ha : a ∉ m.timers) :
    OrderedSet.Sorted (less (m.fire now a).heap) (m.fire now a).timers := by
  unfold fire
  dsimp only
  split_ifs
  · exact sorted_insert (strictTotal_less _) (sorted_store h ha)
  · exact sorted_store h ha

theorem expire_spec (now : ℕ) (expired : List ℕ) (m : TimerManager Cb) (cbs : List (Option Cb))
    (hnodup : expired.Nodup) (hout : ∀ a ∈ expired, a ∉ m.timers)
    (hsorted : OrderedSet.Sorted (less m.heap) m.timers) :
    (expire now expired m cbs).2 = cbs ++ expired.map (fun a => (m.heap a).cb) ∧
      Expired now expired m (expire now expired m cbs).1 := by
  induction expired generalizing m cbs with
  | nil =>
    refine ⟨(append_nil cbs).symm, fun a => ?_, hsorted, fun a => ?_, rfl⟩
    · rw [if_neg not_mem_nil]
      rfl
    · simp [expire]
  | cons a expired ih =>
    obtain ⟨ha, hnodup⟩ := nodup_cons.1 hnodup
    have hother : ∀ b, b ≠ a → (m.fire now a).heap b = m.heap b := fun b hb => by
      rw [heap_fire, update_of_ne hb]
    have hne : ∀ b ∈ expired, b ≠ a := fun b hb hba => ha (hba ▸ hb)
    obtain ⟨hcbs, hheap, hsort, hmem, htickled⟩ := ih (m.fire now a) (cbs ++ [(m.heap a).cb]) hnodup
      (fun b hb hbm => (mem_fire.1 hbm).elim (hout b (mem_cons_of_mem a hb)) fun h => hne b hb h.1)
      (sorted_fire hsorted (hout a mem_cons_self))
    rw [expire]
    refine ⟨?_, fun b => ?_, hsort, fun b => ?_, htickled.trans (tickled_fire m now a)⟩
    · have hmap : expired.map (fun b => ((m.fire now a).heap b).cb) =
          expired.map (fun b => (m.heap b).cb) :=
        map_congr_left fun b hb => by rw [hother b (hne b hb)]
      rw [hcbs, hmap, append_assoc, map_cons, singleton_append]
    · rw [hheap b]
      by_cases hba : b = a
      · rw [hba, if_neg ha, if_pos mem_cons_self, heap_fire, update_self]
      · rw [hother b hba]
        simp [hba]
    · rw [hmem b, mem_fire, mem_cons]
      by_cases hba : b = a
      · rw [hba]
        tauto
      · rw [hother b hba]
        tauto

theorem not_due_of_first {first : ℕ} {rest : List ℕ} (hm : m.timers = first :: rest)
    (h : OrderedSet.Sorted (less m.heap) m.timers) (hno : (m.deleteClockRollover now).2 = false)
    (hfirst : now < (m.heap first).next) : ∀ b ∈ m.timers, m.due now b = false := by
  intro b hb
  have hle : (m.heap first).next ≤ (m.heap b).next := by
    have hsorted := next_le_of_sorted h
    rw [hm] at hb hsorted
    rcases mem_cons.1 hb with rfl | hb
    · exact le_rfl
    · exact (pairwise_cons.1 hsorted).1 b hb
  rw [due, hno, Bool.false_or]
  refine decide_eq_false ?_
  omega

def keep (m : TimerManager Cb) (now : ℕ) : TimerManager Cb :=
  { m with timers := m.timers.filter fun a => !m.due now a }

theorem sorted_keep (h : OrderedSet.Sorted (less m.heap) m.timers) :
    OrderedSet.Sorted (less (m.keep now).heap) (m.keep now).timers :=
  List.Pairwise.sublist filter_sublist h

theorem expired_of_none (now : ℕ) {r : TimerManager Cb}
    (h : OrderedSet.Sorted (less m.heap) m.timers)
    (hnone : ∀ b ∈ m.timers, m.due now b = false) (hheap : r.heap = m.heap)
    (htimers : r.timers = m.timers) (htickled : r.tickled = m.tickled) :
    m.timers.filter (m.due now) = [] ∧
      Expired now (m.timers.filter (m.due now)) (m.keep now) r := by
  have hnil : m.timers.filter (m.due now) = [] :=
    filter_eq_nil_iff.2 fun b hb => by simp [hnone b hb]
  have hall : (m.keep now).timers = m.timers :=
    filter_eq_self.2 fun b hb => by simp [hnone b hb]
  refine ⟨hnil, fun a => ?_, ?_, fun a => ?_, htickled⟩
  · rw [hnil, if_neg not_mem_nil, hheap]
    rfl
  · rw [hheap, htimers]
    exact h
  · rw [htimers, hall, hnil]
    simp

theorem listExpiredCb_expired (now : ℕ) (h : OrderedSet.Sorted (less m.heap) m.timers)
    (cbs : List (Option Cb)) (hprobe : probe ∉ m.timers) :
    (m.listExpiredCb now probe cbs).2 =
        cbs ++ (m.timers.filter (m.due now)).map (fun a => (m.heap a).cb) ∧
      Expired now (m.timers.filter (m.due now)) (m.keep now)
        (m.listExpiredCb now probe cbs).1 := by
  cases hm : m.timers with
  | nil =>
    have hlist : m.listExpiredCb now probe cbs = (m, cbs) := by
      unfold listExpiredCb
      rw [hm]
    rw [← hm, hlist]
    obtain ⟨hnil, hexp⟩ := expired_of_none now (r := m) h
      (fun b hb => by rw [hm] at hb; cases hb) rfl rfl rfl
    exact ⟨by rw [hnil]; simp, hexp⟩
  | cons first rest =>
    rw [← hm]
    by_cases hearly : (m.deleteClockRollover now).2 = false ∧ (m.heap first).next > now
    · have hlist : m.listExpiredCb now probe cbs = ((m.deleteClockRollover now).1, cbs) := by
        unfold listExpiredCb
        rw [hm]
        simp [hearly]
      rw [hlist]
      obtain ⟨hnil, hexp⟩ := expired_of_none now (r := (m.deleteClockRollover now).1) h
        (not_due_of_first hm h hearly.1 hearly.2) rfl rfl rfl
      exact ⟨by rw [hnil]; simp, hexp⟩
    · obtain ⟨htake, hdrop⟩ := split_expiredEnd now h hprobe
      have hlist : m.listExpiredCb now probe cbs = expire now (m.timers.filter (m.due now))
          { (m.deleteClockRollover now).1 with timers := (m.keep now).timers } cbs := by
        have hguard : ¬ (!(m.deleteClockRollover now).2 &&
            decide ((m.heap first).next > now)) = true := by simpa using hearly
        unfold listExpiredCb
        rw [hm]
        dsimp only
        rw [if_neg hguard, ← hm, htake, hdrop]
        rfl
      rw [hlist]
      have hout : ∀ a ∈ m.timers.filter (m.due now), a ∉ (m.keep now).timers := by
        intro a ha hkeep
        have hdue := (mem_filter.1 ha).2
        have hnot := (mem_filter.1 hkeep).2
        rw [hdue] at hnot
        cases hnot
      obtain ⟨hcbs, hheap, hsort, hmem, htickled⟩ := expire_spec now (m.timers.filter (m.due now))
        { (m.deleteClockRollover now).1 with timers := (m.keep now).timers } cbs
        ((h.nodup (strictTotal_less _)).sublist filter_sublist) hout (sorted_keep h)
      exact ⟨hcbs, hheap, hsort, hmem, htickled⟩

/-- The timer expires: its deadline has come, or the clock has gone back by more than an hour. -/
def expires (m : TimerManager Cb) (now a : ℕ) : Bool :=
  decide (now + 60 * 60 * 1000 < m.previousTime ∨ (m.heap a).next ≤ now)

theorem due_eq_expires (hhour : 60 * 60 * 1000 ≤ m.previousTime) (h64 : m.previousTime < 2 ^ 64) :
    m.due now = m.expires now := by
  funext a
  rw [Bool.eq_iff_iff, due, Bool.or_eq_true, rollover_iff now hhour h64, decide_eq_true_eq, expires,
    decide_eq_true_eq]

/-- `listExpiredCb` appends the callbacks of the timers that are due in the order of deadline
and address, takes those that do not recur out of the set and clears their callbacks, moves the
others to `now + ms`, and leaves all other timers as they are. -/
theorem listExpiredCb_spec (m : TimerManager Cb) (hm : m.Valid) (now probe : ℕ)
    (cbs : List (Option Cb)) (hprobe : probe ∉ m.timers)
    (hhour : 60 * 60 * 1000 ≤ m.previousTime) (h64 : m.previousTime < 2 ^ 64)
    (hover : ∀ a ∈ m.timers, now + (m.heap a).ms < 2 ^ 64) :
    (m.listExpiredCb now probe cbs).2 =
        cbs ++ (m.timers.filter (m.expires now)).map (fun a => (m.heap a).cb) ∧
      OrderedSet.Sorted (less m.heap) (m.timers.filter (m.expires now)) ∧
      (∀ a, (m.listExpiredCb now probe cbs).1.heap a =
        if a ∈ m.timers ∧ m.expires now a = true then
          if (m.heap a).recurring then { m.heap a with next := now + (m.heap a).ms }
          else { m.heap a with cb := none }
        else m.heap a) ∧
      (m.listExpiredCb now probe cbs).1.Valid ∧
      ∀ a, a ∈ (m.listExpiredCb now probe cbs).1.timers ↔
        a ∈ m.timers ∧ (m.expires now a = true → (m.heap a).recurring = true) := by
  obtain ⟨hcbs, hheap, hsort, hmem, -⟩ := listExpiredCb_expired now hm.sorted cbs hprobe
  rw [← due_eq_expires hhour h64]
  have hheap' : ∀ a, (m.listExpiredCb now probe cbs).1.heap a =
      if a ∈ m.timers ∧ m.due now a = true then
        if (m.heap a).recurring then { m.heap a with next := now + (m.heap a).ms }
        else { m.heap a with cb := none }
      else m.heap a := by
    intro a
    rw [hheap a]
    by_cases ha : a ∈ m.timers ∧ m.due now a = true
    · have hadd : add64 now (m.heap a).ms = now + (m.heap a).ms :=
        Nat.mod_eq_of_lt (hover a ha.1)
      rw [if_pos ha, if_pos (mem_filter.2 ha)]
      change fired now (m.heap a) = _
      rw [fired, hadd]
    · rw [if_neg ha, if_neg fun h => ha (mem_filter.1 h)]
      rfl
  have hmem' : ∀ a, a ∈ (m.listExpiredCb now probe cbs).1.timers ↔
      a ∈ m.timers ∧ (m.due now a = true → (m.heap a).recurring = true) := by
    intro a
    rw [hmem a]
    change a ∈ m.timers.filter (fun a => !m.due now a) ∨ _ ∧ (m.heap a).recurring = true ↔ _
    rw [mem_filter, mem_filter]
    cases m.due now a <;> simp
  refine ⟨hcbs, List.Pairwise.sublist filter_sublist hm.sorted, hheap', ⟨hsort, ?_⟩, hmem'⟩
  intro a ha
  obtain ⟨hat, hrec⟩ := (hmem' a).1 ha
  have hcb := hm.cb a hat
  rw [hheap' a]
  split
  · rename_i hdue
    rw [if_pos (hrec hdue.2)]
    exact hcb
  · exact hcb

/-- A one-shot timer that is overdue, a recurring one that is due now, with an address on the
other side of the probe, and one that is not due. -/
theorem listExpiredCb_spec_three :
    let heap : ℕ → Timer String := fun a =>
      if a = 10 then ⟨false, 5, 4000000, some "a"⟩
      else if a = 20 then ⟨true, 100, 4000007, some "b"⟩ else ⟨false, 9, 4000008, some "c"⟩
    let m : TimerManager String := ⟨heap, [10, 20, 30], false, 4000001⟩
    m.Valid ∧ (m.listExpiredCb 4000007 15 []).2 = [some "a", some "b"] ∧
      (m.listExpiredCb 4000007 15 []).1.Valid := by
  intro heap m
  have hm : m.Valid := by
    refine ⟨?_, ?_⟩
    · change List.Pairwise _ _
      decide
    · change ∀ a ∈ [10, 20, 30], (heap a).cb.isSome = true
      decide
  obtain ⟨hcbs, -, -, hvalid, -⟩ := listExpiredCb_spec m hm 4000007 15 [] (by decide) (by decide)
    (by decide) (by decide)
  exact ⟨hm, hcbs, hvalid⟩

end TimerManager
end JKYi.Timers
