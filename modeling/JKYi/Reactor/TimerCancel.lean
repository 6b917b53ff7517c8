import JKYi.Reactor.TimerQueue

/-!
# Cancelling timers

The two sets of a timer queue hold the same timers, and no assertion fails. A timer that is
cancelled is not run again unless it waits, at that moment, for its turn among the timers that
have expired together.
-/

namespace JKYi.Net

namespace TimerQueue

open List Function

theorem entryLt_strictTotal : StrictTotal entryLt where
  irrefl a := by simp [entryLt]
  trans a b c hab hbc := by
    simp only [entryLt, Bool.or_eq_true, Bool.and_eq_true, decide_eq_true_eq, beq_iff_eq] at *
    omega
  tri a b := by
    obtain ⟨x, m⟩ := a
    obtain ⟨y, n⟩ := b
    simp only [entryLt, Bool.or_eq_true, Bool.and_eq_true, decide_eq_true_eq, beq_iff_eq,
      Prod.mk.injEq]
    omega

def idOf (q : TimerQueue) (e : Entry) : ActiveTimer :=
  (e.2, ((q.heap e.2).map Timer.sequence).getD 0)

/-- The two sets hold the same timers, which are distinct objects, as are those of `batch`,
which have been taken out. -/
structure Inv (q : TimerQueue) (batch : List Entry) : Prop where
  active : q.activeTimers.Perm (q.timers.map q.idOf)
  live : ∀ e ∈ q.timers ++ batch, (q.heap e.2).isSome
  keyed : ∀ e ∈ q.timers, ∀ t ∈ q.heap e.2, t.expiration = e.1
  nodup : ((q.timers ++ batch).map Prod.snd).Nodup
  given : ∀ a, ∀ t ∈ q.heap a, t.sequence ≤ q.numCreated ∧ a < uintptrMax

variable {q : TimerQueue} {batch : List Entry} {a : ℕ} {e : Entry}

theorem idOf_eq {t : Timer} (h : q.heap e.2 = some t) : q.idOf e = (e.2, t.sequence) := by
  simp [idOf, h]

theorem idOf_store (x : Option Timer) (h : e.2 ≠ a) : (q.store a x).idOf e = q.idOf e := by
  simp [idOf, store, update_of_ne h]

theorem Inv.sizesAgree (h : Inv q batch) : q.sizesAgree = true := by
  simp [TimerQueue.sizesAgree, h.active.length_eq]

theorem Inv.store (h : Inv q batch) {x : Option Timer}
    (ha : a ∉ (q.timers ++ batch).map Prod.snd)
    (hx : ∀ t ∈ x, t.sequence ≤ q.numCreated ∧ a < uintptrMax) : Inv (q.store a x) batch := by
  have hne : ∀ e ∈ q.timers ++ batch, e.2 ≠ a := by
    rintro e he rfl
    exact ha (mem_map_of_mem he)
  have hheap : ∀ e ∈ q.timers ++ batch, (q.store a x).heap e.2 = q.heap e.2 :=
    fun e he => update_of_ne (hne e he) _ _
  constructor
  · have hids : q.timers.map (q.store a x).idOf = q.timers.map q.idOf :=
      map_congr_left fun e he => idOf_store x (hne e (mem_append_left _ he))
    change q.activeTimers.Perm (q.timers.map (q.store a x).idOf)
    rw [hids]
    exact h.active
  · intro e he
    rw [hheap e he]
    exact h.live e he
  · intro e he t ht
    rw [hheap e (mem_append_left _ he)] at ht
    exact h.keyed e he t ht
  · exact h.nodup
  · intro b t ht
    rcases eq_or_ne b a with rfl | hb
    · exact hx t (by simpa [TimerQueue.store] using ht)
    · exact h.given b t (by simpa [TimerQueue.store, update_of_ne hb] using ht)

/-- The queue after `insert`. -/
def inserted (q : TimerQueue) (a : ℕ) (t : Timer) : TimerQueue :=
  { q with
    timers := OrderedSet.insert entryLt (t.expiration, a) q.timers
    activeTimers := (a, t.sequence) :: q.activeTimers }

/-- Whether a timer for `expiration` will be the first one. -/
def changes (timers : List Entry) (expiration : ℤ) : Bool := timers.head?.all (expiration < ·.1)

theorem mem_inserted {t : Timer} :
    e ∈ (q.inserted a t).timers ↔ e = (t.expiration, a) ∨ e ∈ q.timers :=
  OrderedSet.mem_insert entryLt_strictTotal

theorem Inv.insert (h : Inv q batch) {t : Timer} (ht : q.heap a = some t)
    (ha : a ∉ (q.timers ++ batch).map Prod.snd) :
    q.insert a = some (changes q.timers t.expiration, q.inserted a t) ∧
      Inv (q.inserted a t) batch := by
  have hentry : (t.expiration, a) ∉ q.timers := fun hmem =>
    ha (mem_map.mpr ⟨_, mem_append_left _ hmem, rfl⟩)
  have hactive : (a, t.sequence) ∉ q.activeTimers := by
    intro hmem
    obtain ⟨e, he, heq⟩ := mem_map.mp (h.active.mem_iff.mp hmem)
    exact ha (mem_map.mpr ⟨e, mem_append_left _ he, congrArg Prod.fst heq⟩)
  have hperm := OrderedSet.perm_insert entryLt_strictTotal hentry
  have hinv : Inv (q.inserted a t) batch := by
    constructor
    · have hid : q.idOf (t.expiration, a) = (a, t.sequence) := idOf_eq ht
      have hids := hperm.map q.idOf
      rw [map_cons, hid] at hids
      exact (h.active.cons _).trans hids.symm
    · intro e he
      rcases mem_append.mp he with he | he
      · rcases mem_inserted.mp he with rfl | he
        · simp [inserted, ht]
        · exact h.live e (mem_append_left _ he)
      · exact h.live e (mem_append_right _ he)
    · intro e he t' ht'
      rcases mem_inserted.mp he with rfl | he
      · have htt : some t' = some t := (show q.heap a = some t' from ht').symm.trans ht
        cases htt
        rfl
      · exact h.keyed e he t' ht'
    · have hall := (hperm.append_right batch).map Prod.snd
      exact hall.nodup_iff.mpr (nodup_cons.mpr ⟨ha, h.nodup⟩)
    · exact h.given
  refine ⟨?_, hinv⟩
  have hsizes := hinv.sizesAgree
  rw [inserted] at hsizes
  simp [TimerQueue.insert, ht, h.sizesAgree, hsizes, hentry, hactive, guard, changes, inserted]
  cases q.timers <;> rfl

theorem Inv.beside (h : Inv q batch) (b : Bool) (canceling : List ActiveTimer) (x : Option ℤ) :
    Inv { q with
      callingExpiredTimers := b
      cancelingTimers := canceling
      timerfd := x } batch :=
  ⟨h.active, h.live, h.keyed, h.nodup, h.given⟩

theorem Inv.nodup_active (h : Inv q batch) : q.activeTimers.Nodup := by
  have haddr := h.nodup
  rw [map_append] at haddr
  have hfst : (q.timers.map q.idOf).map Prod.fst = q.timers.map Prod.snd := by
    rw [map_map]
    rfl
  have hids := List.Nodup.of_map Prod.fst (hfst ▸ haddr.of_append_left)
  exact h.active.nodup_iff.mpr hids

theorem Inv.address_ne (h : Inv q batch) (ha : q.heap a = none) :
    a ∉ (q.timers ++ batch).map Prod.snd := by
  intro hmem
  obtain ⟨e, he, rfl⟩ := mem_map.mp hmem
  have := h.live e he
  rw [ha] at this
  cases this

/-- The queue after `addTimer`. -/
def added (q : TimerQueue) (a : ℕ) (t : Timer) : TimerQueue :=
  { (q.store a (some t)).inserted a t with
    numCreated := q.numCreated + 1
    timerfd := if changes q.timers t.expiration then some t.expiration else q.timerfd }

theorem Inv.addTimer (h : Inv q batch) (ha : q.heap a = none) (hmax : a < uintptrMax)
    (timestamp : ℤ) (interval : Interval) :
    let q' := q.added a ⟨timestamp, interval, q.numCreated + 1⟩
    q.addTimer a timestamp interval = some ((a, q.numCreated + 1), q') ∧ Inv q' batch ∧
      ∀ e ∈ batch, q'.idOf e = q.idOf e := by
  have hmore : Inv { q with numCreated := q.numCreated + 1 } batch :=
    ⟨h.active, h.live, h.keyed, h.nodup, fun b t ht => ⟨(h.given b t ht).1.trans (Nat.le_succ _),
      (h.given b t ht).2⟩⟩
  have hnot := h.address_ne ha
  have hstore := hmore.store (a := a) (x := some ⟨timestamp, interval, q.numCreated + 1⟩) hnot
    (by rintro t ⟨⟩; exact ⟨le_rfl, hmax⟩)
  obtain ⟨hrun, hinv⟩ := hstore.insert (update_self ..) hnot
  refine ⟨?_, hinv.beside .., fun e he => idOf_store _ ?_⟩
  · simp only [TimerQueue.addTimer, hrun, Option.bind_eq_bind, Option.bind_some]
    by_cases hfirst : changes q.timers timestamp = true <;>
      simp [added, inserted, TimerQueue.store, hfirst]
  · rintro rfl
    exact hnot (mem_map_of_mem (mem_append_right _ he))

theorem Inv.erase (h : Inv q batch) (he : e ∈ q.timers) :
    Inv { q with
      timers := q.timers.erase e
      activeTimers := q.activeTimers.erase (q.idOf e) } batch ∧
    e.2 ∉ (q.timers.erase e ++ batch).map Prod.snd := by
  have hperm := perm_cons_erase he
  have hall := (hperm.append_right batch).map Prod.snd
  obtain ⟨hnot, hnodup⟩ := nodup_cons.mp (hall.nodup_iff.mp h.nodup)
  refine ⟨⟨?_, ?_, ?_, hnodup, h.given⟩, hnot⟩
  · have hids := h.active.trans (hperm.map q.idOf)
    have hmem := hids.mem_iff.mpr mem_cons_self
    exact ((perm_cons_erase hmem).symm.trans hids).cons_inv
  · intro e' he'
    apply h.live
    rcases mem_append.mp he' with he' | he'
    · exact mem_append_left _ (mem_of_mem_erase he')
    · exact mem_append_right _ he'
  · intro e' he'
    exact h.keyed e' (mem_of_mem_erase he')

/-- What `cancel` does: the timer is deleted, or it is remembered for the end of the call of
`handleRead`, if there is one. -/
theorem Inv.cancelInLoop (h : Inv q batch) (timer : ActiveTimer) :
    ∃ q', q.cancelInLoop timer = some q' ∧ Inv q' batch ∧ q'.numCreated = q.numCreated ∧
      q'.callingExpiredTimers = q.callingExpiredTimers ∧
      (∀ e ∈ batch, q'.idOf e = q.idOf e) ∧
      q'.activeTimers = q.activeTimers.erase timer ∧
      (q'.cancelingTimers = if timer ∉ q.activeTimers ∧ q.callingExpiredTimers then
        timer :: q.cancelingTimers else q.cancelingTimers) := by
  by_cases hmem : timer ∈ q.activeTimers
  · obtain ⟨e, he, rfl⟩ := mem_map.mp (h.active.mem_iff.mp hmem)
    obtain ⟨t, ht⟩ := Option.isSome_iff_exists.mp (h.live e (mem_append_left _ he))
    obtain ⟨hinv, hnot⟩ := h.erase he
    have hdel := hinv.store (x := none) hnot nofun
    have hkey : (t.expiration, (q.idOf e).1) = e := Prod.ext (h.keyed e he t ht) rfl
    have hheap : q.heap (q.idOf e).1 = some t := ht
    refine ⟨_, ?_, hdel, rfl, rfl, fun e' he' => ?_, rfl, ?_⟩
    · have hsizes := hdel.sizesAgree
      have hsame : ({ q with
          timers := q.timers.erase e
          activeTimers := q.activeTimers.erase (q.idOf e) } : TimerQueue).store e.2 none =
          { q.store (q.idOf e).1 none with
            timers := q.timers.erase (t.expiration, (q.idOf e).1)
            activeTimers := q.activeTimers.erase (q.idOf e) } := by
        rw [hkey]
        rfl
      rw [hsame] at hsizes ⊢
      have hin := hkey.symm ▸ he
      simp [TimerQueue.cancelInLoop, h.sizesAgree, hmem, hheap, hin, hsizes, guard]
    · apply idOf_store
      intro heq
      exact hnot (heq ▸ mem_map_of_mem (mem_append_right _ he'))
    · simp [hmem]
      rfl
  · have herase := erase_of_not_mem hmem
    cases hcalling : q.callingExpiredTimers with
    | false =>
      refine ⟨q, ?_, h, rfl, hcalling, fun _ _ => rfl, herase.symm, by simp⟩
      simp [TimerQueue.cancelInLoop, h.sizesAgree, hmem, hcalling, guard]
    | true =>
      have hinv := h.beside q.callingExpiredTimers (timer :: q.cancelingTimers) q.timerfd
      have hsizes := hinv.sizesAgree
      rw [hcalling] at hsizes
      refine ⟨_, ?_, hinv, rfl, hcalling, fun _ _ => rfl, herase.symm, by simp [hmem]⟩
      simp [TimerQueue.cancelInLoop, h.sizesAgree, hmem, hcalling, hsizes, guard]

theorem eraseActive_spec : ∀ (expired rest : List Entry) (q : TimerQueue),
    (∀ e ∈ expired, (q.heap e.2).isSome) →
    q.activeTimers.Perm ((expired ++ rest).map q.idOf) →
    ∃ active, eraseActive expired q = some { q with activeTimers := active } ∧
      active.Perm (rest.map q.idOf)
  | [], _, q, _, hperm => ⟨q.activeTimers, rfl, hperm⟩
  | e :: expired, rest, q, hlive, hperm => by
    obtain ⟨t, ht⟩ := Option.isSome_iff_exists.mp (hlive e mem_cons_self)
    have hid := idOf_eq ht
    rw [cons_append, map_cons, hid] at hperm
    have hmem := hperm.mem_iff.mpr mem_cons_self
    have hrest := ((perm_cons_erase hmem).symm.trans hperm).cons_inv
    obtain ⟨active, hrun, hactive⟩ := eraseActive_spec expired rest
      { q with activeTimers := q.activeTimers.erase (e.2, t.sequence) }
      (fun e' he' => hlive e' (mem_cons_of_mem _ he')) hrest
    refine ⟨active, ?_, hactive⟩
    simpa [eraseActive, ht, hmem, guard] using hrun

theorem Inv.getExpired (h : Inv q []) (now : ℤ) :
    ∃ r, q.getExpired now = some r ∧ Inv r.2 r.1 ∧ r.2.numCreated = q.numCreated ∧
      r.2.heap = q.heap ∧ (∀ x ∈ r.2.activeTimers, x ∈ q.activeTimers) ∧
      ∀ e ∈ r.1, q.idOf e ∈ q.activeTimers := by
  have hlive : ∀ e ∈ q.timers, (q.heap e.2).isSome :=
    fun e he => h.live e (mem_append_left _ he)
  generalize hlast : OrderedSet.lowerBound entryLt (now, uintptrMax) q.timers = last
  have hsplit := take_append_drop last q.timers
  have hactive := h.active
  rw [← hsplit] at hactive
  obtain ⟨active, hrun, hperm⟩ := eraseActive_spec (q.timers.take last) (q.timers.drop last)
    { q with timers := q.timers.drop last } (fun e he => hlive e (mem_of_mem_take he)) hactive
  have hinv : Inv { q with timers := q.timers.drop last, activeTimers := active }
      (q.timers.take last) := by
    refine ⟨hperm, fun e he => ?_, fun e he => h.keyed e (mem_of_mem_drop he), ?_, h.given⟩
    · rcases mem_append.mp he with he | he
      · exact hlive e (mem_of_mem_drop he)
      · exact hlive e (mem_of_mem_take he)
    · have hnodup := h.nodup
      rw [append_nil, ← hsplit] at hnodup
      exact ((perm_append_comm.map Prod.snd).nodup_iff).mp hnodup
  have hsizes := hinv.sizesAgree
  -- behind the bound no entry is less than the sentry, whose address is above all others
  have hlater : ∀ e ∈ (q.timers.drop last).head?, now < e.1 := by
    intro e he
    have hnot := OrderedSet.not_lt_of_lowerBound (hlast ▸ he)
    obtain ⟨t, ht⟩ := Option.isSome_iff_exists.mp
      (hlive e (mem_of_mem_drop (mem_of_mem_head? he)))
    have hbound := (h.given e.2 t ht).2
    simp only [entryLt, Bool.or_eq_false_iff, Bool.and_eq_false_iff, decide_eq_false_iff_not,
      beq_eq_false_iff_ne] at hnot
    omega
  refine ⟨(q.timers.take last, _), ?_, hinv, rfl, rfl, fun x hx => ?_, fun e he => ?_⟩
  · simp only [TimerQueue.getExpired, h.sizesAgree, guard, if_true, Option.bind_eq_bind,
      Option.pure_def, Option.bind_some]
    rw [hlast, if_pos hlater, Option.bind_some, hrun, Option.bind_some, if_pos hsizes]
    rfl
  · obtain ⟨e, he, rfl⟩ := mem_map.mp (hperm.mem_iff.mp hx)
    exact h.active.mem_iff.mpr (mem_map_of_mem (mem_of_mem_drop he))
  · exact h.active.mem_iff.mpr (mem_map_of_mem (mem_of_mem_take he))

theorem Inv.tail (h : Inv q (e :: batch)) :
    Inv q batch ∧ e.2 ∉ (q.timers ++ batch).map Prod.snd ∧ (q.heap e.2).isSome := by
  have hnodup := (perm_middle.map Prod.snd).nodup_iff.mp h.nodup
  obtain ⟨hnot, hrest⟩ := nodup_cons.mp hnodup
  refine ⟨⟨h.active, fun e' he' => h.live e' ?_, h.keyed, hrest, h.given⟩, hnot, h.live e (by simp)⟩
  rcases mem_append.mp he' with he' | he'
  · exact mem_append_left _ he'
  · exact mem_append_right _ (mem_cons_of_mem _ he')

theorem Inv.idOf_not_mem (h : Inv q batch) (he : e ∈ batch) : q.idOf e ∉ q.activeTimers := by
  intro hmem
  obtain ⟨e', he', heq⟩ := mem_map.mp (h.active.mem_iff.mp hmem)
  have hnodup := h.nodup
  rw [map_append] at hnodup
  exact disjoint_of_nodup_append hnodup (mem_map_of_mem he')
    (mem_map.mpr ⟨e, he, (congrArg Prod.fst heq).symm⟩)

/-- The timers of the batch have been deleted or set again. -/
structure Restarted (q : TimerQueue) (batch : List Entry) (q' : TimerQueue) : Prop where
  inv : Inv q' []
  numCreated : q'.numCreated = q.numCreated
  calling : q'.callingExpiredTimers = q.callingExpiredTimers
  active : ∀ x ∈ q'.activeTimers, x ∈ q.activeTimers ∨
    ∃ e ∈ batch, q.idOf e = x ∧ x ∉ q.cancelingTimers

theorem restartAll_spec (now : ℤ) : ∀ (batch : List Entry) (q : TimerQueue), Inv q batch →
    ∃ q', restartAll now batch q = some q' ∧ Restarted q batch q' := by
  intro batch
  induction batch with
  | nil => exact fun q h => ⟨q, rfl, h, rfl, rfl, fun x hx => .inl hx⟩
  | cons e batch ih =>
    intro q h
    obtain ⟨htail, hnot, hsome⟩ := h.tail
    obtain ⟨t, ht⟩ := Option.isSome_iff_exists.mp hsome
    have hid := idOf_eq ht
    have hne : ∀ e' ∈ batch, e'.2 ≠ e.2 := fun e' he' heq =>
      hnot (heq ▸ mem_map_of_mem (mem_append_right _ he'))
    by_cases hrepeat : t.isRepeat = true ∧ (e.2, t.sequence) ∉ q.cancelingTimers
    · have hstore := htail.store (x := some (t.restart now)) hnot
        (by rintro t' ⟨⟩; exact h.given e.2 t ht)
      obtain ⟨hrun, hinv⟩ := hstore.insert (update_self ..) hnot
      obtain ⟨q', hrun', hinv', hnum, hcalling, hmem⟩ := ih _ hinv
      refine ⟨q', ?_, hinv', hnum, hcalling, fun x hx => ?_⟩
      · simp [restartAll, ht, hrepeat, hrun, hrun']
      · rcases hmem x hx with hx | ⟨e', he', rfl, hcancel⟩
        · rcases mem_cons.mp hx with rfl | hx
          · exact .inr ⟨e, mem_cons_self, hid, hrepeat.2⟩
          · exact .inl hx
        · exact .inr ⟨e', mem_cons_of_mem _ he', (idOf_store _ (hne e' he')).symm, hcancel⟩
    · obtain ⟨q', hrun', hinv', hnum', hcalling', hmem⟩ :=
        ih (q.store e.2 none) (htail.store hnot nofun)
      refine ⟨q', ?_, hinv', hnum', hcalling', fun x hx => ?_⟩
      · simp only [restartAll, ht, Option.bind_eq_bind, Option.bind_some]
        rw [if_neg hrepeat, hrun']
      · rcases hmem x hx with hx | ⟨e', he', rfl, hcancel⟩
        · exact .inl hx
        · exact .inr ⟨e', mem_cons_of_mem _ he', (idOf_store _ (hne e' he')).symm, hcancel⟩

theorem Inv.reset (h : Inv q batch) (now : ℤ) :
    ∃ q', q.reset batch now = some q' ∧ Restarted q batch q' := by
  obtain ⟨q', hrun, hrestarted⟩ := restartAll_spec now batch q h
  simp only [TimerQueue.reset, hrun, Option.bind_eq_bind, Option.bind_some]
  split
  · exact ⟨q', rfl, hrestarted⟩
  · rename_i e rest htimers
    obtain ⟨t, ht⟩ := Option.isSome_iff_exists.mp (hrestarted.inv.live e (by simp [htimers]))
    simp only [ht, Option.bind_some]
    split_ifs
    · exact ⟨_, rfl, { hrestarted with inv := hrestarted.inv.beside .. }⟩
    · exact ⟨q', rfl, hrestarted⟩

end TimerQueue

namespace TimerLoop

open TimerQueue List

def expired (l : TimerLoop) : List Entry := (l.batch.map Batch.expired).getD []

/-- The timers whose callbacks are still to be run by the call of `handleRead` that is going
on. -/
def pending (l : TimerLoop) : List ActiveTimer :=
  ((l.batch.map Batch.todo).getD []).map l.queue.idOf

structure Inv (l : TimerLoop) : Prop where
  queue : l.queue.Inv l.expired
  calling : l.queue.callingExpiredTimers = l.batch.isSome
  todo : ∀ b ∈ l.batch, b.todo <:+ b.expired

variable {l l' : TimerLoop} {timer : ActiveTimer}

theorem Inv.queue_of_batch {o : Option Batch} (h : Inv l) (hbatch : l.batch = o) :
    l.queue.Inv ((o.map Batch.expired).getD []) := by
  subst hbatch
  exact h.queue

theorem Inv.reset {b : Batch} (h : Inv l) (hbatch : l.batch = some b) :
    ∃ q, TimerQueue.reset { l.queue with callingExpiredTimers := false } b.expired b.now = some q ∧
      TimerQueue.Restarted { l.queue with callingExpiredTimers := false } b.expired q :=
  ((h.queue_of_batch hbatch).beside ..).reset b.now

theorem inv_of_initial (h : initial l) : Inv l := by
  obtain ⟨hbatch, htimers, hactive, hcalling, hheap⟩ := h
  refine ⟨⟨?_, ?_, ?_, ?_, ?_⟩, ?_, ?_⟩
  · simp [htimers, hactive]
  · simp [htimers, expired, hbatch]
  · simp [htimers]
  · simp [htimers, expired, hbatch]
  · simp [hheap]
  · simp [hcalling, hbatch]
  · simp [hbatch]

/-- A timer that is not run any more: it is in neither set, its turn has passed if it is among
the expired ones, and it is marked as cancelled then. -/
structure Dead (timer : ActiveTimer) (l : TimerLoop) : Prop where
  given : timer.2 ≤ l.queue.numCreated
  inactive : timer ∉ l.queue.activeTimers
  passed : timer ∉ l.pending
  marked : timer ∈ l.expired.map l.queue.idOf → timer ∈ l.queue.cancelingTimers

theorem pending_congr {q : TimerQueue} (h : Inv l)
    (hid : ∀ e ∈ l.expired, q.idOf e = l.queue.idOf e) :
    pending ⟨q, l.batch⟩ = l.pending ∧
      l.expired.map q.idOf = l.expired.map l.queue.idOf := by
  refine ⟨map_congr_left fun e he => hid e ?_, map_congr_left hid⟩
  cases hbatch : l.batch with
  | none => simp [hbatch] at he
  | some b =>
    simp only [hbatch, Option.map_some, Option.getD_some] at he
    simp only [expired, hbatch, Option.map_some, Option.getD_some]
    exact (h.todo b hbatch).subset he

theorem dead_cancel (h : Inv l) (hs : step l (.cancel timer) l') (hnot : timer ∉ l.pending) :
    Dead timer l' := by
  obtain ⟨-, hgiven, q, hq, rfl⟩ := hs
  obtain ⟨q', hq', -, hnum, hcalling, hid, hactive, hcanceling⟩ := h.queue.cancelInLoop timer
  cases hq.symm.trans hq'
  obtain ⟨hpending, hexpired⟩ := pending_congr h hid
  refine ⟨hnum ▸ hgiven, ?_, hpending ▸ hnot, fun hmem => ?_⟩
  · rw [hactive]
    exact h.queue.nodup_active.not_mem_erase
  · change timer ∈ l.expired.map q.idOf at hmem
    rw [hexpired] at hmem
    obtain ⟨e, he, rfl⟩ := mem_map.mp hmem
    have hout := h.queue.idOf_not_mem he
    have hcall : l.queue.callingExpiredTimers = true := by
      rw [h.calling]
      cases hbatch : l.batch with
      | none => simp [expired, hbatch] at he
      | some b => rfl
    rw [hcanceling, if_pos ⟨hout, hcall⟩]
    exact mem_cons_self

theorem step_keeps {a : Act} (h : Inv l) (hs : step l a l') :
    Inv l' ∧ ∀ timer, Dead timer l → Dead timer l' := by
  cases a with
  | add a timestamp interval =>
    obtain ⟨-, hfree, hmax, r, hr, rfl⟩ := hs
    obtain ⟨hr', hinv, hid⟩ := h.queue.addTimer hfree hmax timestamp interval
    cases hr.symm.trans hr'
    refine ⟨⟨hinv, h.calling, h.todo⟩, fun timer hd => ?_⟩
    obtain ⟨hpending, hexpired⟩ := pending_congr h hid
    have hgiven := hd.given
    refine ⟨hgiven.trans (Nat.le_succ _), fun hmem => ?_, hpending ▸ hd.passed, fun hmem => ?_⟩
    · rcases mem_cons.mp hmem with rfl | hmem
      · exact absurd hgiven (Nat.not_succ_le_self _)
      · exact hd.inactive hmem
    · exact hd.marked (hexpired ▸ hmem)
  | cancel other =>
    obtain ⟨-, -, q, hq, rfl⟩ := hs
    obtain ⟨q', hq', hinv, hnum, hcalling, hid, hactive, hcanceling⟩ :=
      h.queue.cancelInLoop other
    cases hq.symm.trans hq'
    refine ⟨⟨hinv, hcalling.trans h.calling, h.todo⟩, fun timer hd => ?_⟩
    obtain ⟨hpending, hexpired⟩ := pending_congr h hid
    refine ⟨hnum ▸ hd.given, ?_, hpending ▸ hd.passed, fun hmem => ?_⟩
    · rw [hactive]
      exact fun hmem => hd.inactive (mem_of_mem_erase hmem)
    · have hmarked := hd.marked (hexpired ▸ hmem)
      rw [hcanceling]
      split_ifs
      · exact mem_cons_of_mem _ hmarked
      · exact hmarked
  | handleRead now =>
    obtain ⟨hbatch, r, hr, rfl⟩ := hs
    obtain ⟨r', hr', hinv, hnum, hheap, hsub, hids⟩ := (h.queue_of_batch hbatch).getExpired now
    cases hr.symm.trans hr'
    refine ⟨⟨hinv.beside .., rfl, by rintro b ⟨⟩; exact suffix_refl _⟩, fun timer hd => ?_⟩
    have hnone : timer ∉ r.1.map l.queue.idOf := by
      intro hmem
      obtain ⟨e, he, rfl⟩ := mem_map.mp hmem
      exact hd.inactive (hids e he)
    have hsame : TimerQueue.idOf { r.2 with callingExpiredTimers := true, cancelingTimers := [] } =
        l.queue.idOf := by
      funext e
      simp only [idOf, hheap]
    refine ⟨hnum ▸ hd.given, fun hmem => hd.inactive (hsub _ hmem), ?_, fun hmem => ?_⟩
    · rw [pending, hsame]
      exact hnone
    · rw [hsame] at hmem
      exact absurd hmem hnone
  | run other =>
    obtain ⟨b, e, rest, t, hbatch, htodo, -, -, rfl⟩ := hs
    have hsuffix := h.todo b hbatch
    rw [htodo] at hsuffix
    have hqueue := h.queue_of_batch hbatch
    refine ⟨⟨hqueue, h.calling.trans (by rw [hbatch]; rfl), ?_⟩, fun timer hd => ?_⟩
    · rintro b' ⟨⟩
      exact (suffix_cons e rest).trans hsuffix
    · have hpassed := hd.passed
      have hmarked := hd.marked
      simp only [pending, hbatch, Option.map_some, Option.getD_some, htodo, map_cons,
        mem_cons, not_or] at hpassed
      rw [expired, hbatch] at hmarked
      exact ⟨hd.given, hd.inactive, hpassed.2, hmarked⟩
  | finish =>
    obtain ⟨b, hbatch, -, q, hq, rfl⟩ := hs
    obtain ⟨q', hq', hinv, hnum, hcalling, hmem⟩ := h.reset hbatch
    cases hq.symm.trans hq'
    refine ⟨⟨hinv, hcalling, nofun⟩, fun timer hd => ?_⟩
    have hmarked := hd.marked
    rw [expired, hbatch] at hmarked
    refine ⟨hnum ▸ hd.given, fun hin => ?_, by simp [pending], nofun⟩
    rcases hmem timer hin with hin | ⟨e, he, heq, hcancel⟩
    · exact hd.inactive hin
    · exact hcancel (hmarked (mem_map.mpr ⟨e, he, heq⟩))

theorem inv_step {a : Act} (h : Inv l) (hs : step l a l') : Inv l' :=
  (step_keeps h hs).1

theorem mem_pending_of_run (hs : step l (.run timer) l') : timer ∈ l.pending := by
  obtain ⟨b, e, rest, t, hbatch, htodo, ht, rfl, -⟩ := hs
  simp only [pending, hbatch, Option.map_some, Option.getD_some, htodo, map_cons, idOf_eq ht]
  exact mem_cons_self

theorem inv_of_reachable {init : TimerLoop → Prop} (hinit : ∀ l, init l → Inv l)
    (h : Reachable init step (fun _ _ => True) l) : Inv l :=
  h.invariant hinit fun _ _ _ hi _ hs => inv_step hi hs

theorem not_run_of_dead (h : Inv l) (hd : Dead timer l) {l₁ l₂ : TimerLoop} {other : ActiveTimer}
    (hr : Reachable (fun l₁ => l₁ = l) step (fun _ _ => True) l₁) (hs : step l₁ (.run other) l₂) :
    other ≠ timer := by
  have hboth := hr.invariant (P := fun l => Inv l ∧ Dead timer l) (by rintro _ rfl; exact ⟨h, hd⟩)
      fun _ _ _ hi _ hs => (step_keeps hi.1 hs).imp_right fun h => h timer hi.2
  rintro rfl
  exact hboth.2.passed (mem_pending_of_run hs)

theorem step_run {b : Batch} {e : Entry} {rest : List Entry} (h : Inv l) (hbatch : l.batch = some b)
    (htodo : b.todo = e :: rest) : ∃ t, l.queue.heap e.2 = some t ∧
      step l (.run (e.2, t.sequence)) ⟨l.queue, some { b with todo := rest }⟩ := by
  have hsub : e ∈ b.expired := (h.todo b hbatch).subset (by simp [htodo])
  obtain ⟨t, ht⟩ := Option.isSome_iff_exists.mp
    ((h.queue_of_batch hbatch).live e (mem_append_right _ hsub))
  exact ⟨t, ht, b, e, rest, t, hbatch, htodo, ht, rfl, rfl⟩

theorem run_of_pending (n : ℕ) : ∀ l₁, Reachable (fun l₁ => l₁ = l) step (fun _ _ => True) l₁ →
    Inv l₁ → l₁.pending.length = n → timer ∈ l₁.pending →
    ∃ l₂ l₃, Reachable (fun l₁ => l₁ = l) step (fun _ _ => True) l₂ ∧ step l₂ (.run timer) l₃ := by
  induction n with
  | zero =>
    intro l₁ _ _ hlen hmem
    rw [length_eq_zero_iff.mp hlen] at hmem
    cases hmem
  | succ n ih =>
    intro l₁ hr h hlen hmem
    cases hbatch : l₁.batch with
    | none => simp [pending, hbatch] at hmem
    | some b =>
      cases htodo : b.todo with
      | nil => simp [pending, hbatch, htodo] at hmem
      | cons e rest =>
        obtain ⟨t, ht, hrun⟩ := step_run h hbatch htodo
        have hpending : l₁.pending = (e.2, t.sequence) ::
            pending ⟨l₁.queue, some { b with todo := rest }⟩ := by
          simp [pending, hbatch, htodo, idOf_eq ht]
        rw [hpending] at hlen hmem
        rcases mem_cons.mp hmem with rfl | hmem
        · exact ⟨_, _, hr, hrun⟩
        · exact ih _ (hr.andThen hrun trivial) (inv_step h hrun) (Nat.succ.inj hlen) hmem

/-- After a call of `cancel` has returned, the timer is not run in any continuation exactly when
it was not waiting for its turn in a batch of expired timers. -/
theorem cancelled_never_run_iff_not_pending (hr : Reachable initial step (fun _ _ => True) l)
    (hs : step l (.cancel timer) l') :
    (∀ l₁ l₂ other, Reachable (fun l₁ => l₁ = l') step (fun _ _ => True) l₁ →
      step l₁ (.run other) l₂ → other ≠ timer) ↔ timer ∉ l.pending := by
  have h := inv_of_reachable (fun _ => inv_of_initial) hr
  have h' := inv_step h hs
  constructor
  · intro hnever hmem
    have hmem' : timer ∈ l'.pending := by
      obtain ⟨-, -, q, hq, rfl⟩ := hs
      obtain ⟨q', hq', -, -, -, hid, -⟩ := h.queue.cancelInLoop timer
      cases hq.symm.trans hq'
      rw [(pending_congr h hid).1]
      exact hmem
    obtain ⟨l₁, l₂, hr₁, hrun⟩ := run_of_pending _ l' (.start rfl) h' rfl hmem'
    exact hnever l₁ l₂ timer hr₁ hrun rfl
  · intro hnot l₁ l₂ other hr₁ hrun
    exact not_run_of_dead h' (dead_cancel h hs hnot) hr₁ hrun

/-- No assertion fails, and no deleted timer is used, in any run: every step that the thread
can come to can be made. -/
theorem no_assertion_fails (hr : Reachable initial step (fun _ _ => True) l) :
    (l.userCode → (∀ a timestamp interval, l.queue.heap a = none → a < uintptrMax →
        ∃ l', step l (.add a timestamp interval) l') ∧
      ∀ timer : ActiveTimer, timer.2 ≤ l.queue.numCreated → ∃ l', step l (.cancel timer) l') ∧
    (l.batch = none → ∀ now, ∃ l', step l (.handleRead now) l') ∧
    ∀ b, l.batch = some b → if b.todo = [] then ∃ l', step l .finish l'
      else ∃ timer l', step l (.run timer) l' := by
  have h := inv_of_reachable (fun _ => inv_of_initial) hr
  refine ⟨fun huser => ⟨fun a timestamp interval hfree hmax => ?_, fun timer hgiven => ?_⟩,
    fun hbatch now => ?_, fun b hbatch => ?_⟩
  · obtain ⟨hr, -⟩ := h.queue.addTimer hfree hmax timestamp interval
    exact ⟨_, huser, hfree, hmax, _, hr, rfl⟩
  · obtain ⟨q, hq, -⟩ := h.queue.cancelInLoop timer
    exact ⟨_, huser, hgiven, q, hq, rfl⟩
  · obtain ⟨r, hr, -⟩ := (h.queue_of_batch hbatch).getExpired now
    exact ⟨_, hbatch, r, hr, rfl⟩
  · cases htodo : b.todo with
    | nil =>
      obtain ⟨q, hq, -⟩ := h.reset hbatch
      rw [if_pos rfl]
      exact ⟨_, b, hbatch, htodo, q, hq, rfl⟩
    | cons e rest =>
      obtain ⟨t, -, hrun⟩ := step_run h hbatch htodo
      rw [if_neg (cons_ne_nil _ _)]
      exact ⟨_, _, hrun⟩

def empty : TimerLoop := ⟨⟨fun _ => none, 0, [], [], false, [], none⟩, none⟩

theorem initial_empty : initial empty := ⟨rfl, rfl, rfl, rfl, fun _ => rfl⟩

def onceAt (sequence : ℕ) : Option Timer := some ⟨10, ⟨false, 0⟩, sequence⟩

def oneTimer : TimerQueue :=
  ⟨Function.update (fun _ => none) 1 (onceAt 1), 1, [(10, 1)], [(1, 1)], false, [], some 10⟩

def twoTimers : TimerQueue :=
  ⟨Function.update oneTimer.heap 2 (onceAt 2), 2, [(10, 1), (10, 2)], [(2, 2), (1, 1)], false, [],
    some 10⟩

def bothTaken (canceling : List ActiveTimer) (todo : List Entry) : TimerLoop :=
  ⟨⟨twoTimers.heap, 2, [], [], true, canceling, some 10⟩, some ⟨10, [(10, 1), (10, 2)], todo⟩⟩

/-- Two timers expire together, and the first one's callback has begun. -/
theorem reachable_bothTaken :
    Reachable initial step (fun _ _ => True) (bothTaken [] [(10, 2)]) := by
  have hone : step empty (.add 1 10 ⟨false, 0⟩) ⟨oneTimer, none⟩ :=
    ⟨nofun, rfl, by decide, ((1, 1), oneTimer), rfl, rfl⟩
  have htwo : step ⟨oneTimer, none⟩ (.add 2 10 ⟨false, 0⟩) ⟨twoTimers, none⟩ :=
    ⟨nofun, rfl, by decide, ((2, 2), twoTimers), rfl, rfl⟩
  have hread : step ⟨twoTimers, none⟩ (.handleRead 10) (bothTaken [] [(10, 1), (10, 2)]) :=
    ⟨rfl, ([(10, 1), (10, 2)], { twoTimers with timers := [], activeTimers := [] }), rfl, rfl⟩
  have hfirst : step (bothTaken [] [(10, 1), (10, 2)]) (.run (1, 1)) (bothTaken [] [(10, 2)]) :=
    ⟨_, _, _, _, rfl, rfl, rfl, rfl, rfl⟩
  exact ((((Reachable.start initial_empty).andThen hone trivial).andThen htwo trivial).andThen hread
    trivial).andThen hfirst trivial

theorem step_cancel_bothTaken (timer : ActiveTimer) (h : timer.2 ≤ 2) :
    step (bothTaken [] [(10, 2)]) (.cancel timer) (bothTaken [timer] [(10, 2)]) :=
  ⟨by rintro b ⟨⟩; decide, h, _, rfl, rfl⟩

/-- The callback of the first timer cancels that timer, which is over, or the second one. -/
theorem cancelled_never_run_iff_not_pending_batch :
    ∃ l l₁ l₂, step l (.cancel (1, 1)) l₁ ∧ step l (.cancel (2, 2)) l₂ ∧
      (∀ l₃ l₄ other, Reachable (fun l => l = l₁) step (fun _ _ => True) l₃ →
        step l₃ (.run other) l₄ → other ≠ (1, 1)) ∧
      ¬ ∀ l₃ l₄ other, Reachable (fun l => l = l₂) step (fun _ _ => True) l₃ →
        step l₃ (.run other) l₄ → other ≠ (2, 2) := by
  have hone := step_cancel_bothTaken (1, 1) (by decide)
  have htwo := step_cancel_bothTaken (2, 2) (by decide)
  refine ⟨_, _, _, hone, htwo,
    (cancelled_never_run_iff_not_pending reachable_bothTaken hone).mpr (by decide), fun h => ?_⟩
  exact (cancelled_never_run_iff_not_pending reachable_bothTaken htwo).mp h (by decide)

/-- The first one's callback cancels the second one, which is run all the same. -/
theorem cancelled_timer_run :
    ∃ l l' l₁, Reachable initial step (fun _ _ => True) l ∧ step l (.cancel (2, 2)) l' ∧
      step l' (.run (2, 2)) l₁ := by
  have hsecond : step (bothTaken [(2, 2)] [(10, 2)]) (.run (2, 2)) (bothTaken [(2, 2)] []) :=
    ⟨_, _, _, _, rfl, rfl, rfl, rfl, rfl⟩
  exact ⟨_, _, _, reachable_bothTaken, step_cancel_bothTaken (2, 2) (by decide), hsecond⟩

end TimerLoop
end JKYi.Net
