import JKYi.Timer.Poller

/-!
# No deadline is missed without a call

A refreshed timer and a recurring one that goes back into the set have a later
deadline than before, as long as the clock does not go back; any other timer that
comes to the front is announced, or was preceded by one that was since the last
`getNextTimer`.
-/

namespace JKYi.Timers

open OrderedSet TimerManager List Function

variable {W Cb : Type}

structure Dated (clock : ℕ) (t : Timer Cb) : Prop where
  start : t.ms ≤ t.next
  past : t.next ≤ clock + t.ms
  fits : t.next < 2 ^ 64

theorem Dated.mono {clock clock' : ℕ} {t : Timer Cb} (h : Dated clock t) (hc : clock ≤ clock') :
    Dated clock' t :=
  ⟨h.start, h.past.trans (Nat.add_le_add_right hc _), h.fits⟩

theorem add64_eq {a b : ℕ} (h : a + b < 2 ^ 64) : add64 a b = a + b := Nat.mod_eq_of_lt h

theorem sub64_eq {a b : ℕ} (hb : b ≤ a) (ha : a < 2 ^ 64) : sub64 a b = a - b := by
  unfold sub64
  omega

theorem dated_of_add {clock start : ℕ} {t : Timer Cb} (hnext : t.next = add64 start t.ms)
    (hstart : start ≤ clock) (hover : start + t.ms < 2 ^ 64) : Dated clock t := by
  rw [add64_eq hover] at hnext
  exact ⟨by omega, by omega, by omega⟩

namespace TimerManager

variable {m m' : TimerManager Cb} {clock now a b i : ℕ} {t : Timer Cb}

def Later (m m' : TimerManager Cb) : Prop :=
  m.tickled = false → m'.tickled = false ∧
    ∀ b ∈ m'.timers, ∃ c ∈ m.timers, (m.heap c).next ≤ (m'.heap b).next

theorem Later.refl (m : TimerManager Cb) : Later m m := fun h => ⟨h, fun b hb => ⟨b, hb, le_rfl⟩⟩

theorem Later.trans {m'' : TimerManager Cb} (h : Later m m') (h' : Later m' m'') :
    Later m m'' := by
  intro htickled
  obtain ⟨htickled', hlater⟩ := h htickled
  obtain ⟨htickled'', hlater'⟩ := h' htickled'
  refine ⟨htickled'', fun b hb => ?_⟩
  obtain ⟨c, hc, hcb⟩ := hlater' b hb
  obtain ⟨d, hd, hdc⟩ := hlater c hc
  exact ⟨d, hd, hdc.trans hcb⟩

structure Kept (clock : ℕ) (m : TimerManager Cb) : Prop where
  sorted : OrderedSet.Sorted (less m.heap) m.timers
  dated (a : ℕ) : a ∈ m.timers → Dated clock (m.heap a)

/-- A critical section that changes timers of the set only. -/
structure Section (clock : ℕ) (m m' : TimerManager Cb) : Prop where
  kept : Kept clock m'
  outside (b : ℕ) : b ∉ m.timers → b ∉ m'.timers ∧ m'.heap b = m.heap b

theorem Section.refl (h : Kept clock m) : Section clock m m := ⟨h, fun _ hb => ⟨hb, rfl⟩⟩

theorem mem_eraseIdx (h : OrderedSet.Sorted (less m.heap) m.timers)
    (hi : m.find a = some i) : b ∈ (m.eraseIdx i).timers ↔ b ≠ a ∧ b ∈ m.timers := by
  have hnodup := h.nodup (strictTotal_less _)
  rw [eraseIdx, eraseIdx_find (strictTotal_less _) hi, hnodup.mem_erase_iff]

theorem sorted_eraseIdx (i : ℕ) (h : OrderedSet.Sorted (less m.heap) m.timers) :
    OrderedSet.Sorted (less (m.eraseIdx i).heap) (m.eraseIdx i).timers :=
  List.Pairwise.sublist (eraseIdx_sublist _ _) h

theorem mem_of_find (hi : m.find a = some i) : a ∈ m.timers := by
  by_contra ha
  rw [find, (find_eq_none_iff (strictTotal_less _)).2 ha] at hi
  cases hi

theorem kept_moved (h : OrderedSet.Sorted (less m.heap) m.timers) (hi : m.find a = some i) :
    OrderedSet.Sorted (less ((m.eraseIdx i).store a t).heap) ((m.eraseIdx i).store a t).timers ∧
      ∀ b, b ∈ ((m.eraseIdx i).store a t).timers ↔ b ≠ a ∧ b ∈ m.timers := by
  have hout : a ∉ (m.eraseIdx i).timers := fun ha => ((mem_eraseIdx h hi).1 ha).1 rfl
  exact ⟨sorted_store (sorted_eraseIdx i h) hout, fun b => mem_eraseIdx h hi⟩

theorem later_moved (h : Kept clock m) (hi : m.find a = some i) :
    Later m ((m.eraseIdx i).store a t) := by
  intro htickled
  obtain ⟨-, hmoved⟩ := kept_moved (t := t) h.sorted hi
  refine ⟨htickled, fun b hb => ?_⟩
  obtain ⟨hba, hbm⟩ := (hmoved b).1 hb
  refine ⟨b, hbm, ?_⟩
  change _ ≤ (update m.heap a t b).next
  rw [update_of_ne hba]

theorem mem_insert : b ∈ (m.insert a).timers ↔ b = a ∨ b ∈ m.timers :=
  OrderedSet.mem_insert (strictTotal_less _)

theorem addTimer_fields (m : TimerManager Cb) (a : ℕ) :
    (m.addTimer a).1.heap = m.heap ∧ (m.addTimer a).1.timers = (m.insert a).timers ∧
      ((m.addTimer a).2 = false → (m.addTimer a).1.tickled = m.tickled) := by
  unfold addTimer
  dsimp only
  split
  · rename_i h
    exact ⟨rfl, rfl, fun hflag => absurd h (by rw [hflag]; exact Bool.false_ne_true)⟩
  · exact ⟨rfl, rfl, fun _ => rfl⟩

theorem addTimer_later (hflag : (m.addTimer a).2 = false) : Later m (m.addTimer a).1 := by
  intro htickled
  obtain ⟨hheap, htimers, hkeep⟩ := addTimer_fields m a
  refine ⟨(hkeep hflag).trans htickled, fun b hb => ?_⟩
  rw [htimers] at hb
  rw [hheap]
  rcases mem_insert.1 hb with rfl | hb
  · rcases head_insert (less m.heap) b m.timers with hfront | ⟨c, hc, -, hless⟩
    · have hset : (m.addTimer b).2 = true := by
        simp [addTimer, insert, hfront, htickled]
      rw [hset] at hflag
      cases hflag
    · refine ⟨c, mem_of_mem_head? hc, ?_⟩
      have hnot := (less_iff m.heap b c).not.1 (Bool.eq_false_iff.1 hless)
      omega
  · exact ⟨b, hb, le_rfl⟩

theorem Kept.addTimer (h : Kept clock m) (ha : Dated clock (m.heap a)) :
    Kept clock (m.addTimer a).1 := by
  obtain ⟨hheap, htimers, -⟩ := addTimer_fields m a
  refine ⟨?_, fun b hb => ?_⟩
  · rw [hheap, htimers]
    exact sorted_insert (strictTotal_less _) h.sorted
  · rw [htimers] at hb
    rw [hheap]
    rcases mem_insert.1 hb with rfl | hb
    · exact ha
    · exact h.dated b hb

theorem sorted_moved {r : TimerManager Cb}
    (h : OrderedSet.Sorted (less m.heap) m.timers) (hi : m.find a = some i)
    (hheap : r.heap = ((m.eraseIdx i).store a t).heap)
    (htimers : r.timers = (((m.eraseIdx i).store a t).insert a).timers) :
    OrderedSet.Sorted (less r.heap) r.timers ∧ r.heap = update m.heap a t ∧
      ∀ b, b ∈ r.timers ↔ b ∈ m.timers := by
  obtain ⟨hsorted, hmoved⟩ := kept_moved (t := t) h hi
  refine ⟨?_, hheap, fun b => ?_⟩
  · rw [htimers, hheap]
    exact sorted_insert (strictTotal_less _) hsorted
  · rw [htimers, mem_insert, hmoved]
    by_cases hba : b = a
    · simp [hba, mem_of_find hi]
    · simp [hba]

theorem section_moved {r : TimerManager Cb} (h : Kept clock m) (hi : m.find a = some i)
    (ht : Dated clock t) (hheap : r.heap = ((m.eraseIdx i).store a t).heap)
    (htimers : r.timers = (((m.eraseIdx i).store a t).insert a).timers) :
    Section clock m r ∧ r.heap = update m.heap a t ∧
      ∀ b, b ∈ r.timers ↔ b ∈ m.timers := by
  obtain ⟨hsorted, hupdate, hmem⟩ := sorted_moved h.sorted hi hheap htimers
  refine ⟨⟨⟨hsorted, fun b hb => ?_⟩, fun b hb => ⟨fun hbr => hb ((hmem b).1 hbr), ?_⟩⟩,
    hupdate, hmem⟩
  · rw [hupdate]
    by_cases hba : b = a
    · rw [hba, update_self]
      exact ht
    · rw [update_of_ne hba]
      exact h.dated b ((hmem b).1 hb)
  · have hba : b ≠ a := fun hba => hb (hba ▸ mem_of_find hi)
    rw [hupdate, update_of_ne hba]

def clear (m : TimerManager Cb) (a : ℕ) : TimerManager Cb :=
  m.store a { m.heap a with cb := none }

theorem clear_dates (m : TimerManager Cb) (a b : ℕ) :
    ((m.clear a).heap b).next = (m.heap b).next ∧ ((m.clear a).heap b).ms = (m.heap b).ms := by
  revert b
  refine (forall_update_iff m.heap fun b t => t.next = _ ∧ t.ms = (m.heap b).ms).2 ⟨⟨rfl, rfl⟩, ?_⟩
  exact fun _ _ => ⟨rfl, rfl⟩

theorem Kept.clear (h : Kept clock m) (a : ℕ) : Kept clock (m.clear a) := by
  refine ⟨h.sorted.congr fun b _ c _ => ?_, fun b hb => ?_⟩
  · exact less_congr (m.clear_dates a b).1 (m.clear_dates a c).1
  · have hdated := h.dated b hb
    obtain ⟨hnext, hms⟩ := m.clear_dates a b
    refine ⟨?_, ?_, ?_⟩
    · rw [hnext, hms]
      exact hdated.start
    · rw [hnext, hms]
      exact hdated.past
    · rw [hnext]
      exact hdated.fits

theorem cancel_section {r : TimerManager Cb × Bool} (h : Kept clock m)
    (hr : m.cancel a = some r) : Section clock m r.1 ∧ Later m r.1 := by
  unfold cancel at hr
  split at hr
  · dsimp only at hr
    split at hr
    · cases hr
    · rename_i i hi
      cases hr
      have hclear := h.clear a
      have hfind := hi
      have hmem : ∀ b, b ∈ ((m.clear a).eraseIdx i).timers ↔ b ≠ a ∧ b ∈ m.timers :=
        fun b => mem_eraseIdx hclear.sorted hfind
      have ha := mem_of_find hfind
      refine ⟨⟨⟨sorted_eraseIdx i hclear.sorted, fun b hb => ?_⟩, fun b hb => ?_⟩,
        fun htickled => ⟨htickled, fun b hb => ?_⟩⟩
      · exact hclear.dated b ((hmem b).1 hb).2
      · have hba : b ≠ a := fun hba => hb (hba ▸ ha)
        exact ⟨fun hbm => hb ((hmem b).1 hbm).2, update_of_ne hba ..⟩
      · exact ⟨b, ((hmem b).1 hb).2, (m.clear_dates a b).1.ge⟩
  · cases hr
    exact ⟨.refl h, .refl m⟩

theorem refresh_section (h : Kept clock m) (hover : clock + (m.heap a).ms < 2 ^ 64) :
    Section clock m (m.refresh clock a).1 ∧ Later m (m.refresh clock a).1 := by
  unfold refresh
  split
  · exact ⟨.refl h, .refl m⟩
  · split
    · exact ⟨.refl h, .refl m⟩
    · rename_i i hi
      have ha := mem_of_find hi
      set t : Timer Cb := { m.heap a with next := add64 clock (m.heap a).ms }
      have ht : Dated clock t := dated_of_add rfl le_rfl hover
      obtain ⟨hsection, hupdate, hmem⟩ := section_moved (t := t)
        (r := ((m.eraseIdx i).store a t).insert a) h hi ht rfl rfl
      refine ⟨hsection, fun htickled => ⟨htickled, fun b hb => ⟨b, (hmem b).1 hb, ?_⟩⟩⟩
      change _ ≤ ((((m.eraseIdx i).store a t).insert a).heap b).next
      rw [hupdate]
      by_cases hba : b = a
      · rw [hba, update_self]
        exact (h.dated a ha).past.trans (add64_eq hover).ge
      · rw [update_of_ne hba]

theorem resetLocked_section {ms : ℕ} {fromNow : Bool} (h : Kept clock m)
    (hover : (if fromNow then clock else (m.heap a).next - (m.heap a).ms) + ms < 2 ^ 64) :
    Section clock m (m.resetLocked clock a ms fromNow).1 ∧
      ((m.resetLocked clock a ms fromNow).2.2 = false →
        Later m (m.resetLocked clock a ms fromNow).1) := by
  unfold resetLocked
  split
  · exact ⟨.refl h, fun _ => .refl m⟩
  · split
    · exact ⟨.refl h, fun _ => .refl m⟩
    · rename_i i hi
      have hdated := h.dated a (mem_of_find hi)
      set start := if fromNow then clock else sub64 (m.heap a).next (m.heap a).ms with hstart
      have hsub := sub64_eq hdated.start hdated.fits
      have hpast : start ≤ clock := by
        rw [hstart, hsub]
        have := hdated.past
        split <;> omega
      set t : Timer Cb := { m.heap a with ms := ms, next := add64 start ms }
      have ht : Dated clock t := by
        refine dated_of_add rfl hpast ?_
        rw [← hsub] at hover
        exact hover
      obtain ⟨hheap, htimers, -⟩ := addTimer_fields ((m.eraseIdx i).store a t) a
      obtain ⟨hsection, -, -⟩ := section_moved (t := t) h hi ht hheap htimers
      exact ⟨hsection, fun hflag => (later_moved h hi).trans (addTimer_later hflag)⟩

theorem listExpiredCb_section {probe : ℕ} (h : Kept clock m) (hnow : now ≤ clock)
    (hprobe : probe ∉ m.timers) (hroll : (m.deleteClockRollover now).2 = false)
    (hover : ∀ a ∈ m.timers, now + (m.heap a).ms < 2 ^ 64) :
    Section clock m (m.listExpiredCb now probe []).1 ∧
      Later m (m.listExpiredCb now probe []).1 := by
  obtain ⟨-, hheap, hsort, hmem, htickled⟩ := listExpiredCb_expired now h.sorted [] hprobe
  set r := (m.listExpiredCb now probe []).1
  -- a timer of the new set is one of the old set: as it was, or due, recurring and moved on
  have hcases : ∀ b ∈ r.timers, b ∈ m.timers ∧ (r.heap b = m.heap b ∨
      (m.heap b).next ≤ now ∧ r.heap b = { m.heap b with next := add64 now (m.heap b).ms }) := by
    intro b hb
    rcases (hmem b).1 hb with hkeep | ⟨hexp, hrec⟩
    · obtain ⟨hbm, hnot⟩ := mem_filter.1 hkeep
      refine ⟨hbm, .inl ?_⟩
      rw [hheap b, if_neg fun hexp => ?_]
      · rfl
      · have hdue := (mem_filter.1 hexp).2
        rw [hdue] at hnot
        cases hnot
    · obtain ⟨hbm, hdue⟩ := mem_filter.1 hexp
      refine ⟨hbm, .inr ⟨?_, ?_⟩⟩
      · rw [due, hroll, Bool.false_or] at hdue
        exact of_decide_eq_true hdue
      · rw [hheap b, if_pos hexp]
        exact if_pos hrec
  refine ⟨⟨⟨hsort, fun b hb => ?_⟩, fun b hb => ⟨fun hbr => hb (hcases b hbr).1, ?_⟩⟩,
    fun hflag => ⟨htickled.trans hflag, fun b hb => ⟨b, (hcases b hb).1, ?_⟩⟩⟩
  · obtain ⟨hbm, hsame | ⟨-, hmoved⟩⟩ := hcases b hb
    · rw [hsame]
      exact h.dated b hbm
    · rw [hmoved]
      exact dated_of_add rfl hnow (hover b hbm)
  · rw [hheap b, if_neg fun hexp => hb (mem_filter.1 hexp).1]
    rfl
  · obtain ⟨hbm, hsame | ⟨hdue, hmoved⟩⟩ := hcases b hb
    · rw [hsame]
    · rw [hmoved, add64_eq (hover b hbm)]
      exact hdue.trans (Nat.le_add_right _ _)

end TimerManager

def NotBefore (n : ℕ) : Option ℕ → Prop
  | none => False
  | some d => d ≤ n

instance (n : ℕ) : DecidablePred (NotBefore n)
  | none => .isFalse id
  | some d => inferInstanceAs (Decidable (d ≤ n))

/-- Without a call since, the flag is clear and no timer is due before the announced deadline. -/
def Poll.Watch (p : Poll W) (m : TimerManager Cb) : Prop :=
  p.called = false → p.about = [] →
    m.tickled = false ∧ ∀ a ∈ m.timers, NotBefore (m.heap a).next p.deadline

/-- The answer of `getNextTimer` is the time that is left until the deadline. -/
def Poll.Announces (p : Poll W) : Prop :=
  match p.deadline with
  | none => p.timeout = 2 ^ 64 - 1
  | some d => p.timeout = d - p.now

theorem Poll.Watch.later {p : Poll W} {m m' : TimerManager Cb} (h : p.Watch m)
    (hlater : TimerManager.Later m m') : p.Watch m' := by
  intro hcalled habout
  obtain ⟨htickled, hall⟩ := h hcalled habout
  obtain ⟨htickled', hmono⟩ := hlater htickled
  refine ⟨htickled', fun b hb => ?_⟩
  obtain ⟨c, hc, hcb⟩ := hmono b hb
  have hnot := hall c hc
  cases hd : p.deadline with
  | none => rw [hd] at hnot; exact hnot
  | some d => rw [hd] at hnot; exact hnot.trans hcb

structure Inv (s : State W Cb) : Prop where
  kept : s.manager.Kept s.clock
  adding (w : W) (a : ℕ) : s.phase w = .adding a →
    a ∉ s.manager.timers ∧ Dated s.clock (s.manager.heap a)
  distinct (v w : W) (a : ℕ) : s.phase v = .adding a → s.phase w = .adding a → v = w
  read (w : W) (now : ℕ) : s.phase w = .expiring now ∨ s.phase w = .expirable now →
    now ≤ s.clock
  watch (p : Poll W) : p ∈ s.polls → p.Watch s.manager
  about (p : Poll W) (w : W) : p ∈ s.polls → w ∈ p.about → p.called = true ∨ s.phase w = .notifying
  announces (p : Poll W) : p ∈ s.polls → p.Announces

section

variable [DecidableEq W] {s : State W Cb} {w : W}

theorem Inv.update {s' : State W Cb} {q : Phase} (h : Inv s)
    (hphase : s'.phase = update s.phase w q) (hclock : s'.clock = s.clock)
    (hkept : s'.manager.Kept s.clock)
    (hothers : ∀ v b, v ≠ w → s.phase v = .adding b →
      b ∉ s'.manager.timers ∧ s'.manager.heap b = s.manager.heap b)
    (hadding : ∀ a, q = .adding a → a ∉ s'.manager.timers ∧
      Dated s.clock (s'.manager.heap a) ∧ ∀ v, s.phase v ≠ .adding a)
    (hread : ∀ now, q = .expiring now ∨ q = .expirable now → now ≤ s.clock)
    (hpolls : ∀ p ∈ s'.polls, p.Watch s'.manager ∧
      (∀ v ∈ p.about, p.called = true ∨ s'.phase v = .notifying) ∧ p.Announces) : Inv s' := by
  have hself : s'.phase w = q := by rw [hphase, update_self]
  have hother : ∀ v, v ≠ w → s'.phase v = s.phase v := fun v hv => by
    rw [hphase, update_of_ne hv]
  refine ⟨hclock ▸ hkept, fun v a hv => ?_, fun u v a hu hv => ?_, fun v now hv => ?_,
    fun p hp => (hpolls p hp).1, fun p v hp hv => (hpolls p hp).2.1 v hv,
    fun p hp => (hpolls p hp).2.2⟩
  · rw [hclock]
    by_cases hvw : v = w
    · rw [hvw, hself] at hv
      exact ⟨(hadding a hv).1, (hadding a hv).2.1⟩
    · rw [hother v hvw] at hv
      obtain ⟨hout, hheap⟩ := hothers v a hvw hv
      rw [hheap]
      exact ⟨hout, (h.adding v a hv).2⟩
  · by_cases huw : u = w <;> by_cases hvw : v = w
    · rw [huw, hvw]
    · rw [huw, hself] at hu
      rw [hother v hvw] at hv
      exact absurd hv ((hadding a hu).2.2 v)
    · rw [hvw, hself] at hv
      rw [hother u huw] at hu
      exact absurd hu ((hadding a hv).2.2 u)
    · rw [hother u huw] at hu
      rw [hother v hvw] at hv
      exact h.distinct u v a hu hv
  · rw [hclock]
    by_cases hvw : v = w
    · rw [hvw, hself] at hv
      exact hread now hv
    · rw [hother v hvw] at hv
      exact h.read v now hv

theorem Inv.about_update (h : Inv s) (hold : s.phase w ≠ .notifying) (q : Phase) {p : Poll W}
    (hp : p ∈ s.polls) {v : W} (hv : v ∈ p.about) :
    p.called = true ∨ Function.update s.phase w q v = .notifying := by
  refine (h.about p v hp hv).imp_right fun hn => ?_
  have hvw : v ≠ w := fun hvw => hold (hvw ▸ hn)
  rw [update_of_ne hvw]
  exact hn

theorem Inv.setPhase (h : Inv s) {q : Phase} (hold : s.phase w ≠ .notifying)
    (hadding : ∀ a, q ≠ .adding a)
    (hread : ∀ now, q = .expiring now ∨ q = .expirable now → now ≤ s.clock) :
    Inv (s.setPhase w q) :=
  h.update rfl rfl h.kept (fun v b _ hv => ⟨(h.adding v b hv).1, rfl⟩)
    (fun a hq => absurd hq (hadding a)) hread
    fun p hp => ⟨h.watch p hp, fun _ hv => h.about_update hold q hp hv, h.announces p hp⟩

theorem Inv.leave (h : Inv s) (hold : s.phase w ≠ .notifying) {m : TimerManager Cb} {flag : Bool}
    (hkept : m.Kept s.clock)
    (hothers : ∀ v b, v ≠ w → s.phase v = .adding b → b ∉ m.timers ∧ m.heap b = s.manager.heap b)
    (hlater : flag = false → TimerManager.Later s.manager m) : Inv (s.leave w m flag) := by
  cases flag with
  | false =>
    refine h.update (q := .outside) rfl rfl hkept hothers nofun
      (fun _ hq => by rcases hq with hq | hq <;> cases hq) fun p hp => ?_
    exact ⟨(h.watch p hp).later (hlater rfl), fun _ hv => h.about_update hold _ hp hv,
      h.announces p hp⟩
  | true =>
    refine h.update (q := .notifying) rfl rfl hkept hothers nofun
      (fun _ hq => by rcases hq with hq | hq <;> cases hq) fun p hp => ?_
    obtain ⟨p₀, hp₀, rfl⟩ := mem_map.1 hp
    refine ⟨fun _ habout => absurd habout (cons_ne_nil _ _), fun v hv => ?_, h.announces p₀ hp₀⟩
    rcases mem_cons.1 hv with rfl | hv
    · exact .inr (update_self ..)
    · exact h.about_update hold _ hp₀ hv

theorem Inv.section (h : Inv s) (hold : s.phase w ≠ .notifying) {m : TimerManager Cb}
    {flag : Bool} (hsection : TimerManager.Section s.clock s.manager m)
    (hlater : flag = false → TimerManager.Later s.manager m) : Inv (s.leave w m flag) :=
  h.leave hold hsection.kept (fun v b _ hv => hsection.outside b (h.adding v b hv).1) hlater

omit [DecidableEq W] in
theorem Inv.tick (h : Inv s) {c : ℕ} (hc : s.clock ≤ c) : Inv { s with clock := c } where
  kept := ⟨h.kept.sorted, fun a ha => (h.kept.dated a ha).mono hc⟩
  adding w a hw := ⟨(h.adding w a hw).1, (h.adding w a hw).2.mono hc⟩
  distinct := h.distinct
  read w now hw := (h.read w now hw).trans hc
  watch := h.watch
  about := h.about
  announces := h.announces

theorem TimerManager.getNextTimer_fst (m : TimerManager Cb) (now : ℕ) :
    (m.getNextTimer now).1 = { m with tickled := false } := by
  unfold getNextTimer
  dsimp only
  split <;> rfl

theorem TimerManager.Kept.first {m : TimerManager Cb} {clock a : ℕ} (h : m.Kept clock)
    (ha : a ∈ m.timers) :
    NotBefore (m.heap a).next (m.timers.head?.map fun b => (m.heap b).next) := by
  have hsorted := next_le_of_sorted h.sorted
  cases hm : m.timers with
  | nil =>
    rw [hm] at ha
    cases ha
  | cons first rest =>
    rw [hm] at ha hsorted
    rcases mem_cons.1 ha with rfl | ha
    · exact le_rfl
    · exact (pairwise_cons.1 hsorted).1 a ha

omit [DecidableEq W] in
theorem announces_getNextTimer (h : s.manager.Kept s.clock) :
    Poll.Announces (⟨s.clock, (s.manager.getNextTimer s.clock).2,
      s.manager.timers.head?.map fun a => (s.manager.heap a).next, false, []⟩ : Poll W) := by
  cases hm : s.manager.timers with
  | nil =>
    change (s.manager.getNextTimer s.clock).2 = 2 ^ 64 - 1
    unfold getNextTimer
    rw [hm]
  | cons first rest =>
    have hfits := (h.dated first (by rw [hm]; exact mem_cons_self)).fits
    change (s.manager.getNextTimer s.clock).2 = (s.manager.heap first).next - s.clock
    unfold getNextTimer
    dsimp only
    rw [hm]
    dsimp only
    split
    · omega
    · exact sub64_eq (by omega) hfits

omit [DecidableEq W] in
theorem Inv.poll (h : Inv s) : Inv s.poll := by
  have hmanager : s.poll.manager = { s.manager with tickled := false } :=
    s.manager.getNextTimer_fst s.clock
  have hwatch : ∀ p ∈ s.poll.polls, p.Watch { s.manager with tickled := false } := by
    intro p hp hcalled habout
    rcases mem_cons.1 hp with rfl | hp
    · exact ⟨rfl, fun a ha => h.kept.first ha⟩
    · exact ⟨rfl, (h.watch p hp hcalled habout).2⟩
  refine ⟨?_, fun w a hw => ?_, h.distinct, h.read, ?_, fun p w hp hw => ?_, fun p hp => ?_⟩
  · rw [hmanager]
    exact ⟨h.kept.sorted, h.kept.dated⟩
  · rw [hmanager]
    exact h.adding w a hw
  · rw [hmanager]
    exact hwatch
  · rcases mem_cons.1 hp with rfl | hp
    · cases hw
    · exact h.about p w hp hw
  · rcases mem_cons.1 hp with rfl | hp
    · exact announces_getNextTimer h.kept
    · exact h.announces p hp

theorem Inv.notify (h : Inv s) (w : W) : Inv (s.notify w) := by
  refine h.update (q := .outside) rfl rfl h.kept (fun v b _ hv => ⟨(h.adding v b hv).1, rfl⟩)
    nofun (fun _ hq => by rcases hq with hq | hq <;> cases hq) fun p hp => ?_
  obtain ⟨p₀, hp₀, rfl⟩ := mem_map.1 hp
  exact ⟨fun hcalled => absurd hcalled.symm Bool.false_ne_true, fun _ _ => .inl rfl,
    h.announces p₀ hp₀⟩

theorem Inv.create (h : Inv s) {a ms : ℕ} {cb : Option Cb} {recurring : Bool}
    (hold : s.phase w ≠ .notifying) (hset : a ∉ s.manager.timers)
    (hnew : ∀ v, s.phase v ≠ .adding a) (hover : s.clock + ms < 2 ^ 64) :
    Inv ({ s with manager :=
      s.manager.store a (.new s.clock ms cb recurring) }.setPhase w (.adding a)) := by
  set m := s.manager.store a (.new s.clock ms cb recurring)
  have hheap : ∀ b, b ≠ a → m.heap b = s.manager.heap b := fun b hb => update_of_ne hb ..
  have hne : ∀ b ∈ s.manager.timers, b ≠ a := fun b hb hba => hset (hba ▸ hb)
  have hlater : TimerManager.Later s.manager m := by
    refine fun htickled => ⟨htickled, fun b hb => ⟨b, hb, ?_⟩⟩
    rw [hheap b (hne b hb)]
  refine h.update (q := .adding a) rfl rfl
    ⟨sorted_store h.kept.sorted hset, fun b hb => ?_⟩ (fun v b _ hv => ?_)
    (fun b hb => ?_) (fun _ hq => by rcases hq with hq | hq <;> cases hq) fun p hp => ?_
  · change Dated s.clock (m.heap b)
    rw [hheap b (hne b hb)]
    exact h.kept.dated b hb
  · have hba : b ≠ a := fun hba => hnew v (hba ▸ hv)
    exact ⟨(h.adding v b hv).1, hheap b hba⟩
  · cases hb
    have hnewest : m.heap a = .new s.clock ms cb recurring := update_self ..
    refine ⟨hset, ?_, hnew⟩
    change Dated s.clock (m.heap a)
    rw [hnewest]
    exact dated_of_add rfl le_rfl hover
  · exact ⟨(h.watch p hp).later hlater, fun _ hv => h.about_update hold _ hp hv, h.announces p hp⟩

theorem Inv.add (h : Inv s) {a : ℕ} (hp : s.phase w = .adding a) :
    Inv (s.leave w (s.manager.addTimer a).1 (s.manager.addTimer a).2) := by
  obtain ⟨hheap, htimers, -⟩ := s.manager.addTimer_fields a
  have hold : s.phase w ≠ .notifying := by rw [hp]; exact nofun
  refine h.leave hold (h.kept.addTimer (h.adding w a hp).2) (fun v b hvw hv => ⟨?_, ?_⟩)
    TimerManager.addTimer_later
  · rw [htimers, TimerManager.mem_insert]
    rintro (rfl | hb)
    · exact hvw (h.distinct v w b hv hp)
    · exact (h.adding v b hv).1 hb
  · rw [hheap]

theorem Step.inv {s' : State W Cb} {l : Label} (hstep : Step s l s') (hover : NoOverflow s l)
    (hroll : NoRollover s l) (h : Inv s) : Inv s' := by
  cases hstep with
  | tick c hc => exact h.tick hc
  | create w a ms cb recurring hp hset hnew =>
    exact h.create (hp.trans_ne nofun) hset hnew hover
  | add w a hp => exact h.add hp
  | cancel w a r hp hold hr =>
    obtain ⟨hsection, hlater⟩ := cancel_section h.kept hr
    exact h.section (hp.trans_ne nofun) hsection fun _ => hlater
  | refresh w a hp =>
    obtain ⟨hsection, hlater⟩ := refresh_section h.kept hover
    exact h.section (hp.trans_ne nofun) hsection fun _ => hlater
  | reset w a ms fromNow hp =>
    obtain ⟨hsection, hlater⟩ := resetLocked_section h.kept hover
    exact h.section (hp.trans_ne nofun) hsection hlater
  | read w hp =>
    refine h.setPhase (hp.trans_ne nofun) (fun _ => nofun) ?_
    rintro now (hnow | hnow) <;> cases hnow
    exact le_rfl
  | empty w now hp hm =>
    refine h.setPhase (hp.trans_ne nofun) (fun _ => nofun) ?_
    rintro now (hnow | hnow) <;> cases hnow
  | nonempty w now hp hm =>
    refine h.setPhase (hp.trans_ne nofun) (fun _ => nofun) ?_
    rintro now' (hnow | hnow) <;> cases hnow
    exact h.read w now (.inl hp)
  | expire w now probe hp hprobe =>
    obtain ⟨hsection, hlater⟩ :=
      listExpiredCb_section h.kept (h.read w now (.inr hp)) hprobe hroll hover
    exact h.section (hp.trans_ne nofun) hsection fun _ => hlater
  | poll w hp => exact h.poll
  | notify w hp => exact h.notify w

end

section

variable [DecidableEq W] {s : State W Cb}

omit [DecidableEq W] in
theorem Initial.inv (h : Initial s) : Inv s := by
  refine ⟨⟨?_, fun a ha => ?_⟩, fun w a hw => ?_, fun v w a hv => ?_, fun w now hw => ?_,
    fun p hp => ?_, fun p w hp => ?_, fun p hp => ?_⟩
  · rw [h.timers]
    exact List.Pairwise.nil
  · rw [h.timers] at ha
    cases ha
  · rw [h.phase w] at hw
    cases hw
  · rw [h.phase v] at hv
    cases hv
  · rw [h.phase w] at hw
    rcases hw with hw | hw <;> cases hw
  all_goals
    rw [h.polls] at hp
    cases hp

/-- The timer is due before the announced deadline. -/
def Poll.Earlier (p : Poll W) (t : Timer Cb) : Prop := ¬ NotBefore t.next p.deadline

instance (p : Poll W) (t : Timer Cb) : Decidable (p.Earlier t) :=
  inferInstanceAs (Decidable (¬ NotBefore t.next p.deadline))

/-- As long as `listExpiredCb` never takes its clock for one that has gone back, a timer that is
due before a deadline that `getNextTimer` has announced means that `onTimerInsertedAtFront` has
been called since, or that a thread that has inserted a timer since is about to call it. -/
theorem poll_notified
    (h : Reachable Initial Step (fun s l => NoOverflow s l ∧ NoRollover s l) s) (p : Poll W)
    (hp : p ∈ s.polls) :
    p.Announces ∧ ((∃ a ∈ s.manager.timers, p.Earlier (s.manager.heap a)) →
      p.called = true ∨ ∃ w ∈ p.about, s.phase w = .notifying) := by
  have hinv : Inv s := h.invariant (fun s h => h.inv)
    fun s l s' hs hc hstep => hstep.inv hc.1 hc.2 hs
  refine ⟨hinv.announces p hp, fun ⟨a, ha, hearly⟩ => ?_⟩
  by_contra hno
  push Not at hno
  obtain ⟨hcalled, hnone⟩ := hno
  have habout : p.about = [] := by
    refine eq_nil_iff_forall_not_mem.2 fun w hw => ?_
    exact hnone w hw ((hinv.about p w hp hw).resolve_left hcalled)
  exact hearly ((hinv.watch p hp (Bool.eq_false_iff.2 hcalled) habout).2 a ha)

end

def State.new (W : Type) (now : ℕ) : State W Unit :=
  ⟨⟨fun _ => .probe 0, [], false, now⟩, now, fun _ => .outside, []⟩

theorem initial_new (W : Type) (now : ℕ) : Initial (State.new W now) :=
  ⟨rfl, rfl, rfl, fun _ => rfl, rfl⟩

/-- One thread waits for over an hour between its reading of the clock and the lock. Meanwhile
the other one adds a recurring timer, collects the expired ones and asks for the deadline. The
first one then takes the clock to have gone back and moves the timer before that deadline. -/
theorem poll_missed : ∃ s : State Bool Unit, Reachable Initial Step NoOverflow s ∧
    ∃ p ∈ s.polls, (∃ a ∈ s.manager.timers, p.Earlier (s.manager.heap a)) ∧
      p.called = false ∧ p.about = [] := by
  have h : Reachable Initial Step NoOverflow (State.new Bool 10000000) :=
    .start (initial_new Bool 10000000)
  have h := h.andThen (.read false rfl)
  have h := h.andThen (.tick 14000000 (by decide))
  have h := h.andThen (.create true 1 1000 (some ()) true rfl (by decide) (by decide)) (by decide)
  have h := h.andThen (.add true 1 rfl)
  have h := h.andThen (.notify true rfl)
  have h := h.andThen (.nonempty false 10000000 rfl (by decide))
  have h := h.andThen (.read true rfl)
  have h := h.andThen (.nonempty true 14000000 rfl (by decide))
  have h := h.andThen (.expire true 14000000 2 rfl (by decide)) (by decide)
  have h := h.andThen (.poll true rfl)
  have h := h.andThen (.expire false 10000000 2 rfl (by decide)) (by decide)
  exact ⟨_, h, _, mem_cons_self, ⟨1, by decide, by decide⟩, rfl, rfl⟩

/-- A timer comes to the front behind a call of `getNextTimer`. -/
theorem poll_notified_run : ∃ s : State Bool Unit,
    Reachable Initial Step (fun s l => NoOverflow s l ∧ NoRollover s l) s ∧
    ∃ p ∈ s.polls, (∃ a ∈ s.manager.timers, p.Earlier (s.manager.heap a)) ∧
      p.Announces ∧ (p.called = true ∨ ∃ w ∈ p.about, s.phase w = .notifying) := by
  have h : Reachable Initial Step (fun s l => NoOverflow s l ∧ NoRollover s l)
      (State.new Bool 10000000) := .start (initial_new Bool 10000000)
  have h := h.andThen (.create true 1 1000 (some ()) true rfl (by decide) (by decide))
    ⟨by decide, trivial⟩
  have h := h.andThen (.add true 1 rfl) ⟨trivial, trivial⟩
  have h := h.andThen (.notify true rfl) ⟨trivial, trivial⟩
  have h := h.andThen (.create true 2 10 (some ()) false rfl (by decide) (by decide))
    ⟨by decide, trivial⟩
  have h := h.andThen (.poll false rfl) ⟨trivial, trivial⟩
  have h := h.andThen (.add true 2 rfl) ⟨trivial, trivial⟩
  have hpoll := poll_notified h _ mem_cons_self
  refine ⟨_, h, _, mem_cons_self, ?_, hpoll.1, hpoll.2 ?_⟩
  · exact ⟨2, by decide, by decide⟩
  · exact ⟨2, by decide, by decide⟩

end JKYi.Timers
