import JKYi.Foundation.Interleaving

/-!
# Listeners of a configuration variable

`setValue` compares and notifies under a read lock, which it shares with other calls, and stores
the value under a write lock that it takes later.
-/

namespace JKYi.Config

open Function Finset

/-- A call of `setValue(t)`: it has the read lock and has still to notify the listeners in `todo`,
or it is about to take the write lock. -/
inductive Phase (L α : Type) where
  | idle
  | notifying (t : α) (todo : Finset L)
  | storing (t : α)

/-- `m_val`, the calls, and what each listener was told, the last notification first. -/
structure ConfigVar (W L α : Type) where
  val : α
  phase : W → Phase L α
  log : L → List (α × α)

inductive Act (W L α : Type) where
  | setValue (w : W) (t : α)
  | notify (w : W) (i : L)
  | release (w : W)
  | store (w : W)

namespace ConfigVar

variable {W L α : Type} [DecidableEq W] [DecidableEq L] {cbs : Finset L} {s s' : ConfigVar W L α}
  {a : Act W L α} {i : L}

/-- The listeners `cbs` are notified in any order. -/
inductive Step (cbs : Finset L) (s : ConfigVar W L α) : Act W L α → ConfigVar W L α → Prop
  | same {w t} : s.phase w = .idle → s.val = t → Step cbs s (.setValue w t) s
  | check {w t} : s.phase w = .idle → s.val ≠ t →
    Step cbs s (.setValue w t) { s with phase := update s.phase w (.notifying t cbs) }
  | notify {w t todo i} : s.phase w = .notifying t todo → i ∈ todo →
    Step cbs s (.notify w i)
      { s with
        phase := update s.phase w (.notifying t (todo.erase i))
        log := update s.log i ((s.val, t) :: s.log i) }
  | release {w t} : s.phase w = .notifying t ∅ →
    Step cbs s (.release w) { s with phase := update s.phase w (.storing t) }
  | store {w t} : s.phase w = .storing t → (∀ v u todo, s.phase v ≠ .notifying u todo) →
    Step cbs s (.store w) { s with val := t, phase := update s.phase w .idle }

def Init (s : ConfigVar W L α) : Prop := (∀ w, s.phase w = .idle) ∧ ∀ i, s.log i = []

/-- Each old value is the new value of the notification before. -/
def Linked (s : ConfigVar W L α) (i : L) : Prop :=
  (s.log i).IsChain fun later earlier => later.1 = earlier.2

/-- The notifications are linked, and the last one is of the value of the variable. -/
def Agrees (cbs : Finset L) (s : ConfigVar W L α) : Prop :=
  ∀ i ∈ cbs, s.Linked i ∧ ∀ x ∈ (s.log i).head?, x.2 = s.val

/-- A call that changes the value begins when no other one is under way. -/
def Alone (s : ConfigVar W L α) : Act W L α → Prop
  | .setValue _ t => s.val ≠ t → ∀ v, s.phase v = .idle
  | _ => True

/-- The listener `i` is still to be notified by `w`. -/
def Pending (s : ConfigVar W L α) (i : L) (w : W) : Prop :=
  ∃ t todo, s.phase w = .notifying t todo ∧ i ∈ todo

/-- The notifications of `i` are not linked, or will not be when all calls have returned. -/
def Doomed (i : L) (s : ConfigVar W L α) : Prop :=
  ¬ s.Linked i ∨ ∃ w, s.Pending i w ∧
    ((∃ x ∈ (s.log i).head?, x.2 ≠ s.val) ∨ ∃ v ≠ w, s.Pending i v)

def Changing (s : ConfigVar W L α) : Prop :=
  ∀ w t todo, s.phase w = .notifying t todo → t ≠ s.val

theorem Step.changing (h : Changing s) (hs : Step cbs s a s') : Changing s' := by
  cases hs with
  | same => exact h
  | check | notify | release | store => grind [Changing, update_apply]

omit [DecidableEq W] [DecidableEq L] in
theorem Doomed.mono (h : Doomed i s) (hv : s'.val = s.val) (hl : s'.log i = s.log i)
    (hp : ∀ w, s.Pending i w → s'.Pending i w) : Doomed i s' := by
  unfold Doomed Linked at h ⊢
  rw [hv, hl]
  obtain h | ⟨w, hw, h⟩ := h
  · exact .inl h
  · exact .inr ⟨w, hp w hw, h.imp_right fun ⟨v, hne, hpv⟩ => ⟨v, hne, hp v hpv⟩⟩

theorem Step.doomed (hc : Changing s) (h : Doomed i s) (hs : Step cbs s a s') : Doomed i s' := by
  cases hs with
  | same => exact h
  | check | release => exact h.mono rfl rfl fun v hv => by grind [Pending, update_apply]
  | @notify u t todo j hu hj =>
    by_cases hij : i = j
    · subst hij
      by_cases hl : s.Linked i ∧ ∀ x ∈ (s.log i).head?, x.2 = s.val
      · obtain ⟨w, hw, hwu⟩ : ∃ w, s.Pending i w ∧ w ≠ u := by grind [Doomed]
        refine .inr ⟨w, by grind [Pending, update_apply], .inl ⟨(s.val, t), ?_⟩⟩
        exact ⟨by simp, hc u t todo hu⟩
      · refine .inl fun hl' => hl ?_
        simp only [Linked, update_self, List.isChain_cons] at hl'
        exact ⟨hl'.2, fun x hx => (hl'.1 x hx).symm⟩
    · exact h.mono rfl (update_of_ne hij ..) fun v hv => by grind [Pending, update_apply]
  | store hw hfree =>
    obtain h | ⟨w, ⟨t, todo, ht, _⟩, _⟩ := h
    · exact .inl h
    · exact absurd ht (hfree w t todo)

/-- What listener `i` was told last while one call, in phase `p`, is under way. -/
def Fits (i : L) (val : α) (p : Phase L α) (log : List (α × α)) : Prop :=
  match p with
  | .idle => ∀ x ∈ log.head?, x.2 = val
  | .notifying t todo =>
    if i ∈ todo then ∀ x ∈ log.head?, x.2 = val else log.head?.map Prod.snd = some t
  | .storing t => t ≠ val ∧ log.head?.map Prod.snd = some t

/-- At most one call is under way. -/
structure Orderly (cbs : Finset L) (s : ConfigVar W L α) : Prop where
  linked : ∀ i ∈ cbs, s.Linked i
  busy : ∀ w, s.phase w ≠ .idle → s.phase = update (fun _ => .idle) w (s.phase w) ∧
    ∀ i ∈ cbs, Fits i s.val (s.phase w) (s.log i)
  free : (∀ w, s.phase w = .idle) → ∀ i ∈ cbs, Fits i s.val .idle (s.log i)

theorem Orderly.of_update {w : W} {p : Phase L α} (hl : ∀ i ∈ cbs, s.Linked i)
    (hp : s.phase = update (fun _ => .idle) w p)
    (hf : ∀ i ∈ cbs, Fits i s.val p (s.log i)) : Orderly cbs s := by
  have hw : s.phase w = p := by rw [hp, update_self]
  refine ⟨hl, fun v hv => ?_, fun h => ?_⟩
  · obtain rfl : v = w := by
      by_contra hne
      rw [hp, update_of_ne hne] at hv
      exact hv rfl
    rw [hw]
    exact ⟨hp, hf⟩
  · rw [← h w, hw]
    exact hf

theorem Step.orderly (hc : Changing s) (h : Orderly cbs s) (ha : Alone s a)
    (hs : Step cbs s a s') : Orderly cbs s' := by
  cases hs with
  | same => exact h
  | @check w t hw hne =>
    have hidle := ha hne
    refine .of_update h.linked (congrArg (update · w _) (funext hidle)) fun i hi => ?_
    exact (if_pos hi).mpr (h.free hidle i hi)
  | @notify w t todo i hw hi =>
    obtain ⟨hp, hf⟩ := h.busy w (by simp [hw])
    rw [hw] at hf
    have hphase := (congrArg (update · w (.notifying t (todo.erase i))) hp).trans (update_idem ..)
    refine .of_update (fun j hj => ?_) hphase fun j hj => ?_
    · by_cases hji : j = i
      · subst hji
        simp only [Linked, update_self, List.isChain_cons]
        exact ⟨fun x hx => ((if_pos hi).mp (hf j hj) x hx).symm, h.linked j hj⟩
      · simp only [Linked, update_of_ne hji]
        exact h.linked j hj
    · by_cases hji : j = i
      · subst hji
        simp [Fits]
      · simpa [Fits, hji] using hf j hj
  | @release w t hw =>
    obtain ⟨hp, hf⟩ := h.busy w (by simp [hw])
    rw [hw] at hf
    refine .of_update h.linked ((congrArg (update · w (.storing t)) hp).trans (update_idem ..))
      fun i hi => ?_
    exact ⟨hc w t ∅ hw, by simpa [Fits] using hf i hi⟩
  | @store w t hw hfree =>
    obtain ⟨hp, hf⟩ := h.busy w (by simp [hw])
    rw [hw] at hf
    refine .of_update h.linked ((congrArg (update · w .idle) hp).trans (update_idem ..))
      fun i hi => ?_
    intro x hx
    have ht := (hf i hi).2
    rw [hx] at ht
    exact Option.some.inj ht

theorem Step.doomed_of_not_alone (hc : Changing s) (h : Orderly cbs s) (ha : ¬ Alone s a)
    (hi : i ∈ cbs) (hs : Step cbs s a s') : Doomed i s' := by
  cases hs with
  | same hw heq => exact absurd (fun hne => absurd heq hne) ha
  | @check w t hw hne =>
    obtain ⟨v, hv⟩ : ∃ v, s.phase v ≠ .idle := by simpa [Alone, hne] using ha
    have hvw : v ≠ w := fun e => hv (e ▸ hw)
    have hf := (h.busy v hv).2 i hi
    have other {u : α} (hu : u ≠ s.val) (ht : (s.log i).head?.map Prod.snd = some u) :
        ∃ x ∈ (s.log i).head?, x.2 ≠ s.val := by
      obtain ⟨x, hx, rfl⟩ := Option.map_eq_some_iff.mp ht
      exact ⟨x, hx, hu⟩
    refine .inr ⟨w, ⟨t, cbs, update_self .., hi⟩, ?_⟩
    cases hp : s.phase v with
    | idle => exact absurd hp hv
    | notifying u todo =>
      rw [hp] at hf
      by_cases hit : i ∈ todo
      · exact .inr ⟨v, hvw, u, todo, (update_of_ne hvw ..).trans hp, hit⟩
      · exact .inl (other (hc v u todo hp) ((if_neg hit).mp hf))
    | storing u =>
      rw [hp] at hf
      exact .inl (other hf.1 hf.2)
  | notify | release | store => exact absurd trivial ha

variable {run : List (ConfigVar W L α × Act W L α)}

theorem changing_of_trace (h : Trace Init (Step cbs) run s) : Changing s :=
  h.invariant (fun s hs w t todo hw => by simp [hs.1 w] at hw) fun _ _ _ hc hs => hs.changing hc

/-- Along a run either every step is made alone and all is in order, or all listeners end up with
notifications that are not linked. -/
theorem orderly_or_doomed (h : Trace Init (Step cbs) run s) :
    (Orderly cbs s ∧ ∀ p ∈ run, Alone p.1 p.2) ∨
      (∀ i ∈ cbs, Doomed i s) ∧ ¬ ∀ p ∈ run, Alone p.1 p.2 := by
  induction h with
  | start h =>
    refine .inl ⟨⟨fun i _ => ?_, fun w hw => absurd (h.1 w) hw, fun _ i _ => ?_⟩, by simp⟩
    · simp [Linked, h.2 i]
    · simp [Fits, h.2 i]
  | @next run s s' a h hs ih =>
    have hc := changing_of_trace h
    rw [List.forall_mem_cons]
    obtain ⟨ho, hrun⟩ | ⟨hd, hrun⟩ := ih
    · by_cases ha : Alone s a
      · exact .inl ⟨hs.orderly hc ho ha, ha, hrun⟩
      · exact .inr ⟨fun i hi => hs.doomed_of_not_alone hc ho ha hi, fun hall => ha hall.1⟩
    · exact .inr ⟨fun i hi => hs.doomed hc (hd i hi), fun hall => hrun hall.2⟩

/-- When all calls have returned, the listeners agree with the variable exactly if no call that
changed the value began before another one had stored its value. -/
theorem agrees_iff_alone (h : Trace Init (Step cbs) run s) (hret : ∀ w, s.phase w = .idle) :
    Agrees cbs s ↔ cbs = ∅ ∨ ∀ p ∈ run, Alone p.1 p.2 := by
  obtain ⟨ho, hrun⟩ | ⟨hd, hrun⟩ := orderly_or_doomed h
  · exact ⟨fun _ => .inr hrun, fun _ i hi => ⟨ho.linked i hi, ho.free hret i hi⟩⟩
  · refine ⟨fun hag => .inl (eq_empty_of_forall_notMem fun i hi => ?_), ?_⟩
    · obtain hl | ⟨w, ⟨t, todo, ht, _⟩, _⟩ := hd i hi
      · exact hl (hag i hi).1
      · simp [hret w] at ht
    · rintro (rfl | hall)
      · exact fun i hi => absurd hi (notMem_empty i)
      · exact absurd hall hrun

def fresh : ConfigVar Bool Unit ℕ := ⟨0, fun _ => .idle, fun _ => []⟩

/-- One call sets 1, and another one 2 when the first has returned. -/
theorem agrees_iff_alone_twice : ∃ run, ∃ s : ConfigVar Bool Unit ℕ,
    Trace Init (Step {()}) run s ∧ s.log () = [(1, 2), (0, 1)] ∧ Agrees {()} s := by
  have h : Trace Init (Step {()}) [] fresh := .start ⟨fun _ => rfl, fun _ => rfl⟩
  have h := h.next (.check (w := true) (t := 1) rfl (by decide))
  have h := h.next (.notify (w := true) (i := ()) rfl (by decide))
  have h := h.next (.release (w := true) rfl)
  have h := h.next (.store (w := true) rfl (by simp [fresh]))
  have h := h.next (.check (w := false) (t := 2) rfl (by decide))
  have h := h.next (.notify (w := false) (i := ()) rfl (by decide))
  have h := h.next (.release (w := false) rfl)
  have h := h.next (.store (w := false) rfl (by simp [fresh]))
  refine ⟨_, _, h, rfl, (agrees_iff_alone h fun w => by cases w <;> rfl).mpr (.inr ?_)⟩
  simp [Alone, fresh]

/-- One call notifies 0 → 1 and another one 0 → 2, then the second one stores first. -/
theorem stale_listener : ∃ run, ∃ s : ConfigVar Bool Unit ℕ,
    Trace Init (Step {()}) run s ∧ (∀ w, s.phase w = .idle) ∧
      s.log () = [(0, 2), (0, 1)] ∧ s.val = 1 ∧ ¬ Agrees {()} s := by
  have h : Trace Init (Step {()}) [] fresh := .start ⟨fun _ => rfl, fun _ => rfl⟩
  have h := h.next (.check (w := false) (t := 1) rfl (by decide))
  have h := h.next (.check (w := true) (t := 2) rfl (by decide))
  have h := h.next (.notify (w := false) (i := ()) rfl (by decide))
  have h := h.next (.notify (w := true) (i := ()) rfl (by decide))
  have h := h.next (.release (w := false) rfl)
  have h := h.next (.release (w := true) rfl)
  have h := h.next (.store (w := true) rfl (by simp))
  have h := h.next (.store (w := false) rfl (by simp))
  refine ⟨_, _, h, fun w => ?_, rfl, rfl, fun hag => ?_⟩
  · cases w <;> rfl
  · exact absurd ((hag () (by decide)).2 (0, 2) rfl) (by decide)

end ConfigVar

end JKYi.Config
