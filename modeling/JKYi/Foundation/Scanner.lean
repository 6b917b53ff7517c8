import Mathlib.Tactic

/-!
# Scanners given by tables

A deterministic machine over bytes whose transitions carry actions. It is run over a buffer: at
each byte the actions of the transition are performed with the position of the byte, and the run
ends with the buffer, at a byte without a transition, or behind an action that stops it.
-/

namespace JKYi

open List

/-- The bytes in `ranges` lead to `target`. A guarded edge is there only under a condition that
the machine is given. -/
structure Edge (A : Type) where
  ranges : List (ℕ × ℕ)
  guarded : Bool
  actions : List A
  target : ℕ
  deriving DecidableEq

def Edge.admits {A : Type} (e : Edge A) (guard : Bool) (c : UInt8) : Bool :=
  (guard || !e.guarded) && e.ranges.any fun r => decide (r.1 ≤ c.toNat) && decide (c.toNat ≤ r.2)

abbrev Scanner (A : Type) := List (List (Edge A))

namespace Scanner

variable {A τ : Type}

/-! Rows of a table. -/

def byte (c : ℕ) : List (ℕ × ℕ) := [(c, c)]

def letter (c : ℕ) : List (ℕ × ℕ) := [(c, c), (c + 32, c + 32)]

def go (ranges : List (ℕ × ℕ)) (actions : List A) (target : ℕ) : Edge A :=
  ⟨ranges, false, actions, target⟩

def via (c : ℕ) (actions : List A) (target : ℕ) : Edge A := go (byte c) actions target

def on (c target : ℕ) : Edge A := via c [] target

def goIf (ranges : List (ℕ × ℕ)) (actions : List A) (target : ℕ) : Edge A :=
  ⟨ranges, true, actions, target⟩

def next (M : Scanner A) (guard : Bool) (q : ℕ) (c : UInt8) : Option (Edge A) :=
  (M.getD q []).find? fun e => e.admits guard c

/-- How a run over a buffer ends: the state, the position behind the last byte consumed, and the
object the actions work on. -/
structure End (τ : Type) where
  state : ℕ
  position : ℕ
  object : τ

/-- The run from the state `q` over the bytes from the position `p` on; `none` if an action
fails. -/
def scan (M : Scanner A) (guard : Bool) (stops : A → Bool) (perform : ℕ → A → τ → Option τ) :
    List UInt8 → ℕ → ℕ → τ → Option (End τ)
  | [], q, p, t => some ⟨q, p, t⟩
  | c :: w, q, p, t =>
    match M.next guard q c with
    | none => some ⟨0, p, t⟩
    | some e =>
      match e.actions.foldlM (fun t a => perform p a t) t with
      | none => none
      | some t =>
        if e.actions.any stops then some ⟨e.target, p + 1, t⟩
        else scan M guard stops perform w e.target (p + 1) t

/-- The state behind `w`, if the machine reads all of it without stopping. -/
def path (M : Scanner A) (guard : Bool) (stops : A → Bool) : List UInt8 → ℕ → Option ℕ
  | [], q => some q
  | c :: w, q =>
    match M.next guard q c with
    | none => none
    | some e => if e.actions.any stops then none else path M guard stops w e.target

/-- The state in which the machine stops behind the last byte of `w`, if it does so and not
before. -/
def halts (M : Scanner A) (guard : Bool) (stops : A → Bool) : List UInt8 → ℕ → Option ℕ
  | [], _ => none
  | c :: w, q =>
    match M.next guard q c with
    | none => none
    | some e =>
      if e.actions.any stops then if w.isEmpty then some e.target else none
      else halts M guard stops w e.target

/-- The actions of a run over `w`, with their positions. They do not depend on the object. -/
def trace (M : Scanner A) (guard : Bool) (stops : A → Bool) :
    List UInt8 → ℕ → ℕ → List (ℕ × A)
  | [], _, _ => []
  | c :: w, q, p =>
    match M.next guard q c with
    | none => []
    | some e =>
      e.actions.map (p, ·) ++
        if e.actions.any stops then [] else trace M guard stops w e.target (p + 1)

def replay (perform : ℕ → A → τ → Option τ) (l : List (ℕ × A)) (t : τ) : Option τ :=
  l.foldlM (fun t a => perform a.1 a.2 t) t

section

variable {M : Scanner A} {guard : Bool} {stops : A → Bool} {c : UInt8} {u v w x : List UInt8}
  {q r f g p : ℕ} {a : ℕ × A}

theorem path_cons : M.path guard stops (c :: w) q = some r ↔
    ∃ e, M.next guard q c = some e ∧ e.actions.any stops = false ∧
      M.path guard stops w e.target = some r := by
  cases hnext : M.next guard q c with
  | none => simp [path, hnext]
  | some e =>
    cases hstop : e.actions.any stops <;>
      simp [path, hnext, hstop, -any_eq_true, -any_eq_false]

theorem halts_cons : M.halts guard stops (c :: w) q = some f ↔
    ∃ e, M.next guard q c = some e ∧
      (e.actions.any stops = true ∧ w = [] ∧ e.target = f ∨
        e.actions.any stops = false ∧ M.halts guard stops w e.target = some f) := by
  cases hnext : M.next guard q c with
  | none => simp [halts, hnext]
  | some e =>
    cases hstop : e.actions.any stops <;>
      simp [halts, hnext, hstop, -any_eq_true, -any_eq_false]

theorem path_append (hu : M.path guard stops u q = some r) :
    M.path guard stops (u ++ v) q = M.path guard stops v r := by
  induction u generalizing q with
  | nil =>
    cases hu
    rfl
  | cons c u ih =>
    obtain ⟨e, hnext, hgo, hpath⟩ := path_cons.mp hu
    simp only [cons_append, path, hnext, hgo, Bool.false_eq_true, if_false]
    exact ih hpath

theorem trace_append (hu : M.path guard stops u q = some r) : M.trace guard stops (u ++ v) q p =
      M.trace guard stops u q p ++ M.trace guard stops v r (p + u.length) := by
  induction u generalizing q p with
  | nil =>
    cases hu
    rfl
  | cons c u ih =>
    obtain ⟨e, hnext, hgo, hpath⟩ := path_cons.mp hu
    simp only [cons_append, trace, hnext, hgo, Bool.false_eq_true, if_false, ih hpath,
      append_assoc, length_cons, Nat.add_right_comm, Nat.add_assoc]

theorem trace_add (k p : ℕ) : M.trace guard stops w q (k + p) =
    (M.trace guard stops w q p).map fun a => (k + a.1, a.2) := by
  induction w generalizing q p with
  | nil => rfl
  | cons c w ih =>
    rw [trace, trace]
    cases M.next guard q c with
    | none => rfl
    | some e =>
      dsimp only
      rw [Nat.add_assoc, ih]
      split_ifs <;> simp

theorem trace_mem (h : a ∈ M.trace guard stops w q p) :
    ∃ i c q' e, a.1 = p + i ∧ w[i]? = some c ∧ M.next guard q' c = some e ∧ a.2 ∈ e.actions := by
  induction w generalizing q p with
  | nil => cases h
  | cons c w ih =>
    rw [trace] at h
    cases hnext : M.next guard q c with
    | none => simp [hnext] at h
    | some e =>
      simp only [hnext, mem_append, mem_map] at h
      rcases h with ⟨b, hb, rfl⟩ | hrest
      · exact ⟨0, c, q, e, rfl, rfl, hnext, hb⟩
      · split_ifs at hrest
        · cases hrest
        · obtain ⟨i, c', q', e', hi, hc, hq⟩ := ih hrest
          exact ⟨i + 1, c', q', e', by omega, hc, hq⟩

theorem trace_path_go (hw : M.path guard stops w q = some r)
    (h : a ∈ M.trace guard stops w q p) : stops a.2 = false := by
  induction w generalizing q p with
  | nil => cases h
  | cons c w ih =>
    obtain ⟨e, hnext, hgo, hpath⟩ := path_cons.mp hw
    simp only [trace, hnext, hgo, Bool.false_eq_true, if_false, mem_append, mem_map] at h
    rcases h with ⟨b, hb, rfl⟩ | hrest
    · exact eq_false_of_ne_true (any_eq_false.mp hgo b hb)
    · exact ih hpath hrest

theorem trace_forall {S : ℕ → Prop} {Q : A → Prop}
    (hS : ∀ q c e, S q → M.next guard q c = some e → (∀ a ∈ e.actions, Q a) ∧ S e.target)
    (hq : S q) : ∀ a ∈ (M.trace guard stops w q p).map Prod.snd, Q a := by
  induction w generalizing q p with
  | nil => exact fun _ => nofun
  | cons c w ih =>
    rw [trace]
    cases hnext : M.next guard q c with
    | none => exact fun _ => nofun
    | some e =>
      obtain ⟨hactions, htarget⟩ := hS q c e hq hnext
      rw [map_append, forall_mem_append]
      refine ⟨by simpa using hactions, ?_⟩
      split_ifs
      · exact fun _ => nofun
      · exact ih htarget

theorem trace_pairwise {S : A → ℕ → Prop} {R : A → A → Prop}
    (hS : ∀ a q c e, S a q → M.next guard q c = some e → (∀ b ∈ e.actions, R a b) ∧ S a e.target)
    (hR : ∀ q c e, M.next guard q c = some e → e.actions.Pairwise R ∧
      ∀ a ∈ e.actions, S a e.target) :
    ((M.trace guard stops w q p).map Prod.snd).Pairwise R := by
  induction w generalizing q p with
  | nil => exact .nil
  | cons c w ih =>
    rw [trace]
    cases hnext : M.next guard q c with
    | none => exact .nil
    | some e =>
      obtain ⟨hpairwise, htarget⟩ := hR q c e hnext
      rw [map_append, pairwise_append]
      refine ⟨by simpa using hpairwise, ?_, fun a ha b hb => ?_⟩
      · split_ifs
        · exact .nil
        · exact ih
      · split_ifs at hb
        · cases hb
        · exact trace_forall (hS a) (htarget a (by simpa using ha)) b hb

/-- A monitor of the actions that does not fail at any edge does not fail along a run. -/
theorem trace_monitor {σ : Type} {monitor : σ → A → Option σ} {J : ℕ → σ → Prop} {m : σ}
    (hJ : ∀ q c e m, J q m → M.next guard q c = some e → ∃ m',
      e.actions.foldlM monitor m = some m' ∧ (e.actions.any stops = false → J e.target m'))
    (hq : J q m) :
    (((M.trace guard stops w q p).map Prod.snd).foldlM monitor m).isSome = true := by
  induction w generalizing q p m with
  | nil => rfl
  | cons c w ih =>
    rw [trace]
    cases hnext : M.next guard q c with
    | none => rfl
    | some e =>
      obtain ⟨m', hm, htarget⟩ := hJ q c e m hq hnext
      rw [map_append, map_map, foldlM_append]
      have hactions : e.actions.map (Prod.snd ∘ (p, ·)) = e.actions := map_id' _
      rw [hactions, hm]
      cases hstop : e.actions.any stops with
      | true => rfl
      | false => exact ih (htarget hstop)

theorem trace_bounds (h : a ∈ M.trace guard stops w q p) : p ≤ a.1 ∧ a.1 < p + w.length := by
  obtain ⟨i, c, -, -, hi, hc, -⟩ := trace_mem h
  have := (List.getElem?_eq_some_iff.mp hc).1
  omega

theorem trace_sorted (M : Scanner A) (guard : Bool) (stops : A → Bool) (w : List UInt8)
    (q p : ℕ) : (M.trace guard stops w q p).Pairwise fun a b => a.1 ≤ b.1 := by
  induction w generalizing q p with
  | nil => exact .nil
  | cons c w ih =>
    rw [trace]
    cases M.next guard q c with
    | none => exact .nil
    | some e =>
      refine pairwise_append.mpr ⟨?_, ?_, ?_⟩
      · exact pairwise_map.mpr (pairwise_of_forall fun _ _ => le_rfl)
      · split_ifs
        · exact .nil
        · exact ih e.target (p + 1)
      · intro a ha b hb
        obtain ⟨-, -, rfl⟩ := mem_map.mp ha
        split_ifs at hb
        · cases hb
        · exact (Nat.le_succ p).trans (trace_bounds hb).1

theorem path_of_halts (h : M.halts guard stops (u ++ v) q = some f) (hv : v ≠ []) :
    ∃ r, M.path guard stops u q = some r ∧ M.halts guard stops v r = some f := by
  induction u generalizing q with
  | nil => exact ⟨q, rfl, h⟩
  | cons c u ih =>
    obtain ⟨e, hnext, ⟨-, hnil, -⟩ | ⟨hgo, hhalts⟩⟩ := halts_cons.mp h
    · exact absurd (append_eq_nil_iff.mp hnil).2 hv
    · obtain ⟨r, hpath, hr⟩ := ih hhalts
      exact ⟨r, path_cons.mpr ⟨e, hnext, hgo, hpath⟩, hr⟩

/-- Of two words that start a text, one that the machine stops behind begins with one that it
reads through. -/
theorem halts_of_path (hu : M.path guard stops u q = some r)
    (hw : M.halts guard stops w q = some f) (h : u ++ v = w ++ x) :
    ∃ w', w = u ++ w' ∧ M.halts guard stops w' r = some f := by
  induction u generalizing q w with
  | nil =>
    cases hu
    exact ⟨w, rfl, hw⟩
  | cons c u ih =>
    cases w with
    | nil => cases hw
    | cons d w =>
      obtain ⟨rfl, hrest⟩ := List.cons.inj h
      obtain ⟨e, hnext, hgo, hpath⟩ := path_cons.mp hu
      obtain ⟨e', hnext', hw⟩ := halts_cons.mp hw
      cases hnext.symm.trans hnext'
      rcases hw with ⟨hstop, -⟩ | ⟨-, hhalts⟩
      · exact absurd hstop (by simp [hgo])
      · obtain ⟨w', rfl, hw'⟩ := ih hpath hhalts hrest
        exact ⟨w', rfl, hw'⟩

/-- A text begins with at most one word that the machine stops behind. -/
theorem halts_unique (hu : M.halts guard stops u q = some f)
    (hw : M.halts guard stops w q = some g) (h : u ++ v = w ++ x) : u = w ∧ f = g := by
  induction u generalizing q w with
  | nil => cases hu
  | cons c u ih =>
    cases w with
    | nil => cases hw
    | cons d w =>
      obtain ⟨rfl, hrest⟩ := List.cons.inj h
      obtain ⟨e, hnext, hu⟩ := halts_cons.mp hu
      obtain ⟨e', hnext', hw⟩ := halts_cons.mp hw
      cases hnext.symm.trans hnext'
      rcases hu with ⟨hstop, rfl, rfl⟩ | ⟨hgo, hu⟩
      · rcases hw with ⟨-, rfl, rfl⟩ | ⟨hgo, -⟩
        · exact ⟨rfl, rfl⟩
        · exact absurd hstop (by simp [hgo])
      · rcases hw with ⟨hstop, -⟩ | ⟨-, hw⟩
        · exact absurd hstop (by simp [hgo])
        · obtain ⟨rfl, rfl⟩ := ih hu hw hrest
          exact ⟨rfl, rfl⟩

theorem next_mem {e : Edge A} (h : M.next guard q c = some e) :
    ∃ row, M[q]? = some row ∧ e ∈ row ∧ e.admits guard c = true := by
  have hmem : e ∈ M.getD q [] := mem_of_find?_eq_some h
  have hadmits : e.admits guard c = true := (List.find?_eq_some_iff_append.mp h).1
  rw [getD_eq_getElem?_getD] at hmem
  cases hrow : M[q]? <;> rw [hrow] at hmem
  · cases hmem
  · exact ⟨_, rfl, hmem, hadmits⟩

theorem path_target {G : ℕ → Prop}
    (hG : ∀ row ∈ M, ∀ e ∈ row, e.actions.any stops = false → G e.target)
    (hu : M.path guard stops u q = some r) (h0 : u ≠ []) : G r := by
  induction u generalizing q with
  | nil => exact absurd rfl h0
  | cons c u ih =>
    obtain ⟨e, hnext, hgo, hpath⟩ := path_cons.mp hu
    cases u with
    | nil =>
      cases hpath
      obtain ⟨row, hrow, hmem, -⟩ := next_mem hnext
      exact hG row (mem_of_getElem? hrow) e hmem hgo
    | cons d u => exact ih hpath (by simp)

end

section

variable {M : Scanner A} {guard : Bool} {stops : A → Bool} {perform : ℕ → A → τ → Option τ}
  {c : UInt8} {w : List UInt8} {q p : ℕ} {t t' : τ} {e : End τ}

theorem scan_cons : M.scan guard stops perform (c :: w) q p t = some e ↔
    M.next guard q c = none ∧ ⟨0, p, t⟩ = e ∨
    ∃ d t', M.next guard q c = some d ∧
      d.actions.foldlM (fun t a => perform p a t) t = some t' ∧
      (d.actions.any stops = true ∧ ⟨d.target, p + 1, t'⟩ = e ∨ d.actions.any stops = false ∧
          M.scan guard stops perform w d.target (p + 1) t' = some e) := by
  cases hnext : M.next guard q c with
  | none => simp [scan, hnext]
  | some d =>
    cases hacts : d.actions.foldlM (fun t a => perform p a t) t with
    | none => simp [scan, hnext, hacts]
    | some t' =>
      cases hstop : d.actions.any stops <;>
        simp [scan, hnext, hacts, hstop, -any_eq_true, -any_eq_false]

/-- A run that returns is stuck, has read the whole buffer, or has stopped. -/
theorem scan_cases (h : M.scan guard stops perform w q p t = some e) :
    e.state = 0 ∨
    M.path guard stops w q = some e.state ∧ e.position = p + w.length ∨
    ∃ u v, w = u ++ v ∧ M.halts guard stops u q = some e.state ∧ e.position = p + u.length := by
  induction w generalizing q p t with
  | nil =>
    cases h
    exact .inr (.inl ⟨rfl, rfl⟩)
  | cons c w ih =>
    rcases scan_cons.mp h with ⟨-, rfl⟩ | ⟨d, t', hnext, -, ⟨hstop, rfl⟩ | ⟨hgo, hscan⟩⟩
    · exact .inl rfl
    · exact .inr (.inr ⟨[c], w, rfl, halts_cons.mpr ⟨d, hnext, .inl ⟨hstop, rfl, rfl⟩⟩, rfl⟩)
    · rcases ih hscan with h0 | ⟨hpath, hpos⟩ | ⟨u, v, rfl, hhalts, hpos⟩
      · exact .inl h0
      · refine .inr (.inl ⟨path_cons.mpr ⟨d, hnext, hgo, hpath⟩, ?_⟩)
        rw [hpos, length_cons]
        omega
      · refine .inr (.inr ⟨c :: u, v, rfl, halts_cons.mpr ⟨d, hnext, .inr ⟨hgo, hhalts⟩⟩, ?_⟩)
        rw [hpos, length_cons]
        omega

theorem foldlM_inv {I : τ → Prop} {acts : List A} {g : τ → A → Option τ}
    (hI : ∀ a ∈ acts, ∀ t t', g t a = some t' → I t → I t')
    (h : acts.foldlM g t = some t') (ht : I t) : I t' := by
  induction acts generalizing t with
  | nil =>
    cases h
    exact ht
  | cons a acts ih =>
    obtain ⟨t₁, ha, hrest⟩ := Option.bind_eq_some_iff.mp h
    rw [forall_mem_cons] at hI
    exact ih hI.2 hrest (hI.1 t t₁ ha ht)

theorem replay_append (l l' : List (ℕ × A)) (t : τ) :
    replay perform (l ++ l') t = (replay perform l t).bind (replay perform l') :=
  foldlM_append ..

theorem replay_cons {a : ℕ × A} {l : List (ℕ × A)} : replay perform (a :: l) t = some t' ↔
      ∃ t₁, perform a.1 a.2 t = some t₁ ∧ replay perform l t₁ = some t' :=
  Option.bind_eq_some_iff

theorem replay_actions (as : List A) (p : ℕ) (t : τ) :
    replay perform (as.map (p, ·)) t = as.foldlM (fun t a => perform p a t) t := by
  rw [replay, foldlM_map]

theorem scan_path {r : ℕ} (hw : M.path guard stops w q = some r) :
    M.scan guard stops perform w q p t =
      (replay perform (M.trace guard stops w q p) t).map (⟨r, p + w.length, ·⟩) := by
  induction w generalizing q p t with
  | nil =>
    cases hw
    rfl
  | cons c w ih =>
    obtain ⟨d, hnext, hgo, hpath⟩ := path_cons.mp hw
    simp only [scan, trace, hnext, hgo, Bool.false_eq_true, if_false, replay_append,
      replay_actions, length_cons]
    cases d.actions.foldlM (fun t a => perform p a t) t with
    | none => rfl
    | some t' =>
      rw [Option.bind_some, Nat.add_comm w.length, ← Nat.add_assoc]
      exact ih hpath

theorem scan_halts {u v : List UInt8} {f : ℕ} (hu : M.halts guard stops u q = some f) :
    M.scan guard stops perform (u ++ v) q p t =
      (replay perform (M.trace guard stops u q p) t).map (⟨f, p + u.length, ·⟩) := by
  induction u generalizing q p t with
  | nil => cases hu
  | cons c u ih =>
    obtain ⟨d, hnext, hu⟩ := halts_cons.mp hu
    simp only [cons_append, scan, trace, hnext, replay_append, replay_actions, length_cons]
    cases d.actions.foldlM (fun t a => perform p a t) t with
    | none => rfl
    | some t' =>
      dsimp only [Option.bind_some]
      rcases hu with ⟨hstop, rfl, rfl⟩ | ⟨hgo, hhalts⟩
      · rw [hstop, if_pos rfl, if_pos rfl]
        rfl
      · rw [hgo, if_neg Bool.false_ne_true, if_neg Bool.false_ne_true,
          Nat.add_comm u.length, ← Nat.add_assoc]
        exact ih hhalts

/-- The rule for runs: an invariant over the actions that are left and the position of the last
one, and a condition under which no action fails. -/
theorem replay_rule {I : List (ℕ × A) → ℕ → τ → Prop} {G : Prop} {m : ℕ}
    (hI : ∀ {a l p t}, I (a :: l) p t → p ≤ a.1 → a.1 ≤ m →
      (G → ∃ t', perform a.1 a.2 t = some t') ∧ ∀ t', perform a.1 a.2 t = some t' → I l a.1 t')
    {l : List (ℕ × A)} (hsorted : l.Pairwise fun a b => a.1 ≤ b.1)
    (hl : ∀ a ∈ l, p ≤ a.1 ∧ a.1 ≤ m) (hp : p ≤ m) (h : I l p t) :
    (G → ∃ t', replay perform l t = some t') ∧
      ∀ t', replay perform l t = some t' → ∃ p' ≤ m, I [] p' t' := by
  induction l generalizing p t with
  | nil =>
    refine ⟨fun _ => ⟨t, rfl⟩, fun t' ht => ?_⟩
    cases ht
    exact ⟨p, hp, h⟩
  | cons a l ih =>
    obtain ⟨hle, hm⟩ := hl a mem_cons_self
    obtain ⟨hfirst, hrest⟩ := pairwise_cons.mp hsorted
    obtain ⟨hexists, hstep⟩ := hI h hle hm
    have hnext {t'} (ht : perform a.1 a.2 t = some t') := ih hrest
      (fun b hb => ⟨hfirst b hb, (hl b (mem_cons_of_mem a hb)).2⟩) hm (hstep t' ht)
    constructor
    · intro hG
      obtain ⟨t', ht⟩ := hexists hG
      obtain ⟨t'', ht''⟩ := (hnext ht).1 hG
      exact ⟨t'', replay_cons.mpr ⟨t', ht, ht''⟩⟩
    · intro t'' h
      obtain ⟨t', ht, hreplay⟩ := replay_cons.mp h
      exact (hnext ht).2 t'' hreplay

theorem scan_keeps {S : ℕ → Prop} {I : τ → Prop}
    (hS : ∀ q c d, S q → M.next guard q c = some d →
      (∀ a ∈ d.actions, ∀ p t t', perform p a t = some t' → I t → I t') ∧
        (d.actions.any stops = false → S d.target))
    (hq : S q) (h : M.scan guard stops perform w q p t = some e) (ht : I t) : I e.object := by
  induction w generalizing q p t with
  | nil =>
    cases h
    exact ht
  | cons c w ih =>
    rcases scan_cons.mp h with ⟨-, rfl⟩ | ⟨d, t', hnext, hacts, hend⟩
    · exact ht
    · obtain ⟨hkeep, htarget⟩ := hS q c d hq hnext
      have ht' : I t' := foldlM_inv (fun a ha => hkeep a ha p) hacts ht
      rcases hend with ⟨-, rfl⟩ | ⟨hgo, hscan⟩
      · exact ht'
      · exact ih (htarget hgo) hscan ht'

theorem scan_inv {I : τ → Prop} (hI : ∀ p a t t', perform p a t = some t' → I t → I t')
    (h : M.scan guard stops perform w q p t = some e) (ht : I t) : I e.object :=
  scan_keeps (S := fun _ => True) (fun _ _ _ _ _ => ⟨fun a _ p => hI p a, fun _ => trivial⟩)
    trivial h ht

end

end Scanner
end JKYi
