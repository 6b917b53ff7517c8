import JKYi.Http.HeadRead

/-!
# Tokens that are cut by the end of a buffer

The variables of the request parser that point into the buffer are reset when it is called again.
A callback gets the right text if the variables it uses were set in the same buffer.
-/

namespace JKYi.Http.RequestMachine

open List

/-- The variables that were set in this buffer; `header` stands for all that a header needs. -/
structure Fresh where
  mark : Bool
  fieldStart : Bool
  fieldLen : Bool
  header : Bool
  queryStart : Bool
  deriving DecidableEq

namespace Fresh

def none : Fresh := ⟨false, false, false, false, false⟩

/-- At the start of the stream the reset does no harm. -/
def atStart (k : ℕ) : Fresh := if k = 0 then ⟨true, true, true, true, false⟩ else none

def after (f : Fresh) : Action → Fresh
  | .mark => { f with mark := true }
  | .startField => { f with fieldStart := true, fieldLen := false, header := false }
  | .writeField => { f with fieldLen := f.fieldStart, header := false }
  | .startValue => { f with mark := true, header := f.fieldLen }
  | .startQuery => { f with queryStart := true }
  | _ => f

def serves (f : Fresh) : Action → Bool
  | .requestMethod => f.mark
  | .requestPath => f.mark
  | .fragment => f.mark
  | .httpVersion => f.mark
  | .queryString => f.queryStart
  | .writeValue => f.header
  | _ => true

def step (f : Fresh) (a : Action) : Option Fresh :=
  if f.serves a then some (f.after a) else Option.none

def served (f : Fresh) (as : List Action) : Bool := (as.foldlM step f).isSome

variable {f g : Fresh}

theorem served_cons {a : Action} {as : List Action} :
    f.served (a :: as) = (f.serves a && (f.after a).served as) := by
  rw [served, foldlM_cons, step]
  cases f.serves a <;> rfl

instance : LE Fresh where
  le f g := (f.mark → g.mark) ∧ (f.fieldStart → g.fieldStart) ∧ (f.fieldLen → g.fieldLen) ∧
    (f.header → g.header) ∧ (f.queryStart → g.queryStart)

instance (f g : Fresh) : Decidable (f ≤ g) :=
  inferInstanceAs (Decidable (_ ∧ _ ∧ _ ∧ _ ∧ _))

theorem le_trans {h : Fresh} (hfg : f ≤ g) (hgh : g ≤ h) : f ≤ h :=
  ⟨hgh.1 ∘ hfg.1, hgh.2.1 ∘ hfg.2.1, hgh.2.2.1 ∘ hfg.2.2.1, hgh.2.2.2.1 ∘ hfg.2.2.2.1,
    hgh.2.2.2.2 ∘ hfg.2.2.2.2⟩

theorem step_mono {f' : Fresh} {a : Action} (h : f ≤ g) (hf : f.step a = some f') :
    ∃ g', g.step a = some g' ∧ f' ≤ g' := by
  obtain ⟨hserves, hf⟩ := Option.ite_none_right_eq_some.mp hf
  cases hf
  obtain ⟨h₁, h₂, h₃, h₄, h₅⟩ := h
  have hg : g.serves a = true := by
    cases a <;> simp_all [serves]
  refine ⟨g.after a, if_pos hg, ?_⟩
  cases a <;> refine ⟨?_, ?_, ?_, ?_, ?_⟩ <;> simp_all [after]

theorem foldlM_mono {f' : Fresh} {as : List Action} (h : f ≤ g)
    (hf : as.foldlM step f = some f') : ∃ g', as.foldlM step g = some g' ∧ f' ≤ g' := by
  induction as generalizing f g with
  | nil =>
    cases hf
    exact ⟨g, rfl, h⟩
  | cons a as ih =>
    obtain ⟨f₁, hstep, hrest⟩ := Option.bind_eq_some_iff.mp hf
    obtain ⟨g₁, hg, h₁⟩ := step_mono h hstep
    obtain ⟨g', hg', h'⟩ := ih h₁ hrest
    exact ⟨g', by rw [foldlM_cons, hg]; exact hg', h'⟩

end Fresh

/-- What has been set for sure by the time the machine is in the state `q`. -/
def known (q : ℕ) : Fresh :=
  ⟨decide (1 < q), [14, 15, 16, 18, 348].contains q, [15, 16].contains q, q == 16,
    [30, 31, 32].contains q⟩

theorem known_edges : ∀ r ∈ table.zipIdx, ∀ e ∈ r.1,
    ∃ f ∈ e.actions.foldlM Fresh.step (known r.2),
      e.actions.any stops = false → known e.target ≤ f := by
  decide +kernel

/-- In one buffer every callback is served. -/
theorem served_known {guard : Bool} {w : List UInt8} {q p : ℕ} {f : Fresh} (h : known q ≤ f) :
    f.served ((table.trace guard stops w q p).map Prod.snd) = true := by
  refine Scanner.trace_monitor (J := fun q f => known q ≤ f) (fun q c e f hf hnext => ?_) h
  obtain ⟨row, hrow, hmem, -⟩ := Scanner.next_mem hnext
  obtain ⟨f₁, hf₁, htarget⟩ := known_edges (row, q) (mk_mem_zipIdx_iff_getElem?.mpr hrow) e hmem
  obtain ⟨f₂, hf₂, hle⟩ := Fresh.foldlM_mono hf hf₁
  exact ⟨f₂, hf₂, fun hgo => Fresh.le_trans (htarget hgo) hle⟩

/-- The callbacks of the request line come in this order. -/
def Action.place : Action → Option ℕ
  | .requestMethod => some 0
  | .requestPath => some 1
  | .queryString => some 2
  | .fragment => some 3
  | .httpVersion => some 4
  | _ => Option.none

/-- The first of them that may still come in the state `q`. -/
def place (q : ℕ) : ℕ :=
  if q ≤ 2 ∨ 175 ≤ q ∧ q ≤ 193 then 0
  else if 29 ≤ q ∧ q ≤ 32 then 2
  else if 20 ≤ q ∧ q ≤ 23 then 3
  else if 4 ≤ q ∧ q ≤ 12 then 4
  else if 13 ≤ q ∧ q ≤ 18 ∨ [196, 197, 199, 200, 201].contains q ∨ 348 ≤ q then 5
  else 1

def Once (a b : Action) : Prop := a.place ≠ Option.none → a ≠ b

instance (a b : Action) : Decidable (Once a b) := inferInstanceAs (Decidable (_ → _))

theorem place_edges : ∀ r ∈ table.zipIdx, ∀ e ∈ r.1, place r.2 ≤ place e.target ∧
    e.actions.Pairwise Once ∧
    ∀ a ∈ e.actions, ∀ n ∈ a.place, place r.2 ≤ n ∧ n < place e.target := by
  decide +kernel

theorem trace_once (guard : Bool) (w : List UInt8) (q p : ℕ) :
    ((table.trace guard stops w q p).map Prod.snd).Pairwise Once := by
  refine Scanner.trace_pairwise (S := fun a q => ∀ n ∈ a.place, n < place q)
    (fun a q c e ha hnext => ?_) (fun q c e hnext => ?_)
  all_goals
    obtain ⟨row, hrow, hmem, -⟩ := Scanner.next_mem hnext
    obtain ⟨hle, hpairwise, hplace⟩ :=
      place_edges (row, q) (mk_mem_zipIdx_iff_getElem?.mpr hrow) e hmem
  · refine ⟨fun b hb hsome heq => ?_, fun n hn => (ha n hn).trans_le hle⟩
    obtain ⟨n, hn⟩ := Option.ne_none_iff_exists'.mp hsome
    exact absurd (ha n hn) (not_lt.mpr (hplace b hb n (heq ▸ hn)).1)
  · exact ⟨hpairwise, fun a ha n hn => (hplace a ha n hn).2⟩

/-! The text of a callback. -/

theorem requestMethod_edges : ∀ row ∈ table, ∀ e ∈ row,
    .requestMethod ∈ e.actions → e.ranges = Scanner.byte 32 := by
  decide +kernel

/-- The callback of the method comes with the space behind it. -/
theorem trace_requestMethod {guard : Bool} {w : List UInt8} {q p i : ℕ}
    (h : (i, .requestMethod) ∈ table.trace guard stops w q p) : w[i - p]? = some 32 := by
  obtain ⟨j, c, q', e, hi, hc, hnext, hmem⟩ := Scanner.trace_mem h
  obtain ⟨row, hrow, he, hadmits⟩ := Scanner.next_mem hnext
  have hranges := requestMethod_edges row (mem_of_getElem? hrow) e he hmem
  simp only [Edge.admits, hranges, Scanner.byte, any_cons, any_nil, Bool.or_false,
    Bool.and_eq_true, decide_eq_true_eq] at hadmits
  dsimp only at hi
  rw [hi, Nat.add_sub_cancel_left, hc, Option.some.injEq, ← UInt8.toNat_inj]
  exact le_antisymm hadmits.2.2 hadmits.2.1

end JKYi.Http.RequestMachine
