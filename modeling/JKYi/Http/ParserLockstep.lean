import JKYi.Http.TokenCuts

/-!
# The parser over a part of a head

The parser over a part of a head, in a buffer of its own, is run beside the parser over the whole
head in one buffer. The two agree as long as every callback is served; a callback that is not
leaves a difference behind.
-/

namespace JKYi.Http

open Nat List

/-! What the callbacks see of the buffer. -/

theorem isPrefixOf_append_space {s u l l' : List UInt8} (hs : (32 : UInt8) ∉ s) :
    s.isPrefixOf (u ++ 32 :: l) = s.isPrefixOf (u ++ 32 :: l') := by
  induction s generalizing u with
  | nil => rfl
  | cons a s ih =>
    rw [mem_cons, not_or] at hs
    cases u with
    | nil =>
      have ha := beq_eq_false_iff_ne.mpr (Ne.symm hs.1)
      simp only [nil_append, isPrefixOf, ha, Bool.false_and]
    | cons b u => simp only [cons_append, isPrefixOf, ih hs.2]

theorem charsToHttpMethod_append_space (u l l' : List UInt8) :
    charsToHttpMethod (u ++ 32 :: l) = charsToHttpMethod (u ++ 32 :: l') := by
  have hspace : ∀ m ∈ httpMethodMap, (32 : UInt8) ∉ text m.2 := by decide
  rw [charsToHttpMethod, charsToHttpMethod,
    find?_congr fun m hm => isPrefixOf_append_space (hspace m hm)]

def SameBytes (B D : List UInt8) (k n : ℕ) : Prop := (B.drop k).take n = D.take n

section

variable {B D : List UInt8} {k n : ℕ}

theorem SameBytes.take_drop (h : SameBytes B D k n) {m j : ℕ} (hj : m + j ≤ n) :
    (B.drop (k + m)).take j = (D.drop m).take j := by
  have htake : (B.drop k).take (m + j) = D.take (m + j) := by
    have hmin := Nat.min_eq_left hj
    have := congrArg (take (m + j)) h
    rwa [take_take, take_take, hmin] at this
  have hdrop := congrArg (drop m) htake
  rwa [drop_take, drop_take, drop_drop, Nat.add_sub_cancel_left] at hdrop

theorem SameBytes.getElem? (h : SameBytes B D k n) {p : ℕ} (hp : p < n) : D[p]? = B[k + p]? := by
  rw [← getElem?_drop, ← getElem?_take_of_lt hp, ← h, getElem?_take_of_lt hp]

theorem SameBytes.substr (h : SameBytes B D k n) {m p : ℕ} (hm : m ≤ p) (hp : p ≤ n) :
    substr B (k + m) (k + p) = substr D m p := by
  rw [Http.substr, if_pos (by omega), Nat.add_sub_add_left, h.take_drop (by omega), Http.substr,
    if_pos hm]

theorem SameBytes.charsToHttpMethod (h : SameBytes B D k n) {m p : ℕ} (hm : m ≤ p) (hp : p < n)
    (hspace : D[p]? = some 32) :
    charsToHttpMethod (B.drop (k + m)) = charsToHttpMethod (D.drop m) := by
  have htoken := h.take_drop (m := m) (j := p - m + 1) (by omega)
  have hlast : (D.drop m)[p - m]? = some 32 := by
    rw [getElem?_drop, Nat.add_sub_cancel' hm, hspace]
  have hsplit : (D.drop m).take (p - m + 1) = (D.drop m).take (p - m) ++ [32] := by
    rw [take_add_one, hlast, Option.toList_some]
  rw [← take_append_drop (p - m + 1) (B.drop (k + m)),
    ← take_append_drop (p - m + 1) (D.drop m), htoken, hsplit, append_assoc,
    append_assoc]
  exact charsToHttpMethod_append_space _ _ _

end

namespace HttpRequestParser

open RequestMachine

/-! What one action does. -/

/-- The variables that point into the buffer. -/
structure Marks where
  mark : ℕ
  fieldStart : ℕ
  fieldLen : ℕ
  queryStart : ℕ

def marks (x : HttpRequestParser) : Marks :=
  ⟨x.parser.mark, x.parser.fieldStart, x.parser.fieldLen, x.parser.queryStart⟩

def Marks.after (m : Marks) (p : ℕ) : Action → Marks
  | .mark => { m with mark := p }
  | .startValue => { m with mark := p }
  | .startField => { m with fieldStart := p }
  | .writeField => { m with fieldLen := p - m.fieldStart }
  | .startQuery => { m with queryStart := p }
  | _ => m

section

variable {buffer : List UInt8} {p : ℕ} {f : Fresh} {a : Action} {x y : HttpRequestParser}

theorem perform_marks (h : perform buffer p a x = some y) :
    y.marks = x.marks.after p a ∧
      y.parser.bodyStart ≤ max x.parser.bodyStart (max x.parser.mark (p + 1)) := by
  cases a <;> simp only [perform, onRequestMethod, onRequestVersion, onRequestHttpField,
    Option.map_eq_some_iff, Option.ite_none_right_eq_some, Option.some.injEq] at h <;>
    grind [marks, Marks.after]

/-- Positions that have been passed. -/
structure Inside (b : ℕ) (f : Fresh) (x : HttpRequestParser) : Prop where
  bodyStart : x.parser.bodyStart ≤ b + 1
  mark : x.parser.mark ≤ b
  fieldStart : x.parser.fieldStart ≤ b
  fieldLen : x.parser.fieldLen ≤ b
  field : f.fieldLen = true → x.parser.fieldStart + x.parser.fieldLen ≤ b
  queryStart : f.queryStart = true → x.parser.queryStart ≤ b

theorem Inside.mono {b b' : ℕ} (h : Inside b f x) (hb : b ≤ b') : Inside b' f x :=
  ⟨h.bodyStart.trans (succ_le_succ hb), h.mark.trans hb, h.fieldStart.trans hb,
    h.fieldLen.trans hb, fun hf => (h.field hf).trans hb, fun hf => (h.queryStart hf).trans hb⟩

theorem Inside.exists (h : Inside p f x) (ha : a = .queryString → f.serves a = true) :
    ∃ y, perform buffer p a x = some y := by
  cases a with
  | writeField => exact ⟨_, if_pos h.fieldStart⟩
  | writeValue | fragment | requestPath => exact ⟨_, congrArg (Option.map _) (if_pos h.mark)⟩
  | httpVersion => exact ⟨_, if_pos h.mark⟩
  | queryString => exact ⟨_, congrArg (Option.map _) (if_pos (h.queryStart (ha rfl)))⟩
  | done =>
    simp only [perform]
    split_ifs <;> exact ⟨_, rfl⟩
  | _ => exact ⟨_, rfl⟩

theorem Inside.perform (h : Inside p f x) (hy : perform buffer p a x = some y) :
    Inside p (f.after a) y := by
  obtain ⟨hbody, hmark, hstart, hlen, hfield, hquery⟩ := h
  obtain ⟨hmarks, hbody'⟩ := perform_marks hy
  have hmark' := congrArg Marks.mark hmarks
  have hstart' := congrArg Marks.fieldStart hmarks
  have hlen' := congrArg Marks.fieldLen hmarks
  have hquery' := congrArg Marks.queryStart hmarks
  constructor
  · omega
  all_goals cases a <;> simp_all [Fresh.after, Marks.after, marks]

end

/-! What two runs have in common. -/

def Meets (fresh : Bool) (k i j : ℕ) : Prop := if fresh then i = k + j else i < k ∧ j = 0

/-- `w` has all of a text in its buffer, `t` the part of it from the position `k` on. They agree
in the variables that were set in this buffer; what was not set has been passed by. -/
structure Trails (k : ℕ) (f F : Fresh) (W T : Marks) : Prop where
  mark : Meets f.mark k W.mark T.mark
  fieldStart : Meets f.fieldStart k W.fieldStart T.fieldStart
  queryStart : f.queryStart = true → W.queryStart = k + T.queryStart
  query : f.queryStart = false → F.queryStart = true → W.queryStart < k + T.queryStart
  fieldLen : f.fieldLen = true → W.fieldLen = T.fieldLen
  shorter : f.fieldLen = false → F.fieldLen = true → 0 < W.fieldLen → T.fieldLen < W.fieldLen
  name : f.fieldLen = true → f.fieldStart = true
  header : f.header = true → f.mark = true ∧ f.fieldLen = true
  order : F.header = true → F.fieldLen = true ∧ (f.fieldLen = true → f.header = true)

theorem Trails.after {k p : ℕ} {f F : Fresh} {W T : Marks} (h : Trails k f F W T)
    (hstart : T.fieldStart ≤ p) (a : Action) :
    Trails k (f.after a) (F.after a) (W.after (k + p) a) (T.after p a) := by
  cases a with
  | mark => exact { h with mark := rfl, header := fun hf => ⟨rfl, (h.header hf).2⟩ }
  | startValue =>
    exact { h with
      mark := rfl
      header := fun hf => ⟨rfl, hf⟩
      order := fun hF => ⟨hF, id⟩ }
  | startField =>
    exact { h with
      fieldStart := rfl
      fieldLen := nofun
      shorter := nofun
      name := nofun
      header := nofun
      order := nofun }
  | writeField =>
    have hmeets := h.fieldStart
    unfold Meets at hmeets
    refine { h with fieldLen := ?_, shorter := ?_, name := id, header := nofun, order := nofun }
    · intro hf
      rw [show f.fieldStart = true from hf, if_pos rfl] at hmeets
      dsimp only [Marks.after]
      omega
    · intro hf _ _
      rw [show f.fieldStart = false from hf, if_neg Bool.false_ne_true] at hmeets
      dsimp only [Marks.after]
      omega
  | startQuery => exact { h with queryStart := fun _ => rfl, query := nofun }
  | _ => exact h

section

variable {B D : List UInt8} {k n p : ℕ} {f F : Fresh} {a : Action} {w t w' t' : HttpRequestParser}

theorem Meets.eq {i j : ℕ} {fresh : Bool} (h : Meets fresh k i j) (hfresh : fresh = true) :
    i = k + j :=
  (if_pos hfresh).mp h

theorem Meets.lt {i j : ℕ} {fresh : Bool} (h : Meets fresh k i j) (hfresh : ¬ fresh = true) :
    i < k ∧ j = 0 :=
  (if_neg hfresh).mp h

/-- A callback that is served does the same in both runs. -/
theorem Trails.same (h : Trails k f F w.marks t.marks) (hin : Inside p f t)
    (hsame : SameBytes B D k n) (hp : p < n) (ha : f.serves a = true)
    (hspace : a = .requestMethod → D[p]? = some 32)
    (hw : perform B (k + p) a w = some w') (ht : perform D p a t = some t')
    (hdata : t.data = w.data) (herror : t.error = w.error) :
    t'.data = w'.data ∧ t'.error = w'.error := by
  have hmark : f.mark = true → w.parser.mark = k + t.parser.mark := h.mark.eq
  have hquery : f.queryStart = true → w.parser.queryStart = k + t.parser.queryStart :=
    h.queryStart
  cases a with
  | writeValue =>
    obtain ⟨hf, hfield⟩ := h.header ha
    have hstart : w.parser.fieldStart = k + t.parser.fieldStart := h.fieldStart.eq (h.name hfield)
    have hlen : w.parser.fieldLen = t.parser.fieldLen := h.fieldLen hfield
    rw [perform, hmark hf, hsame.substr hin.mark hp.le, hstart, hlen,
      hsame.take_drop ((hin.field hfield).trans hp.le)] at hw
    obtain ⟨v, hv, rfl⟩ := Option.map_eq_some_iff.mp ht
    rw [hv, Option.map_some, Option.some.injEq] at hw
    subst hw
    simp only [onRequestHttpField]
    split_ifs
    · exact ⟨hdata, herror⟩
    · exact ⟨by rw [hdata], herror⟩
  | requestMethod =>
    cases hw
    cases ht
    have hmethod := hsame.charsToHttpMethod hin.mark hp (hspace rfl)
    simp only [onRequestMethod, hmark ha, hmethod]
    split_ifs
    · exact ⟨hdata, rfl⟩
    · exact ⟨by rw [hdata], herror⟩
  | fragment | requestPath =>
    rw [perform, hmark ha, hsame.substr hin.mark hp.le] at hw
    obtain ⟨v, hv, rfl⟩ := Option.map_eq_some_iff.mp ht
    rw [hv, Option.map_some, Option.some.injEq] at hw
    subst hw
    exact ⟨by rw [hdata], herror⟩
  | queryString =>
    rw [perform, hquery ha, hsame.substr (hin.queryStart ha) hp.le] at hw
    obtain ⟨v, hv, rfl⟩ := Option.map_eq_some_iff.mp ht
    rw [hv, Option.map_some, Option.some.injEq] at hw
    subst hw
    exact ⟨by rw [hdata], herror⟩
  | httpVersion =>
    have hle := hin.mark
    rw [perform, hmark ha, if_pos (by omega), Nat.add_sub_add_left] at hw
    rw [perform, if_pos hle] at ht
    cases hw
    cases ht
    have hcmp := strncmpEq_take (hsame.take_drop (m := t.parser.mark) (j := p - t.parser.mark)
      (by omega))
    simp only [onRequestVersion, hcmp]
    split_ifs
    · exact ⟨by rw [hdata], herror⟩
    · exact ⟨by rw [hdata], herror⟩
    · exact ⟨hdata, rfl⟩
  | writeField | done => grind [perform]
  | _ =>
    cases hw
    cases ht
    exact ⟨hdata, herror⟩

end

end HttpRequestParser
end JKYi.Http
