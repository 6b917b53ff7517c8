import JKYi.Http.ParserLockstep

/-!
# Callbacks that get a part of their text

A callback that is not served makes something else of the rest of a token than of the whole token,
and nothing that follows makes up for it.
-/

namespace JKYi.Http

open Nat List RequestMachine

/-! Headers. -/

def Headers.keysLength (h : Headers) : ℕ := (h.map fun e => e.1.length).sum

theorem Headers.set_size (key value : List UInt8) (h : Headers) :
    (h.set key value).length = h.length + 1 ∧
        (h.set key value).keysLength = h.keysLength + key.length ∨
      (h.set key value).length = h.length ∧ (h.set key value).keysLength = h.keysLength := by
  induction h with
  | nil => exact .inl ⟨rfl, by simp [set, keysLength]⟩
  | cons e h ih =>
    rw [set]
    split_ifs
    · exact .inl ⟨rfl, by simp [keysLength, Nat.add_comm]⟩
    · simpa [keysLength, Nat.add_assoc] using ih
    · exact .inr ⟨rfl, rfl⟩

namespace HttpRequestParser

/-- What a callback of the request line sets. -/
def lineField : Action → HttpRequest → HttpMethod × ℕ × List UInt8
  | .requestMethod, r => (r.method, 0, [])
  | .httpVersion, r => (.get, r.version, [])
  | .requestPath, r => (.get, 0, r.path)
  | .queryString, r => (.get, 0, r.query)
  | .fragment, r => (.get, 0, r.fragment)
  | _, _ => (.get, 0, [])

section

variable {buffer : List UInt8} {p : ℕ} {a : Action} {x y : HttpRequestParser}

theorem perform_line (h : perform buffer p a x = some y) {b : Action} (hb : b ≠ a) :
    lineField b y.data = lineField b x.data := by
  cases a <;> simp only [perform, onRequestMethod, onRequestVersion, onRequestHttpField,
    Option.map_eq_some_iff, Option.ite_none_right_eq_some, Option.some.injEq] at h <;>
    cases b <;> grind [lineField, HttpRequest.setHeader]

theorem perform_size (h : perform buffer p a x = some y) :
    y.data.headers.length = x.data.headers.length ∧
        y.data.headers.keysLength = x.data.headers.keysLength ∨
      a = .writeValue ∧ y.data.headers.length = x.data.headers.length + 1 ∧
        0 < x.parser.fieldLen ∧ y.data.headers.keysLength = x.data.headers.keysLength +
          ((buffer.drop x.parser.fieldStart).take x.parser.fieldLen).length := by
  cases a with
  | writeValue =>
    obtain ⟨v, -, rfl⟩ := Option.map_eq_some_iff.mp h
    unfold onRequestHttpField
    split_ifs with hempty
    · exact .inl ⟨rfl, rfl⟩
    · refine (Headers.set_size _ v x.data.headers).symm.imp id fun hsize =>
        ⟨rfl, hsize.1, ?_, hsize.2⟩
      rw [length_take] at hempty
      omega
  | _ =>
    simp only [perform, onRequestMethod, onRequestVersion, Option.map_eq_some_iff,
      Option.ite_none_right_eq_some, Option.some.injEq] at h
    grind

theorem replay_size {l : List (ℕ × Action)} (h : Scanner.replay (perform buffer) l x = some y) :
    y.data.headers.length ≤ x.data.headers.length + (l.map Prod.snd).count .writeValue := by
  induction l generalizing x with
  | nil =>
    cases h
    exact le_rfl
  | cons a l ih =>
    obtain ⟨x', hx, hrest⟩ := Scanner.replay_cons.mp h
    have hle := ih hrest
    rw [map_cons, count_cons]
    rcases perform_size hx with ⟨hlength, -⟩ | ⟨ha, hlength, -⟩
    · omega
    · rw [ha, beq_self_eq_true, if_pos rfl]
      omega

end

/-! Two runs that differ. -/

/-- By how much the names of the headers of `w` are longer than those of `t`. -/
def lead (w t : HttpRequestParser) : ℤ :=
  (w.data.headers.keysLength : ℤ) - t.data.headers.keysLength

/-- `t` has an error, or a field that no callback of `R` sets, or less headers than `w`. -/
def Differs (R : List (ℕ × Action)) (w t : HttpRequestParser) : Prop :=
  t.error ≠ 0 ∨ (∃ b, b ∉ R.map Prod.snd ∧ lineField b t.data ≠ lineField b w.data) ∨ 0 < lead w t

/-- The version that the callback takes a text for. -/
def versionOf (at_ : List UInt8) (length : ℕ) : Option ℕ :=
  if strncmpEq at_ "HTTP/1.0" length then some 0x10
  else if strncmpEq at_ "HTTP/1.1" length then some 0x11
  else none

/-- The request, unless an error was found. -/
def request (x : HttpRequestParser) : Option HttpRequest :=
  if x.error = 0 then some x.data else none

/-- What stands from `k` on is taken for the method or the version of the request as well. -/
def taken (head : List UInt8) (o : Option HttpRequest) (k : ℕ) : ℕ × Action → Bool
  | (_, .requestMethod) => o.any fun r => charsToHttpMethod (head.drop k) == r.method
  | (p, .httpVersion) => o.any fun r => versionOf (head.drop k) p == some r.version
  | _ => false

/-- The callbacks that need their text from its first byte on. -/
def counted (head : List UInt8) (o : Option HttpRequest) (k : ℕ) (l : List (ℕ × Action)) :
    List Action :=
  (l.filter fun a => !taken head o k a).map Prod.snd

section

variable {B D : List UInt8} {R : List (ℕ × Action)} {k n p i : ℕ} {f F : Fresh} {a : Action}
  {w t w' t' : HttpRequestParser}

theorem served_counted {o : Option HttpRequest} {l : List (ℕ × Action)} :
    f.served (counted B o k ((p, a) :: l)) =
      ((f.serves a || taken B o k (p, a)) && (f.after a).served (counted B o k l)) := by
  cases ht : taken B o k (p, a) with
  | false =>
    rw [counted, filter_cons_of_pos (by rw [ht]; rfl), map_cons, Fresh.served_cons, Bool.or_false]
    rfl
  | true =>
    have hafter : f.after a = f := by
      cases a <;> first | rfl | cases ht
    rw [counted, filter_cons_of_neg (by rw [ht]; exact Bool.false_ne_true), hafter, Bool.or_true,
      Bool.true_and]
    rfl

theorem served_counted_of {o : Option HttpRequest} {l : List (ℕ × Action)}
    (h : f.served (l.map Prod.snd) = true) : f.served (counted B o k l) = true := by
  induction l generalizing f with
  | nil => rfl
  | cons a l ih =>
    rw [map_cons, Fresh.served_cons, Bool.and_eq_true] at h
    rw [served_counted, h.1, Bool.true_or, ih h.2]
    rfl

theorem Differs.perform (h : Differs ((i, a) :: R) w t)
    (hlead : lead w t ≤ lead w' t') (hw : perform B (k + p) a w = some w')
    (ht : perform D p a t = some t') : Differs R w' t' := by
  rcases h with herror | ⟨b, hb, hne⟩ | hlt
  · exact .inl ((perform_frame ht).2.2.2 herror)
  · rw [map_cons, mem_cons, not_or] at hb
    exact .inr (.inl ⟨b, hb.2, by rwa [perform_line ht hb.1, perform_line hw hb.1]⟩)
  · exact .inr (.inr (hlt.trans_le hlead))

/-- If each header of the whole run has a name of its own, the names of `t` stay shorter. -/
theorem Trails.keys (h : Trails k f F w.marks t.marks) (hin : Inside (k + p) F w)
    (hp : k + p ≤ B.length) (hF : F.serves a = true)
    (hw : perform B (k + p) a w = some w') (ht : perform D p a t = some t')
    (hcount : w'.data.headers.length = w.data.headers.length + if a = .writeValue then 1 else 0) :
    lead w t ≤ lead w' t' ∧ (a = .writeValue → f.header = false → lead w t < lead w' t') := by
  unfold lead
  have htake := length_take_le t.parser.fieldLen (D.drop t.parser.fieldStart)
  have hfieldLen : f.fieldLen = true → w.parser.fieldLen = t.parser.fieldLen := h.fieldLen
  have hshorter : f.fieldLen = false → F.fieldLen = true → 0 < w.parser.fieldLen →
    t.parser.fieldLen < w.parser.fieldLen := h.shorter
  by_cases ha : a = .writeValue
  · subst ha
    obtain ⟨hlen, horder⟩ := h.order hF
    have hfield := hin.field hlen
    rw [if_pos rfl] at hcount
    obtain ⟨-, -, hpos, hkeys⟩ := (perform_size hw).resolve_left (by omega)
    rw [length_take, length_drop, Nat.min_eq_left (by omega)] at hkeys
    have hlt : f.header = false → t.parser.fieldLen < w.parser.fieldLen := fun hf =>
      hshorter (eq_false_of_ne_true fun hname => by simp [horder hname] at hf) hlen hpos
    have hle : t.parser.fieldLen ≤ w.parser.fieldLen := by
      cases hf : f.fieldLen with
      | false => exact (hshorter hf hlen hpos).le
      | true => exact (hfieldLen hf).ge
    rcases perform_size ht with ⟨-, hkeys'⟩ | ⟨-, -, -, hkeys'⟩
    · exact ⟨by omega, fun _ hf => by have := hlt hf; omega⟩
    · exact ⟨by omega, fun _ hf => by have := hlt hf; omega⟩
  · obtain ⟨-, hkeys⟩ := (perform_size hw).resolve_right fun h => ha h.1
    obtain ⟨-, hkeys'⟩ := (perform_size ht).resolve_right fun h => ha h.1
    exact ⟨by omega, fun hvalue => absurd hvalue ha⟩

theorem onRequestVersion_eq (x : HttpRequestParser) (at_ : List UInt8) (length : ℕ) :
    x.onRequestVersion at_ length =
      match versionOf at_ length with
      | some v => { x with data.version := v }
      | none => { x with error := 1001 } := by
  unfold onRequestVersion versionOf
  split_ifs <;> rfl

theorem substr_length {v : List UInt8} {m : ℕ} (h : substr B m p = some v) :
    m ≤ p ∧ v.length = min (p - m) (B.length - m) := by
  obtain ⟨hle, hv⟩ := Option.ite_none_right_eq_some.mp h
  cases hv
  exact ⟨hle, by rw [length_take, length_drop]⟩

/-- A callback that is not served leaves a difference, if its text is not taken for the same. -/
theorem Trails.unserved (h : Trails k f F w.marks t.marks) (hin' : Inside p f t)
    (hsame : SameBytes B D k n) (hp : p < n) (hB : k + p ≤ B.length)
    (ha : f.serves a = false) (hF : F.serves a = true)
    (hspace : a = .requestMethod → D[p]? = some 32)
    (hw : perform B (k + p) a w = some w') (ht : perform D p a t = some t')
    (hdata : t.data = w.data) (herror : t.error = w.error) (hw0 : w'.error = 0)
    (hR : a.place ≠ none → a ∉ R.map Prod.snd) :
    (taken B (some w'.data) k (p, a) = true → t'.data = w'.data ∧ t'.error = w'.error) ∧
      (taken B (some w'.data) k (p, a) = false →
        (a = .writeValue → f.header = false → lead w t < lead w' t') → Differs R w' t') := by
  have hmark : f.mark = false → w.parser.mark < k ∧ t.parser.mark = 0 :=
    fun hf => h.mark.lt (by rw [hf]; exact Bool.false_ne_true)
  have hquery : f.queryStart = false → F.queryStart = true →
    w.parser.queryStart < k + t.parser.queryStart := h.query
  cases a with
  | requestMethod =>
    cases hw
    cases ht
    have hmethod := hsame.charsToHttpMethod hin'.mark hp (hspace rfl)
    rw [(hmark ha).2, Nat.add_zero] at hmethod
    simp only [onRequestMethod, taken, Option.any_some, (hmark ha).2, hmethod] at hw0 ⊢
    split_ifs at hw0 ⊢ with hvalid hinvalid
    · exact ⟨fun htaken => absurd ((beq_iff_eq.mp htaken).symm.trans hinvalid) hvalid,
        fun _ _ => .inl (by simp)⟩
    · exact ⟨fun htaken => ⟨by rw [hdata, beq_iff_eq.mp htaken], herror⟩,
        fun hne _ => .inr (.inl ⟨_, hR (by decide),
          fun heq => beq_eq_false_iff_ne.mp hne (congrArg Prod.fst heq)⟩)⟩
  | httpVersion =>
    simp only [HttpRequestParser.perform, Option.ite_none_right_eq_some,
      Option.some.injEq] at hw ht
    obtain ⟨-, rfl⟩ := hw
    obtain ⟨hle, rfl⟩ := ht
    have htake := hsame.take_drop (m := 0) (j := p) (by omega)
    have hversion : versionOf (B.drop k) p = versionOf (D.drop 0) p := by
      rw [versionOf, versionOf, ← Nat.add_zero k, strncmpEq_take htake, strncmpEq_take htake]
    rw [onRequestVersion_eq] at hw0 ⊢
    rw [onRequestVersion_eq, (hmark ha).2, Nat.sub_zero]
    cases hv : versionOf (B.drop w.parser.mark) (k + p - w.parser.mark) with
    | none => simp [hv] at hw0
    | some v =>
      simp only [taken, Option.any_some, hversion]
      cases hv' : versionOf (D.drop 0) p with
      | none => exact ⟨by simp, fun _ _ => .inl (by simp)⟩
      | some v' =>
        refine ⟨fun htaken => ⟨?_, herror⟩,
          fun hne _ => .inr (.inl ⟨_, hR (by decide), fun heq => ?_⟩)⟩
        · rw [hdata, Option.some.inj (beq_iff_eq.mp htaken)]
        · exact beq_eq_false_iff_ne.mp hne (congrArg (fun x => some x.2.1) heq)
  | requestPath | fragment | queryString =>
    obtain ⟨v, hv, rfl⟩ := Option.map_eq_some_iff.mp hw
    obtain ⟨v', hv', rfl⟩ := Option.map_eq_some_iff.mp ht
    obtain ⟨-, hlength⟩ := substr_length hv
    obtain ⟨hle, hlength'⟩ := substr_length hv'
    refine ⟨by simp [taken], fun _ _ => .inr (.inl ⟨_, hR (by decide), fun heq => ?_⟩)⟩
    have heq := congrArg (fun x => x.2.2.length) heq
    simp only [lineField] at heq
    simp only [Fresh.serves] at ha hF
    simp only [ha, hF, true_implies] at hmark hquery
    omega
  | writeValue =>
    refine ⟨by simp [taken], fun _ hlead => .inr (.inr (lt_of_le_of_lt ?_ (hlead rfl ha)))⟩
    rw [lead, hdata, sub_self]
  | _ => cases ha

end

/-! The run over one read beside the whole run. -/

def actions (guard : Bool) (head : List UInt8) : List (ℕ × Action) :=
  table.trace guard stops head start 0

/-- Each header has a name of its own. -/
def OwnNames (guard : Bool) (head : List UInt8) (r : HttpRequest) : Prop :=
  r.headers.length = ((actions guard head).map Prod.snd).count .writeValue

/-- The whole run is at `w`, before the actions `R`, and ends with `e`. -/
structure Left (queryStart : ℕ) (guard : Bool) (B : List UInt8) (e : HttpRequestParser)
    (R : List (ℕ × Action)) (F : Fresh) (w : HttpRequestParser) : Prop where
  parsed : ∃ P, P ++ R = actions guard B ∧
    Scanner.replay (perform B) P (create queryStart guard) = some w
  served : F.served (R.map Prod.snd) = true
  run : Scanner.replay (perform B) R w = some e
  count : OwnNames guard B e.data →
    w.data.headers.length + (R.map Prod.snd).count .writeValue = e.data.headers.length

section

variable {guard : Bool} {B D : List UInt8} {e : HttpRequestParser} {R : List (ℕ × Action)}
  {queryStart k n p i : ℕ} {f F : Fresh} {a : Action} {w t : HttpRequestParser}

theorem Left.suffix (h : Left queryStart guard B e R F w) : R <:+ actions guard B :=
  h.parsed.imp fun _ => And.left

theorem Left.step (h : Left queryStart guard B e ((i, a) :: R) F w) : F.serves a = true ∧
    ∃ w', perform B i a w = some w' ∧ Left queryStart guard B e R (F.after a) w' ∧
      (OwnNames guard B e.data →
        w'.data.headers.length = w.data.headers.length + if a = .writeValue then 1 else 0) := by
  obtain ⟨⟨P, hP, hparsed⟩, hserved, hrun, hcount⟩ := h
  rw [map_cons, Fresh.served_cons, Bool.and_eq_true] at hserved
  obtain ⟨w', hw, hrun⟩ := Scanner.replay_cons.mp hrun
  have hgrow : OwnNames guard B e.data →
      w'.data.headers.length + (R.map Prod.snd).count .writeValue = e.data.headers.length ∧
      w'.data.headers.length = w.data.headers.length + if a = .writeValue then 1 else 0 := by
    intro hnames
    have hcount := hcount hnames
    have hle := replay_size hrun
    rw [map_cons, count_cons] at hcount
    simp only [beq_iff_eq] at hcount
    have hstep : w'.data.headers.length ≤
        w.data.headers.length + if a = .writeValue then 1 else 0 := by
      rcases perform_size hw with ⟨hlength, -⟩ | ⟨ha, hlength, -⟩
      · omega
      · rw [if_pos ha, hlength]
    omega
  refine ⟨hserved.1, w', hw, ⟨⟨P ++ [(i, a)], ?_, ?_⟩, hserved.2, hrun, fun h => (hgrow h).1⟩,
    fun h => (hgrow h).2⟩
  · rw [append_assoc, singleton_append, hP]
  · rw [Scanner.replay_append, hparsed]
    exact Scanner.replay_cons.mpr ⟨w', hw, rfl⟩

theorem Left.error (h : Left queryStart guard B e R F w) (he : e.error = 0) : w.error = 0 := by
  by_contra hw
  exact Scanner.foldlM_inv (I := fun x => x.error ≠ 0)
    (fun _ _ _ _ hperform => (perform_frame hperform).2.2.2) h.run hw he

theorem Left.once (h : Left queryStart guard B e ((i, a) :: R) F w) (ha : a.place ≠ none) :
    a ∉ R.map Prod.snd := by
  have honce := (trace_once guard B start 0).sublist (h.suffix.sublist.map Prod.snd)
  rw [map_cons, pairwise_cons] at honce
  exact fun hmem => honce.1 a hmem ha rfl

theorem error_of_taken (h : taken B e.request k (p, a) = true) : e.error = 0 := by
  by_contra he
  rw [request, if_neg he] at h
  cases a <;> cases h

theorem Left.line (h : Left queryStart guard B e R F w) (ha : a ∉ R.map Prod.snd) :
    lineField a e.data = lineField a w.data := by
  refine Scanner.foldlM_inv (I := fun x => lineField a x.data = lineField a w.data)
    (fun b hb x y hperform hx => ?_) h.run rfl
  rw [perform_line hperform, hx]
  rintro rfl
  exact ha (mem_map_of_mem hb)

theorem Left.taken_eq (h : Left queryStart guard B e R F w)
    (hR : a.place ≠ none → a ∉ R.map Prod.snd) (he : e.error = 0) :
    taken B e.request k (p, a) = taken B (some w.data) k (p, a) := by
  rw [request, if_pos he]
  cases a with
  | requestMethod =>
    exact congrArg (fun x => charsToHttpMethod (B.drop k) == x.1) (h.line (hR nofun))
  | httpVersion =>
    exact congrArg (fun x => versionOf (B.drop k) p == some x.2.1) (h.line (hR nofun))
  | _ => rfl

/-- The two runs are equal so far and `g` says whether the rest is served, or they differ. -/
def Agrees (guard : Bool) (B : List UInt8) (e : HttpRequestParser) (g : Bool) (l : List Action)
    (R : List (ℕ × Action)) (f : Fresh) (w t : HttpRequestParser) : Prop :=
  t.data = w.data ∧ t.error = w.error ∧ f.served l = g ∨
    g = false ∧ (OwnNames guard B e.data → e.error = 0 → Differs R w t)

theorem Agrees.same {g : Bool} {l : List Action} (h : Agrees guard B e g l R f w t)
    (hg : g = true) : t.data = w.data ∧ t.error = w.error := by
  rcases h with ⟨hdata, herror, -⟩ | ⟨hcut, -⟩
  · exact ⟨hdata, herror⟩
  · cases hcut.symm.trans hg

structure Beside (queryStart : ℕ) (guard : Bool) (B : List UInt8) (e : HttpRequestParser) (k : ℕ)
    (g : Bool) (later l : List (ℕ × Action)) (p : ℕ) (f F : Fresh) (w t : HttpRequestParser) :
    Prop where
  left : Left queryStart guard B e (l.map (fun a => (k + a.1, a.2)) ++ later) F w
  inside : Inside (k + p) F w
  inside' : Inside p f t
  trails : Trails k f F w.marks t.marks
  agrees : Agrees guard B e g (counted B e.request k l) (l.map (fun a => (k + a.1, a.2)) ++ later)
    f w t

theorem Beside.step {g : Bool} {later l : List (ℕ × Action)} {a : ℕ × Action}
    (h : Beside queryStart guard B e k g later (a :: l) p f F w t) (hsame : SameBytes B D k n)
    (hp : p ≤ a.1) (hn : a.1 < n) :
    (g = true → ∃ t', perform D a.1 a.2 t = some t') ∧
      ∀ t', perform D a.1 a.2 t = some t' →
        ∃ w' f' F', Beside queryStart guard B e k g later l a.1 f' F' w' t' := by
  obtain ⟨i, a⟩ := a
  obtain ⟨hleft, hin, hin', htrails, hagrees⟩ := h
  have hmem : (k + i, a) ∈ actions guard B := hleft.suffix.subset mem_cons_self
  have hin := hin.mono (Nat.add_le_add_left hp k)
  have hin' := hin'.mono hp
  obtain ⟨hF, w', hw, hleft', hcount⟩ := hleft.step
  have hspace : a = .requestMethod → D[i]? = some 32 := by
    rintro rfl
    rw [hsame.getElem? hn]
    exact trace_requestMethod hmem
  have hB : k + i ≤ B.length := by
    have := (Scanner.trace_bounds hmem).2
    omega
  constructor
  · rintro rfl
    rcases hagrees with ⟨-, -, hserved⟩ | ⟨hcut, -⟩
    · rw [served_counted, Bool.and_eq_true] at hserved
      refine hin'.exists ?_
      rintro rfl
      exact (Bool.or_false _).symm.trans hserved.1
    · cases hcut
  · intro t' ht
    have hlead := fun hnames => htrails.keys hin hB hF hw ht (hcount hnames)
    refine ⟨w', _, _, hleft', hin.perform hw, hin'.perform ht, ?_, ?_⟩
    · rw [(perform_marks hw).1, (perform_marks ht).1]
      exact htrails.after hin'.fieldStart a
    · rcases hagrees with ⟨hdata, herror, hserved⟩ | ⟨hcut, hdiffers⟩
      · rw [served_counted] at hserved
        cases ha : f.serves a with
        | true =>
          obtain ⟨hdata', herror'⟩ := htrails.same hin' hsame hn ha hspace hw ht hdata herror
          exact .inl ⟨hdata', herror', by rwa [ha, Bool.true_or, Bool.true_and] at hserved⟩
        | false =>
          rw [ha, Bool.false_or] at hserved
          have hunserved (he : e.error = 0) := htrails.unserved hin' hsame hn hB ha hF hspace hw ht
            hdata herror (hleft'.error he) hleft.once
          cases htaken : taken B e.request k (i, a) with
          | true =>
            have he := error_of_taken htaken
            obtain ⟨hdata', herror'⟩ :=
              (hunserved he).1 ((hleft'.taken_eq hleft.once he).symm.trans htaken)
            exact .inl ⟨hdata', herror', by rwa [htaken, Bool.true_and] at hserved⟩
          | false =>
            rw [htaken, Bool.false_and] at hserved
            refine .inr ⟨hserved.symm, fun hnames he => ?_⟩
            exact (hunserved he).2 ((hleft'.taken_eq hleft.once he).symm.trans htaken)
              (hlead hnames).2
      · exact .inr ⟨hcut, fun hnames he =>
          (hdiffers hnames he).perform (hlead hnames).1 hw ht⟩

/-- The run over one read: it does not fail if all of it is served. -/
theorem Beside.replay {g : Bool} {later : List (ℕ × Action)} {d : List UInt8} {q : ℕ}
    (h : Beside queryStart guard B e k g later (table.trace guard stops d q 0) 0 f F w t)
    (hsame : SameBytes B D k d.length) (hd : d ≠ []) :
    (g = true → ∃ t', Scanner.replay (perform D) (table.trace guard stops d q 0) t = some t') ∧
      ∀ t', Scanner.replay (perform D) (table.trace guard stops d q 0) t = some t' →
        ∃ p ≤ d.length - 1, ∃ w' f' F', Beside queryStart guard B e k g later [] p f' F' w' t' := by
  have hpos := length_pos_iff.mpr hd
  refine Scanner.replay_rule
    (I := fun l p t => ∃ w f F, Beside queryStart guard B e k g later l p f F w t)
    (fun h hp hm => ?_) (table.trace_sorted guard stops d q 0) (fun a ha => ?_) (Nat.zero_le _)
    ⟨w, f, F, h⟩
  · obtain ⟨w, f, F, h⟩ := h
    exact h.step hsame hp (by omega)
  · have := (Scanner.trace_bounds ha).2
    omega

end

end HttpRequestParser
end JKYi.Http
