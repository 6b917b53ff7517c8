import JKYi.Http.BodyDelivery
import JKYi.Http.CutCallbacks

/-!
# Requests whose head comes in several reads

A request is received as if its head had come in one read if each callback gets its text from one
read, or a part of it that is taken for the same. A request that is received in one read and whose
headers have names of their own shows every other split.
-/

namespace JKYi.Http

open HttpSession RequestMachine List

variable {ε : Type}

namespace HttpRequestParser

/-- The read gives each of its callbacks the whole text, or one that is taken for the same method
or version. -/
def cutFree (guard : Bool) (head : List UInt8) (o : Option HttpRequest) (r : ℕ × ℕ) : Bool :=
  (table.path guard stops (head.take r.1) start).all fun q =>
    (Fresh.atStart r.1).served
      (counted head o r.1 (table.trace guard stops ((head.drop r.1).take (r.2 - r.1)) q 0))

/-- The actions of `later` are those that follow behind `d`. -/
def Continues (guard : Bool) (d v : List UInt8) (q k : ℕ) (later : List (ℕ × Action)) : Prop :=
  table.trace guard stops (d ++ v) q k =
    (table.trace guard stops d q 0).map (fun a => (k + a.1, a.2)) ++ later

/-- Between two reads: `k` bytes of the head have been parsed, `v` is still to come. -/
structure Stands (queryStart : ℕ) (guard : Bool) (B : List UInt8) (e : HttpRequestParser)
    (b : Bool) (k : ℕ) (x : HttpRequestParser) (v : List UInt8) (F : Fresh)
    (w : HttpRequestParser) : Prop where
  drop : B.drop k = v
  relaxed : x.parser.uriRelaxed = guard
  path : table.path guard stops (B.take k) start = some x.parser.cs
  halts : table.halts guard stops v x.parser.cs = some firstFinal
  bodyStart : x.parser.bodyStart = 0
  left : Left queryStart guard B e (table.trace guard stops v x.parser.cs k) F w
  inside : Inside (k - 1) F w
  trails : Trails k (Fresh.atStart k) F w.marks x.rewind.marks
  agrees : Agrees guard B e b [] (table.trace guard stops v x.parser.cs k) (Fresh.atStart k) w x

section

variable {queryStart k r m : ℕ} {guard b : Bool} {B d v z data : List UInt8} {F : Fresh}
  {e w x y : HttpRequestParser} {l later : List (ℕ × Action)}

theorem execute_replay (hguard : x.parser.uriRelaxed = guard) (hcs : x.parser.cs ≠ 0)
    (hdata : data ≠ []) (hscan : table.scan guard stops (perform data) data x.parser.cs 0 x.rewind =
      (Scanner.replay (perform data) l x.rewind).map (⟨r, m, ·⟩)) :
    x.execute data = (Scanner.replay (perform data) l x.rewind).bind fun t =>
      if { t with parser.cs := r }.Checked data.length then some (m, { t with parser.cs := r })
      else none := by
  rw [execute, if_neg (length_eq_zero_iff.not.mpr hdata), hguard, hscan]
  cases ht : Scanner.replay (perform data) l x.rewind with
  | none => rfl
  | some t =>
    have hkept := Scanner.foldlM_inv (I := fun t => t.parser.cs = x.parser.cs)
      (fun _ _ _ _ hperform heq => (perform_frame hperform).2.1.trans heq) ht rfl
    simp only [Option.map_some, Option.bind_some, hkept, if_neg hcs]

theorem ne_zero_of_halts {q : ℕ} (h : table.halts guard stops v q = some r) : q ≠ 0 := by
  rintro rfl
  cases v with
  | nil => cases h
  | cons c v =>
    obtain ⟨e, hnext, -⟩ := Scanner.halts_cons.mp h
    cases hnext

theorem Inside.checked {p len : ℕ} {f : Fresh} (h : Inside p f x) (hp : p < len) (cs : ℕ) :
    { x with parser.cs := cs }.Checked len := by
  have hbody := h.bodyStart
  have hmark := h.mark
  have hstart := h.fieldStart
  have hlen := h.fieldLen
  refine ⟨?_, ?_, ?_, ?_⟩ <;> dsimp only <;> omega

theorem Stands.beside (h : Stands queryStart guard B e b k x (d ++ v) F w)
    (hlater : Continues guard d v x.parser.cs k later) :
    Beside queryStart guard B e k (b && cutFree guard B e.request (k, k + d.length)) later
      (table.trace guard stops d x.parser.cs 0) 0 (Fresh.atStart k) F w x.rewind := by
  have hcut : cutFree guard B e.request (k, k + d.length) =
      (Fresh.atStart k).served
        (counted B e.request k (table.trace guard stops d x.parser.cs 0)) := by
    rw [cutFree, h.path, Option.all_some, h.drop, Nat.add_sub_cancel_left, take_left]
  refine ⟨hlater ▸ h.left, h.inside.mono (Nat.sub_le ..), ?_, h.trails, ?_⟩
  · refine ⟨h.bodyStart.trans_le (Nat.zero_le _), le_rfl, le_rfl, le_rfl, fun _ => le_rfl, ?_⟩
    unfold Fresh.atStart
    split_ifs <;> exact nofun
  · rcases h.agrees with ⟨hdata, herror, rfl⟩ | ⟨rfl, hdiffers⟩
    · exact .inl ⟨hdata, herror, hcut.symm⟩
    · exact .inr ⟨rfl, fun hnames he => hlater ▸ hdiffers hnames he⟩

variable (later) in
/-- What a read makes of the parser, where `d` is what it brings of the head. -/
theorem Stands.execute (h : Stands queryStart guard B e b k x (d ++ v) F w) (hd : d ≠ [])
    (hscan : table.scan guard stops (perform (d ++ z)) (d ++ z) x.parser.cs 0 x.rewind =
      (Scanner.replay (perform (d ++ z)) (table.trace guard stops d x.parser.cs 0) x.rewind).map
        (⟨r, d.length, ·⟩))
    (hlater : Continues guard d v x.parser.cs k later) :
    ((b && cutFree guard B e.request (k, k + d.length)) = true → ∃ y,
      x.execute (d ++ z) = some (d.length, y)) ∧
    ∀ m y, x.execute (d ++ z) = some (m, y) → ∃ t p w' f' F', y = { t with parser.cs := r } ∧
      p ≤ d.length - 1 ∧
      Scanner.replay (perform (d ++ z)) (table.trace guard stops d x.parser.cs 0) x.rewind =
        some t ∧
      Beside queryStart guard B e k (b && cutFree guard B e.request (k, k + d.length)) later [] p f'
        F' w' t := by
  have hpos := length_pos_iff.mpr hd
  have hsame : SameBytes B (d ++ z) k d.length := by
    rw [SameBytes, h.drop, take_left, take_left]
  obtain ⟨hexists, hend⟩ := (h.beside hlater).replay hsame hd
  rw [execute_replay h.relaxed (ne_zero_of_halts h.halts) (append_ne_nil_of_left_ne_nil hd z)
    hscan]
  constructor
  · intro hG
    obtain ⟨t, ht⟩ := hexists hG
    obtain ⟨p, hp, w', f', F', hbeside⟩ := hend t ht
    refine ⟨{ t with parser.cs := r }, ?_⟩
    rw [ht, Option.bind_some, if_pos (hbeside.inside'.checked ?_ r)]
    rw [length_append]
    omega
  · intro m y hy
    obtain ⟨t, ht, hy⟩ := Option.bind_eq_some_iff.mp hy
    obtain ⟨p, hp, w', f', F', hbeside⟩ := hend t ht
    simp only [Option.ite_none_right_eq_some, Option.some.injEq, Prod.mk.injEq] at hy
    exact ⟨t, p, w', f', F', hy.2.2.symm, hp, ht, hbeside⟩

theorem Stands.execute_path (h : Stands queryStart guard B e b k x (d ++ v) F w) (hd : d ≠ [])
    (hv : v ≠ []) :
    ((b && cutFree guard B e.request (k, k + d.length)) = true → ∃ y,
      x.execute d = some (d.length, y)) ∧
    ∀ m y, x.execute d = some (m, y) → y.parser.cs ≠ 0 ∧ y.isFinished = false ∧ ∃ F' w',
      Stands queryStart guard B e (b && cutFree guard B e.request (k, k + d.length)) (k + d.length)
        y v F' w' := by
  have hpos := length_pos_iff.mpr hd
  have htake : B.take (k + d.length) = B.take k ++ d := by
    rw [take_add, h.drop, take_left]
  obtain ⟨r, hpath, hhalts⟩ := Scanner.path_of_halts h.halts hv
  have hlater : Continues guard d v x.parser.cs k (table.trace guard stops v r (k + d.length)) := by
    rw [Continues, Scanner.trace_append hpath, ← Scanner.trace_add, Nat.add_zero]
  obtain ⟨hexists, hend⟩ := h.execute (z := []) (r := r) _ hd
    (by rw [append_nil, Scanner.scan_path hpath, Nat.zero_add]) hlater
  rw [append_nil] at hexists hend
  refine ⟨hexists, fun m y hy => ?_⟩
  obtain ⟨t, p, w', f', F', rfl, hp, ht, hleft, hin, -, htrails, hagrees⟩ := hend m y hy
  have hlow := Scanner.path_target (G := fun r => r < firstFinal) target_lt hpath hd
  have hrelaxed := Scanner.foldlM_inv (I := fun t => t.parser.uriRelaxed = guard)
    (fun _ _ _ _ hperform heq => (perform_frame hperform).1.trans heq) ht h.relaxed
  have hbody := Scanner.foldlM_inv (I := fun t => t.parser.bodyStart = 0)
    (fun a ha _ _ hperform heq => ((perform_frame hperform).2.2.1
      (Scanner.trace_path_go hpath ha)).trans heq) ht h.bodyStart
  have hmark : w'.parser.mark < k + d.length := by
    have := hin.mark
    omega
  have hstart : w'.parser.fieldStart < k + d.length := by
    have := hin.fieldStart
    omega
  have hquery : F'.queryStart = true →
      w'.parser.queryStart < k + d.length + t.parser.queryStart := by
    intro hF
    cases hf : f'.queryStart with
    | true =>
      have : w'.parser.queryStart = k + t.parser.queryStart := htrails.queryStart hf
      omega
    | false =>
      have : w'.parser.queryStart < k + t.parser.queryStart := htrails.query hf hF
      omega
  refine ⟨ne_zero_of_halts hhalts, decide_eq_false (not_le.mpr hlow), F', w', ?_, hrelaxed, ?_,
    hhalts, hbody, hleft, hin.mono (by omega), ?_, hagrees⟩
  · rw [← drop_drop, h.drop, drop_left]
  · rw [htake, Scanner.path_append h.path, hpath]
  · rw [Fresh.atStart, if_neg (by omega)]
    exact ⟨⟨hmark, rfl⟩, ⟨hstart, rfl⟩, nofun, fun _ => hquery, nofun, fun _ _ => id, nofun, nofun,
      fun hF => ⟨(htrails.order hF).1, nofun⟩⟩

theorem Stands.execute_last (h : Stands queryStart guard B e b k x v F w) (z : List UInt8) :
    ((b && cutFree guard B e.request (k, k + (v ++ z).length)) = true → ∃ y,
      x.execute (v ++ z) = some (v.length, y)) ∧
    ∀ m y, x.execute (v ++ z) = some (m, y) → y.parser.cs = firstFinal ∧ ∃ f,
      Agrees guard B e (b && cutFree guard B e.request (k, k + (v ++ z).length)) [] [] f e y := by
  have hv : v ≠ [] := by
    rintro rfl
    cases h.halts
  have hcut : cutFree guard B e.request (k, k + (v ++ z).length) =
      cutFree guard B e.request (k, k + v.length) := by
    rw [cutFree, cutFree, h.drop, Nat.add_sub_cancel_left, Nat.add_sub_cancel_left, take_length,
      take_of_length_le (by rw [length_append]; omega)]
  have hx : Stands queryStart guard B e b k x (v ++ []) F w := by rwa [append_nil]
  obtain ⟨hexists, hend⟩ := hx.execute (z := z) (r := firstFinal) [] hv
    (by rw [Scanner.scan_halts h.halts, Nat.zero_add])
    (by rw [Continues, append_nil, append_nil, ← Scanner.trace_add, Nat.add_zero])
  rw [hcut]
  refine ⟨hexists, fun m y hy => ?_⟩
  obtain ⟨t, p, w', f', F', rfl, -, -, hleft, -, -, -, hagrees⟩ := hend m y hy
  cases hleft.run
  exact ⟨rfl, f', hagrees⟩

/-! The first read. -/

theorem cutFree_zero (guard : Bool) (head : List UInt8) (o : Option HttpRequest) (m : ℕ) :
    cutFree guard head o (0, m) = true :=
  served_counted_of (served_known (f := Fresh.atStart 0) (by decide))

theorem exists_stands (queryStart : ℕ) {head : List UInt8}
    (hhead : table.halts guard stops head start = some firstFinal) : ∃ e F,
      Stands queryStart guard head e true 0 (create queryStart guard) head F
        (create queryStart guard) := by
  have hserved : (Fresh.atStart 0).served ((actions guard head).map Prod.snd) = true :=
    served_known (by decide)
  have hinside : Inside 0 (Fresh.atStart 0) (create queryStart guard) :=
    ⟨Nat.zero_le _, le_rfl, le_rfl, le_rfl, fun _ => le_rfl, nofun⟩
  obtain ⟨e, he⟩ := (Scanner.replay_rule (m := head.length) (G := True)
    (I := fun l p t => ∃ F, Inside p F t ∧ F.served (l.map Prod.snd) = true)
    (fun h hp _ => by
      obtain ⟨F, hin, hserved⟩ := h
      rw [map_cons, Fresh.served_cons, Bool.and_eq_true] at hserved
      exact ⟨fun _ => (hin.mono hp).exists fun _ => hserved.1,
        fun t (ht : perform head _ _ _ = _) => ⟨_, (hin.mono hp).perform ht, hserved.2⟩⟩)
    (table.trace_sorted guard stops head start 0)
    (fun a ha => ⟨Nat.zero_le _, by have := (Scanner.trace_bounds ha).2; omega⟩) (Nat.zero_le _)
    ⟨_, hinside, hserved⟩).1 trivial
  exact ⟨e, Fresh.atStart 0, drop_zero, rfl, rfl, hhead, rfl,
    ⟨⟨[], rfl, rfl⟩, hserved, he, fun h => (Nat.zero_add _).trans h.symm⟩, hinside,
    ⟨rfl, rfl, nofun, nofun, fun _ => rfl, nofun, fun _ => rfl, fun _ => ⟨rfl, rfl⟩,
      fun _ => ⟨rfl, fun _ => rfl⟩⟩, .inl ⟨rfl, rfl, rfl⟩⟩

/-- The parser over the first `k` bytes in one buffer finds no error. -/
def Reached (queryStart : ℕ) (guard : Bool) (head : List UInt8) (k : ℕ) : Prop :=
  ∀ n y, (create queryStart guard).execute (head.take k) = some (n, y) → y.error = 0

theorem Stands.reached (h : Stands queryStart guard B e b k x v F w) (hw : w.error = 0)
    (hB : table.halts guard stops B start = some firstFinal) : Reached queryStart guard B k := by
  intro n y hy
  have hv : v ≠ [] := by
    rintro rfl
    cases h.halts
  have hk : (B.take k).length = k := by
    have := length_pos_iff.mpr hv
    rw [← h.drop, length_drop] at this
    rw [length_take]
    omega
  by_cases h0 : k = 0
  · subst h0
    cases hy
    rfl
  · obtain ⟨e', F', hstart⟩ := exists_stands queryStart hB
    have hstart : Stands queryStart guard B e' true 0 (create queryStart guard) (B.take k ++ v) F'
        (create queryStart guard) := by
      rwa [← h.drop, take_append_drop]
    have hd : B.take k ≠ [] := length_pos_iff.mp (hk.symm ▸ Nat.pos_of_ne_zero h0)
    obtain ⟨-, -, F'', w', hy⟩ := (hstart.execute_path hd hv).2 n y hy
    rw [hk, Nat.zero_add, cutFree_zero] at hy
    -- both are at the same place of the same run
    have hcs : y.parser.cs = x.parser.cs := Option.some.inj (hy.path.symm.trans h.path)
    obtain ⟨P, hP, hw'⟩ := h.left.parsed
    obtain ⟨P', hP', hw''⟩ := hy.left.parsed
    rw [hcs] at hP'
    cases append_cancel_right (hP.trans hP'.symm)
    cases hw'.symm.trans hw''
    exact (hy.agrees.same rfl).2.trans hw

theorem hasError_eq (hcs : y.parser.cs ≠ 0) : headParser.hasError y = (y.error != 0) := by
  simp [headParser, hasError, hcs]

theorem forward (queryStart : ℕ) (hB : table.halts guard stops B start = some firstFinal) :
    headParser.Forward
      (fun k x v => x.error = 0 ∧ ∃ F w, Stands queryStart guard B e true k x v F w)
      (fun r => Reached queryStart guard B r.1 → cutFree guard B e.request r = true) (e.error ≠ 0)
      (fun y => e.error = 0 ∧ y.data = e.data) := by
  have hreached : ∀ {k x v F w}, Stands queryStart guard B e true k x v F w → x.error = 0 →
      Reached queryStart guard B k :=
    fun hx h0 => hx.reached ((hx.agrees.same rfl).2.symm.trans h0) hB
  constructor
  · rintro k x v ⟨-, F, w, hx⟩ rfl
    cases hx.halts
  · rintro k x d v ⟨h0, F, w, hx⟩ hd hv hok
    have hcut := hok (hreached hx h0)
    obtain ⟨y, hexec⟩ := (hx.execute_path hd hv).1 hcut
    obtain ⟨hcs, hgo, F', w', hy⟩ := (hx.execute_path hd hv).2 _ y hexec
    rw [hcut] at hy
    refine ⟨y, hexec, ?_⟩
    rw [hasError_eq hcs]
    by_cases herror : y.error = 0
    · exact .inr ⟨bne_eq_false_iff_eq.mpr herror, hgo, herror, F', w', hy⟩
    · exact .inl ⟨bne_iff_ne.mpr herror, fun he =>
        herror ((hy.agrees.same rfl).2.trans (hy.left.error he))⟩
  · rintro k x v z ⟨h0, F, w, hx⟩ hok
    have hcut := hok (hreached hx h0)
    obtain ⟨y, hexec⟩ := (hx.execute_last z).1 hcut
    obtain ⟨hcs, f, hagrees⟩ := (hx.execute_last z).2 _ y hexec
    obtain ⟨hdata, herror⟩ := hagrees.same hcut
    refine ⟨y, hexec, ?_⟩
    rw [hasError_eq (hcs.trans_ne (by decide)), herror]
    by_cases he : e.error = 0
    · exact .inr ⟨bne_eq_false_iff_eq.mpr he, decide_eq_true hcs.ge, he, hdata⟩
    · exact .inl ⟨bne_iff_ne.mpr he, he⟩

/-- What the head of a request is taken for. -/
def parts (r : HttpRequest) :
    HttpMethod × ℕ × List UInt8 × List UInt8 × List UInt8 × Headers :=
  (r.method, r.version, r.path, r.query, r.fragment, r.headers)

theorem Differs.parts_ne (h : Differs [] w y) (hy : y.error = 0) : parts y.data ≠ parts w.data := by
  intro heq
  simp only [parts, Prod.mk.injEq] at heq
  obtain ⟨hmethod, hversion, hpath, hquery, hfragment, hheaders⟩ := heq
  rcases h with herror | ⟨b, -, hne⟩ | hlt
  · exact herror hy
  · cases b <;> simp_all [lineField]
  · rw [lead, hheaders, sub_self] at hlt
    exact hlt.false

theorem traced (hnames : OwnNames guard B e.data) (he : e.error = 0) :
    headParser.Traced (fun b k x v => ∃ F w, Stands queryStart guard B e b k x v F w)
      (fun r => cutFree guard B e.request r = true) (fun y => parts y.data ≠ parts e.data) := by
  constructor
  · rintro b k x d v y ⟨F, w, hx⟩ hd hv hexec -
    obtain ⟨-, -, F', w', hy⟩ := (hx.execute_path hd hv).2 _ y hexec
    exact ⟨_, ⟨F', w', hy⟩, Bool.and_eq_true_iff.mp⟩
  · rintro b k x v z y ⟨F, w, hx⟩ hexec hnone
    obtain ⟨hcs, f, ⟨-, -, hall⟩ | ⟨-, hdiffers⟩⟩ := (hx.execute_last z).2 _ y hexec
    · exact .inr (Bool.and_eq_true_iff.mp hall.symm)
    · rw [hasError_eq (hcs.trans_ne (by decide)), bne_eq_false_iff_eq] at hnone
      exact .inl ((hdiffers hnames he).parts_ne hnone)

end

end HttpRequestParser

/-! The request. -/

open HttpRequestParser

/-- What the head is taken for in one buffer. -/
def wholeRequest (queryStart : ℕ) (uriRelaxed : Bool) (head : List UInt8) : Option HttpRequest :=
  ((create queryStart uriRelaxed).execute head).bind fun y => y.2.request

/-- No token is cut by a read that the loop comes to. -/
def Unsplit (buffSize queryStart : ℕ) (uriRelaxed : Bool) (head : List UInt8) (s : Socket) : Prop :=
  ∀ r ∈ reads buffSize (s.incoming.length + 1) 0 s, r.1 < head.length →
    Reached queryStart uriRelaxed head r.1 →
      cutFree uriRelaxed head (wholeRequest queryStart uriRelaxed head) r = true

/-- What `recvRequest` makes of a socket. -/
def received (ε : Type) (owner : Bool) (buffSize queryStart : ℕ) (uriRelaxed : Bool) (s : Socket) :
    Option (Option HttpRequest) :=
  ((recvRequest owner buffSize (.create queryStart uriRelaxed) : Run ε Socket _) s).value

theorem parts_init (r : HttpRequest) : parts r.init = parts r := by
  rw [HttpRequest.init]
  split
  · rfl
  · split <;> rfl

theorem parts_withBody {r r' : HttpRequest} {rest : List UInt8} (h : r.withBody rest = some r') :
    parts r' = parts r := by
  unfold HttpRequest.withBody at h
  split_ifs at h <;> cases h <;> exact parts_init _

section

variable {owner uriRelaxed : Bool} {buffSize queryStart : ℕ} {head rest : List UInt8}
  {s s' : Socket} {e : HttpRequestParser} {F : Fresh} {r : HttpRequest}

theorem recvRequest_parts {x : HttpRequestParser}
    (h : ((recvRequest owner buffSize x : Run ε Socket _) s).value = some (some r)) :
    ∃ y data s₁, (recvHead headParser owner buffSize x : Run ε Socket _) s =
      .ok (some (y, data)) s₁ ∧ parts r = parts y.data := by
  obtain ⟨s₂, h⟩ := Outcome.value_eq_some.mp h
  obtain ⟨o, s₁, hrecv, h⟩ := Run.bind_eq_ok_iff.mp h
  cases o with
  | none => cases h
  | some p =>
    obtain ⟨o, s₃, -, h⟩ := Run.bind_eq_ok_iff.mp h
    cases o with
    | none => cases h
    | some body =>
      cases h
      refine ⟨p.1, p.2, s₁, hrecv, (parts_init _).trans ?_⟩
      split_ifs <;> rfl

section

variable (hstart : Stands queryStart uriRelaxed head e true 0 (create queryStart uriRelaxed) head F
  (create queryStart uriRelaxed))
include hstart

theorem wholeRequest_eq : wholeRequest queryStart uriRelaxed head = e.request := by
  obtain ⟨y, hy⟩ := (hstart.execute_last []).1 (cutFree_zero ..)
  obtain ⟨-, f, hagrees⟩ := (hstart.execute_last []).2 _ y hy
  obtain ⟨hdata, herror⟩ := hagrees.same (cutFree_zero ..)
  rw [append_nil] at hy
  rw [wholeRequest, hy, Option.bind_some, request, request, hdata, herror]

variable (owner) in
theorem recvRequest_unsplit (hbuff : 0 < buffSize)
    (hlong : ∀ r ∈ wholeRequest queryStart uriRelaxed head, ¬ r.LongBody rest)
    (hs : s.connected = true) (hin : s.incoming = head ++ rest)
    (hunsplit : Unsplit buffSize queryStart uriRelaxed head s) :
    received ε owner buffSize queryStart uriRelaxed s =
      some (e.request.bind (·.withBody rest)) := by
  rw [Unsplit, wholeRequest_eq hstart] at hunsplit
  rw [wholeRequest_eq hstart, request] at hlong
  rcases (forward queryStart hstart.halts).headLoop (ε := ε) owner hbuff _ ⟨rfl, F, _, hstart⟩ hs
    hin (Nat.lt_succ_self _) (fun r hr hlt => hunsplit r hr (by rwa [Nat.zero_add] at hlt)) with
    ⟨⟨s₁, hloop⟩, herror⟩ | ⟨y, data, s₁, hloop, herror, hdata⟩
  all_goals
    have hrecv : (recvHead headParser owner buffSize (.create queryStart uriRelaxed) :
        Run ε Socket _) s = _ := (Run.bind_ok (Run.get_run s)).trans hloop
  · rw [received, recvRequest, Run.bind_ok hrecv, request, if_neg herror]
    rfl
  · have hrest := recvHead_rest follows hin hstart.halts hrecv
    rw [if_pos herror, ← hdata] at hlong
    obtain ⟨s₂, hrequest⟩ := recvRequest_withBody hrecv hrest (hlong _ rfl)
    rw [received, hrequest, request, if_pos herror, ← hdata, Outcome.value, Option.bind_some]

end

theorem unsplit_of_le (hle : head.length ≤ s.arriving buffSize) :
    Unsplit buffSize queryStart uriRelaxed head s := by
  intro r hr hlt _
  rw [reads, mem_cons] at hr
  rcases hr with rfl | hr
  · exact cutFree_zero ..
  · have := le_of_mem_reads hr
    omega

end

/-- A request is received as when its head comes in one read if no token is cut by a read that the
loop comes to, and if it is received at all and its headers have names of their own, only then. -/
theorem request_unsplit_iff (owner : Bool) (buffSize queryStart : ℕ) (uriRelaxed : Bool)
    (head rest : List UInt8) (s s' : Socket)
    (hhead : table.halts uriRelaxed stops head start = some firstFinal)
    (hlong : ∀ r ∈ wholeRequest queryStart uriRelaxed head, ¬ r.LongBody rest)
    (hs : s.connected = true) (hs' : s'.connected = true) (hin : s.incoming = head ++ rest)
    (hin' : s'.incoming = head ++ rest) (hle : head.length ≤ s'.arriving buffSize) :
    (Unsplit buffSize queryStart uriRelaxed head s →
      received ε owner buffSize queryStart uriRelaxed s =
        received ε owner buffSize queryStart uriRelaxed s') ∧
    ∀ r, received ε owner buffSize queryStart uriRelaxed s' = some (some r) →
      OwnNames uriRelaxed head r →
      (received ε owner buffSize queryStart uriRelaxed s = some (some r) ↔
        Unsplit buffSize queryStart uriRelaxed head s) := by
  obtain ⟨e, F, hstart⟩ := exists_stands queryStart hhead
  have hbuff : 0 < buffSize := by
    have hpos : 0 < head.length := by
      rw [length_pos_iff]
      rintro rfl
      cases hhead
    exact hpos.trans_le (hle.trans (s'.arriving_le buffSize))
  have hunsplit := recvRequest_unsplit (ε := ε) owner (s := s) hstart hbuff hlong hs hin
  have hwhole := recvRequest_unsplit (ε := ε) owner hstart hbuff hlong hs' hin'
    (unsplit_of_le hle)
  rw [hwhole]
  refine ⟨hunsplit, fun r hr hnames => ⟨fun hvalue => ?_, fun h => (hunsplit h).trans hr⟩⟩
  obtain ⟨r', hr', hbody⟩ := Option.bind_eq_some_iff.mp (Option.some.inj hr)
  obtain ⟨he, hr'⟩ := Option.ite_none_right_eq_some.mp hr'
  cases hr'
  have hparts := parts_withBody hbody
  obtain ⟨y, data, s₁, hrecv, hy⟩ := recvRequest_parts hvalue
  have hnames : OwnNames uriRelaxed head e.data := by
    rw [OwnNames, ← hnames]
    exact congrArg (fun p => p.2.2.2.2.2.length) hparts.symm
  obtain ⟨-, hne | ⟨-, hgood⟩⟩ := headLoop_rest follows (traced hnames he) _ hin hhead
    ⟨F, _, hstart⟩ ((Run.bind_ok (Run.get_run s)).symm.trans hrecv)
  · exact absurd (hy.symm.trans hparts) hne
  · rw [Unsplit, wholeRequest_eq hstart]
    exact fun r hr hlt _ => hgood r hr (by rwa [Nat.zero_add])

def splitSocket (head : String) (k : ℕ) : Socket :=
  ⟨true, text head, [], fun i => if i = 0 then k else 100⟩

def splitRequest (head : String) (k : ℕ) : Option (Option HttpRequest) :=
  received Unit true 100 0 false (splitSocket head k)

def queryHead : String := "GET /?ab HTTP/1.0\r\n\r\n"

/-- A read that ends behind the path's question mark or behind the version, and one that ends in
the query. -/
theorem request_unsplit_iff_query :
    splitRequest queryHead 6 = splitRequest queryHead 100 ∧
      splitRequest queryHead 17 = splitRequest queryHead 100 ∧
      splitRequest queryHead 7 ≠ splitRequest queryHead 100 := by
  have hiff := fun k => request_unsplit_iff (ε := Unit) true 100 0 false
    (text queryHead) [] (splitSocket queryHead k) (splitSocket queryHead 100) (by decide +kernel)
    (fun _ _ hlong => absurd (hlong.1.trans hlong.2.2) (by simp)) rfl rfl (append_nil _).symm
    (append_nil _).symm (by decide)
  have hfree : ∀ k ∈ [6, 17], ∀ r ∈ reads 100 22 0 (splitSocket queryHead k), r.1 < 21 →
      cutFree false (text queryHead) (wholeRequest 0 false (text queryHead)) r = true := by
    decide +kernel
  have hcut : (7, 21) ∈ reads 100 22 0 (splitSocket queryHead 7) ∧
      cutFree false (text queryHead) (wholeRequest 0 false (text queryHead)) (7, 21) = false := by
    decide +kernel
  have hreached : ((HttpRequestParser.create 0 false).execute
      ((text queryHead).take 7)).all (fun y => y.2.error == 0) = true := by
    decide +kernel
  have hwhole : splitRequest queryHead 100 =
      some (some { HttpRequest.create with version := 0x10, query := text "ab" }) := by
    decide +kernel
  refine ⟨(hiff 6).1 fun r hr hlt _ => hfree 6 (by decide) r hr hlt,
    (hiff 17).1 fun r hr hlt _ => hfree 17 (by decide) r hr hlt, fun heq => ?_⟩
  have hunsplit := ((hiff 7).2 _ hwhole (by rw [OwnNames]; decide +kernel)).mp (heq.trans hwhole)
  refine Bool.false_ne_true (hcut.2.symm.trans (hunsplit _ hcut.1 (by decide) fun n y hy => ?_))
  rw [hy] at hreached
  exact beq_iff_eq.mp hreached

/-- A request that is refused if its first byte comes alone, and one that loses a part of its path
if the first read ends there. -/
theorem request_split_differs :
    splitRequest "GET /ab HTTP/1.1\r\n\r\n" 1 = some none ∧
    splitRequest "GET /ab HTTP/1.1\r\n\r\n" 6 =
      some (some { HttpRequest.create with path := text "b" }) ∧
    splitRequest "GET /ab HTTP/1.1\r\n\r\n" 100 =
      some (some { HttpRequest.create with path := text "/ab" }) := by
  decide +kernel

end JKYi.Http
