import JKYi.Reactor.HttpParse

/-!
# The lines of a request

The request line is a method, a target and a version with one space between them.
The header section should end with an empty line; the parser ends it with the first
line in which there is no colon.
-/

namespace JKYi.Net

open Consumer List

open Http (text)

namespace HttpRequest

def IsTarget (tail : List UInt8) : Prop :=
  ∃ target version, 32 ∉ target ∧ (version = text "HTTP/1.0" ∨ version = text "HTTP/1.1") ∧
    tail = target ++ 32 :: version

def IsRequestLine (line : List UInt8) : Prop :=
  ∃ m tail, Method.ofString m ≠ .kInvalid ∧ IsTarget tail ∧ line = m ++ 32 :: tail

def IsBrokenLine (line : List UInt8) : Prop :=
  ∃ m tail, Method.ofString m ≠ .kInvalid ∧ ¬ IsTarget tail ∧ line = m ++ 32 :: tail

variable {r : HttpRequest} {m tail line : List UInt8}

theorem not_mem_method {c : UInt8} (h : Method.ofString m ≠ .kInvalid)
    (hc : ∀ name ∈ [text "GET", text "POST", text "HEAD", text "PUT", text "DELETE"], c ∉ name) :
    c ∉ m := by
  refine hc m ?_
  unfold Method.ofString at h
  split_ifs at h with h₁ h₂ h₃ h₄ h₅
  · simp [h₁]
  · simp [h₂]
  · simp [h₃]
  · simp [h₄]
  · simp [h₅]
  · exact absurd rfl h

theorem space_not_mem (h : Method.ofString m ≠ .kInvalid) : 32 ∉ m :=
  not_mem_method h (by decide)

theorem setVersionText_iff {version : List UInt8} : (r.setVersionText version).1 = true ↔
    version = text "HTTP/1.0" ∨ version = text "HTTP/1.1" := by
  constructor
  · intro h
    rw [setVersionText] at h
    split_ifs at h with hlen hone hzero
    · right
      rw [← take_append_drop 7 version, hlen.2, hone]
      decide
    · left
      rw [← take_append_drop 7 version, hlen.2, hzero]
      decide
  · rintro (rfl | rfl) <;> rfl

theorem processTarget_eq (r : HttpRequest) {target : List UInt8} (h : 32 ∉ target)
    (version : List UInt8) : r.processTarget (target ++ 32 :: version) =
      (r.setTarget target).setVersionText version := by
  rw [processTarget, if_pos (idxOf_append_ne_length target version), idxOf_cut h, take_left,
    ← drop_drop, drop_left]
  rfl

theorem processTarget_iff (r : HttpRequest) (tail : List UInt8) :
    (r.processTarget tail).1 = true ↔ IsTarget tail := by
  constructor
  · intro h
    rw [processTarget] at h
    split at h
    · next hspace =>
      obtain ⟨hnot, hcut⟩ := eq_cut (idxOf_ne_length.mp hspace)
      exact ⟨_, _, hnot, setVersionText_iff.mp h, hcut⟩
    · cases h
  · rintro ⟨target, version, hnot, hversion, rfl⟩
    rw [processTarget_eq r hnot]
    exact setVersionText_iff.mpr hversion

theorem processTarget_frame (r : HttpRequest) (tail : List UInt8) :
    ∃ version path query, (r.processTarget tail).2 =
      { r with version := version, path := path, query := query } := by
  have htarget (target : List UInt8) : ∃ path query, r.setTarget target =
      { r with path := path, query := query } := by
    rw [setTarget]
    split <;> exact ⟨_, _, rfl⟩
  rw [processTarget]
  split
  · obtain ⟨path, query, hpath⟩ := htarget (tail.take (tail.idxOf 32))
    rw [hpath, setVersionText]
    split_ifs <;> exact ⟨_, _, _, rfl⟩
  · exact ⟨_, _, _, rfl⟩

theorem processRequestLine_method (h : r.method = .kInvalid)
    (hm : Method.ofString m ≠ .kInvalid) (tail : List UInt8) :
    r.processRequestLine (m ++ 32 :: tail) =
      .ok ({ r with method := .ofString m }.processTarget tail) := by
  rw [processRequestLine_unset r h (idxOf_append_ne_length m tail), idxOf_cut (space_not_mem hm),
    take_left, if_neg hm, ← drop_drop, drop_left]
  rfl

theorem processRequestLine_other (h : r.method = .kInvalid)
    (hline : ∀ m tail, Method.ofString m ≠ .kInvalid → line ≠ m ++ 32 :: tail) :
    r.processRequestLine line = .ok (false, r) := by
  by_cases hspace : line.idxOf 32 ≠ line.length
  · have hname : Method.ofString (line.take (line.idxOf 32)) = .kInvalid := by
      by_contra hname
      exact hline _ _ hname (eq_cut (idxOf_ne_length.mp hspace)).2
    rw [processRequestLine_unset r h hspace, if_pos hname]
  · exact processRequestLine_bare r hspace

theorem method_line_iff {P : List UInt8 → Prop} (hm : Method.ofString m ≠ .kInvalid) :
    (∃ m' tail', Method.ofString m' ≠ .kInvalid ∧ P tail' ∧
      m ++ 32 :: tail = m' ++ 32 :: tail') ↔ P tail := by
  constructor
  · rintro ⟨m', tail', hm', htail, heq⟩
    obtain ⟨-, rfl⟩ := cut_inj (space_not_mem hm) (space_not_mem hm') heq
    exact htail
  · exact fun htail => ⟨m, tail, hm, htail, rfl⟩

theorem isRequestLine_iff (hm : Method.ofString m ≠ .kInvalid) :
    IsRequestLine (m ++ 32 :: tail) ↔ IsTarget tail := method_line_iff hm

theorem isBrokenLine_iff (hm : Method.ofString m ≠ .kInvalid) :
    IsBrokenLine (m ++ 32 :: tail) ↔ ¬ IsTarget tail := method_line_iff hm

theorem processRequestLine_spec (h : r.method = .kInvalid) (line : List UInt8) :
    ∃ ok r', r.processRequestLine line = .ok (ok, r') ∧ (ok = true ↔ IsRequestLine line) ∧
      (ok = false → (r'.method ≠ .kInvalid ↔ IsBrokenLine line)) := by
  by_cases hline : ∃ m tail, Method.ofString m ≠ .kInvalid ∧ line = m ++ 32 :: tail
  · obtain ⟨m, tail, hm, rfl⟩ := hline
    have hprocess := processRequestLine_method h hm tail
    have htarget := processTarget_iff { r with method := .ofString m } tail
    obtain ⟨version, path, query, hframe⟩ :=
      processTarget_frame { r with method := .ofString m } tail
    obtain ⟨⟨ok, r'⟩, hx⟩ :
        ∃ x, { r with method := .ofString m }.processTarget tail = x := ⟨_, rfl⟩
    rw [hx] at hprocess htarget hframe
    refine ⟨ok, r', hprocess, htarget.trans (isRequestLine_iff hm).symm, fun hfail => ?_⟩
    rw [isBrokenLine_iff hm, ← htarget, hfail]
    have hset : r'.method = .ofString m := congrArg method hframe
    exact iff_of_true (hset ▸ hm) Bool.false_ne_true
  · have hother : ∀ m tail, Method.ofString m ≠ .kInvalid → line ≠ m ++ 32 :: tail :=
      fun m tail hm heq => hline ⟨m, tail, hm, heq⟩
    refine ⟨_, _, processRequestLine_other h hother, ?_, fun _ => ?_⟩
    · refine iff_of_false Bool.false_ne_true ?_
      rintro ⟨m, tail, hm, -, heq⟩
      exact hother m tail hm heq
    · refine iff_of_false (not_not.mpr h) ?_
      rintro ⟨m, tail, hm, -, heq⟩
      exact hother m tail hm heq

theorem processRequestLine_again (h : r.method ≠ .kInvalid) (hline : IsBrokenLine line) :
    r.processRequestLine line = .error .methodSet := by
  obtain ⟨m, tail, -, -, rfl⟩ := hline
  exact processRequestLine_set r h (idxOf_append_ne_length m tail)

theorem headers_processRequestLine {ok : Bool} {r' : HttpRequest}
    (h : r.processRequestLine line = .ok (ok, r')) : r'.headers = r.headers := by
  by_cases hspace : line.idxOf 32 ≠ line.length
  · by_cases hset : r.method = .kInvalid
    · rw [processRequestLine_unset r hset hspace] at h
      split at h
      · cases h
        rfl
      · obtain ⟨version, path, query, hframe⟩ := processTarget_frame
          { r with method := .ofString (line.take (line.idxOf 32)) }
          (line.drop (line.idxOf 32 + 1))
        injection h with h
        rw [h] at hframe
        have hheaders : r'.headers = r.headers := (congrArg headers hframe).trans rfl
        exact hheaders
    · rw [processRequestLine_set r hset hspace] at h
      cases h
  · rw [processRequestLine_bare r hspace] at h
    cases h
    rfl

def addLine (r : HttpRequest) (line : List UInt8) : HttpRequest :=
  r.addHeader (line.take (line.idxOf 58)) (line.drop (line.idxOf 58 + 1))

def headersOf (lines : List (List UInt8)) : StringMap := (lines.foldl addLine create).headers

theorem headers_foldl_addLine {r' : HttpRequest} (lines : List (List UInt8))
    (h : r.headers = r'.headers) :
    (lines.foldl addLine r).headers = (lines.foldl addLine r').headers := by
  induction lines generalizing r r' with
  | nil => exact h
  | cons line lines ih =>
    refine ih ?_
    rw [addLine, addLine, addHeader, addHeader, h]

end HttpRequest

namespace HttpContext

open HttpRequest (IsRequestLine IsBrokenLine addLine headersOf)

section

variable {r r' : HttpRequest} {c : HttpContext} {line w : List UInt8}

theorem move_line (hc : c.reading = true) (hline : Unbroken 13 10 line) (w : List UInt8) :
    parser.move c (line ++ 13 :: 10 :: w) = c.onLine line := by
  have hmove := round_some hc (pairAt_line hline w)
  rwa [take_left] at hmove

theorem drop_line (line w : List UInt8) :
    (line ++ 13 :: 10 :: w).drop (line.length + 2) = w := by
  rw [← drop_drop, drop_left]
  rfl

theorem run_waits (hc : c.reading = true) (h : pairAt 13 10 w = none) :
    parser.run c w = .waiting c w :=
  run_wait (round_none hc h)

theorem run_accepted (hline : Unbroken 13 10 line)
    (hp : r.processRequestLine line = .ok (true, r')) (w : List UInt8) :
    parser.run ⟨.kExceptRequestLine, r⟩ (line ++ 13 :: 10 :: w) =
      parser.run ⟨.kExceptHeaders, r'⟩ w := by
  have hmove := move_line (c := ⟨.kExceptRequestLine, r⟩) rfl hline w
  rw [onLine_eq (.accepted hp)] at hmove
  rw [run_take hmove, drop_line]
  rfl

theorem run_rejected (hline : Unbroken 13 10 line)
    (hp : r.processRequestLine line = .ok (false, r')) (w : List UInt8) :
    parser.run ⟨.kExceptRequestLine, r⟩ (line ++ 13 :: 10 :: w) =
      ⟨[], .inr (.ok (false, ⟨.kExceptRequestLine, r'⟩)), line ++ 13 :: 10 :: w⟩ := by
  have hmove := move_line (c := ⟨.kExceptRequestLine, r⟩) rfl hline w
  rw [onLine_eq (.rejected hp)] at hmove
  exact run_stop hmove

theorem run_header (hline : Unbroken 13 10 line) (hcolon : 58 ∈ line) (w : List UInt8) :
    parser.run ⟨.kExceptHeaders, r⟩ (line ++ 13 :: 10 :: w) =
      parser.run ⟨.kExceptHeaders, addLine r line⟩ w := by
  have hmove := move_line (c := ⟨.kExceptHeaders, r⟩) rfl hline w
  rw [onLine_eq (.header (idxOf_ne_length.mpr hcolon))] at hmove
  rw [run_take hmove, drop_line]
  rfl

theorem run_last (hline : Unbroken 13 10 line) (hcolon : 58 ∉ line) (w : List UInt8) :
    parser.run ⟨.kExceptHeaders, r⟩ (line ++ 13 :: 10 :: w) =
      ⟨[], .inr (.ok (true, ⟨.kGotAll, r⟩)), w⟩ := by
  have hmove := move_line (c := ⟨.kExceptHeaders, r⟩) rfl hline w
  rw [onLine_eq (.last (idxOf_ne_length.not.mpr hcolon))] at hmove
  rw [run_stop hmove, drop_line]

theorem run_headers {lines : List (List UInt8)}
    (h : ∀ line ∈ lines, Unbroken 13 10 line ∧ 58 ∈ line) (w : List UInt8) :
    parser.run ⟨.kExceptHeaders, r⟩ (joinLines 13 10 lines ++ w) =
      parser.run ⟨.kExceptHeaders, lines.foldl addLine r⟩ w := by
  induction lines generalizing r with
  | nil => rfl
  | cons line lines ih =>
    obtain ⟨hline, hcolon⟩ := h line mem_cons_self
    rw [joinLines_cons, append_assoc]
    exact (run_header hline hcolon _).trans (ih fun l hl => h l (mem_cons_of_mem _ hl))

theorem run_due (h : r.method = .kInvalid) (w : List UInt8) :
    (takeLine 13 10 w = none ∧
      parser.run ⟨.kExceptRequestLine, r⟩ w = .waiting ⟨.kExceptRequestLine, r⟩ w) ∨
    (∃ first rest r', takeLine 13 10 w = some (first, rest) ∧ IsRequestLine first ∧
      r.processRequestLine first = .ok (true, r') ∧
      parser.run ⟨.kExceptRequestLine, r⟩ w = parser.run ⟨.kExceptHeaders, r'⟩ rest) ∨
    ∃ first rest r', takeLine 13 10 w = some (first, rest) ∧ ¬ IsRequestLine first ∧
      (r'.method ≠ .kInvalid ↔ IsBrokenLine first) ∧
      parser.run ⟨.kExceptRequestLine, r⟩ w =
        ⟨[], .inr (.ok (false, ⟨.kExceptRequestLine, r'⟩)), w⟩ := by
  cases hline : takeLine 13 10 w with
  | none =>
    have hnone := Option.map_eq_none_iff.mp hline
    exact .inl ⟨rfl, run_waits rfl hnone⟩
  | some x =>
    obtain ⟨first, rest⟩ := x
    obtain ⟨hfirst, rfl⟩ := takeLine_eq_some_iff.mp hline
    obtain ⟨ok, r', hp, hok, hbroken⟩ := HttpRequest.processRequestLine_spec h first
    cases ok with
    | false =>
      have hbad : ¬ IsRequestLine first := fun hgood => Bool.false_ne_true (hok.mpr hgood)
      exact .inr (.inr ⟨first, rest, r', rfl, hbad, hbroken rfl, run_rejected hfirst hp rest⟩)
    | true =>
      exact .inr (.inl ⟨first, rest, r', rfl, hok.mp rfl, hp, run_accepted hfirst hp rest⟩)

theorem run_of_headers (h : c.state = .kExceptHeaders) (w : List UInt8) :
    (parser.run c w).status.elim (fun c => c.state = .kExceptHeaders)
      fun x => ∀ c₁, x ≠ .ok (false, c₁) := by
  refine run_invariant (fun hc hmove => ?_) (fun hc hmove c₁ hx => ?_) h
  · rcases move_inv hmove (by simp) with ⟨-, hstop⟩ | ⟨i, -, hline⟩
    · cases hstop
    · cases hline <;> rfl
  · subst hx
    rcases move_inv hmove (by simp) with ⟨-, hstop⟩ | ⟨i, -, hline⟩
    · cases hstop
    · cases hline
      cases hc

theorem headers_not_rejected (h : c.state = .kExceptHeaders) (c' : HttpContext) :
    (parser.run c w).status ≠ .inr (.ok (false, c')) := by
  intro hstatus
  have hall := run_of_headers h w
  rw [hstatus] at hall
  exact hall c' rfl

/-- Only a request line is rejected, and it is left where it was. -/
theorem run_rejected_inv {c' : HttpContext} (hc : Fresh c)
    (h : (parser.run c w).status = .inr (.ok (false, c'))) :
    ∃ r', c' = ⟨.kExceptRequestLine, r'⟩ ∧
      parser.run c w = ⟨[], .inr (.ok (false, ⟨.kExceptRequestLine, r'⟩)), w⟩ := by
  obtain ⟨state, r⟩ := c
  rcases hc with hstate | ⟨hstate, hmethod⟩
  · exact absurd h (headers_not_rejected hstate c')
  · cases hstate
    rcases run_due hmethod w with ⟨-, hrun⟩ | ⟨first, rest, r', -, -, -, hrun⟩ |
      ⟨first, rest, r', -, -, -, hrun⟩
    · rw [hrun] at h
      cases h
    · rw [hrun] at h
      exact absurd h (headers_not_rejected rfl c')
    · rw [hrun] at h
      cases h
      exact ⟨r', rfl, hrun⟩

/-- A text is lines with a colon and then no further line, or a line without a colon. -/
theorem headerLines_cases (w : List UInt8) :
    ∃ lines rest, (∀ line ∈ lines, Unbroken 13 10 line ∧ 58 ∈ line) ∧
      w = joinLines 13 10 lines ++ rest ∧
      (pairAt 13 10 rest = none ∨
        ∃ last left, Unbroken 13 10 last ∧ 58 ∉ last ∧ rest = last ++ 13 :: 10 :: left) := by
  induction hlen : w.length using Nat.strong_induction_on generalizing w with
  | _ k ih =>
    cases hline : takeLine 13 10 w with
    | none =>
      have hnone := Option.map_eq_none_iff.mp hline
      exact ⟨[], w, by simp, rfl, .inl hnone⟩
    | some x =>
      obtain ⟨line, rest⟩ := x
      obtain ⟨hunbroken, rfl⟩ := takeLine_eq_some_iff.mp hline
      by_cases hcolon : 58 ∈ line
      · have hshort : rest.length < k := by
          rw [← hlen, length_append, length_cons, length_cons]
          omega
        obtain ⟨lines, rest', hlines, rfl, htail⟩ := ih rest.length hshort rest rfl
        refine ⟨line :: lines, rest', ?_, ?_, htail⟩
        · exact forall_mem_cons.mpr ⟨⟨hunbroken, hcolon⟩, hlines⟩
        · rw [joinLines_cons, append_assoc]
          rfl
      · exact ⟨[], _, by simp, rfl, .inr ⟨line, rest, hunbroken, hcolon, rfl⟩⟩

end

/-- What a new context makes of a text. -/
inductive Reading (w : List UInt8) : Verdict → HttpRequest → List UInt8 → Prop
  | noLine {r left} (h : pairAt 13 10 w = none) : Reading w .incomplete r left
  | rejected {first rest r left} (hfirst : Unbroken 13 10 first)
      (hw : w = first ++ 13 :: 10 :: rest) (hline : ¬ IsRequestLine first) :
      Reading w .rejected r left
  | headers {first lines rest r left} (hlines : ∀ line ∈ first :: lines, Unbroken 13 10 line)
      (hw : w = joinLines 13 10 (first :: lines) ++ rest) (hcolon : ∀ line ∈ lines, 58 ∈ line)
      (hrest : pairAt 13 10 rest = none) : Reading w .incomplete r left
  | gotAll {first lines last r left}
      (hlines : ∀ line ∈ first :: (lines ++ [last]), Unbroken 13 10 line)
      (hw : w = joinLines 13 10 (first :: (lines ++ [last])) ++ left)
      (hfirst : IsRequestLine first) (hcolon : ∀ line ∈ lines, 58 ∈ line) (hlast : 58 ∉ last)
      (hheaders : r.headers = headersOf lines) : Reading w .gotAll r left

theorem reading_create {w left : List UInt8} {verdict : Verdict} {r : HttpRequest}
    (h : summary (parser.run create w) = .ok (verdict, r, left)) : Reading w verdict r left := by
  rcases run_due (r := .create) rfl w with ⟨hline, hrun⟩ |
    ⟨first, w', r₁, hline, hgood, hp, hrun⟩ | ⟨first, rest, r₁, hline, hbad, -, hrun⟩
  · have hcreate : parser.run create w = _ := hrun
    rw [hcreate] at h
    cases h
    exact .noLine (Option.map_eq_none_iff.mp hline)
  · obtain ⟨hfirst, rfl⟩ := takeLine_eq_some_iff.mp hline
    obtain ⟨lines, rest, hlines, rfl, htail⟩ := headerLines_cases w'
    have hcreate : parser.run create _ = _ := hrun.trans (run_headers hlines rest)
    have hunbroken : ∀ line ∈ first :: lines, Unbroken 13 10 line :=
      forall_mem_cons.mpr ⟨hfirst, fun line hl => (hlines line hl).1⟩
    rw [hcreate] at h
    rcases htail with hnone | ⟨last, left', hlast, hcolon, rfl⟩
    · rw [run_waits rfl hnone] at h
      cases h
      refine .headers hunbroken ?_ (fun line hl => (hlines line hl).2) hnone
      rw [joinLines_cons, append_assoc]
      rfl
    · rw [run_last hlast hcolon] at h
      cases h
      refine .gotAll ?_ ?_ hgood (fun line hl => (hlines line hl).2) hcolon ?_
      · exact forall_mem_cons.mpr ⟨hfirst, forall_mem_append.mpr
          ⟨fun line hl => (hlines line hl).1, forall_mem_singleton.mpr hlast⟩⟩
      · simp [append_assoc]
      · exact HttpRequest.headers_foldl_addLine lines (HttpRequest.headers_processRequestLine hp)
  · obtain ⟨hfirst, hw⟩ := takeLine_eq_some_iff.mp hline
    have hcreate : parser.run create w = _ := hrun
    rw [hcreate] at h
    cases h
    exact .rejected hfirst hw hbad

/-- The headers are the lines between the request line and the first empty line, and what is left
begins behind that line. -/
def HeadersExact (w : List UInt8) (r : HttpRequest) (left : List UInt8) : Prop :=
  ∃ first lines, (∀ line ∈ first :: lines, Unbroken 13 10 line) ∧ [] ∉ lines ∧
    w = joinLines 13 10 (first :: (lines ++ [[]])) ++ left ∧ r.headers = headersOf lines

/-- `gotAll` is reached at an empty line only, however the bytes arrive. -/
def EndsAtEmptyLine (segments : List (List UInt8 × ℤ)) : Prop :=
  ∀ size buf r left, Buffer.create size = some buf →
    parseSegments segments .create buf = .ok (.gotAll, r, left) →
    HeadersExact (segments.map (·.1)).flatten r left

/-- A line behind the request line of `w`, with no empty line between them, and not empty. -/
def IsHeaderLine (w line : List UInt8) : Prop :=
  ∃ first lines rest, (∀ l ∈ first :: (lines ++ [line]), Unbroken 13 10 l) ∧
    IsRequestLine first ∧ [] ∉ lines ++ [line] ∧
    w = joinLines 13 10 (first :: (lines ++ [line])) ++ rest

variable {first first' last line w rest left tail : List UInt8} {lines lines' : List (List UInt8)}

theorem unbroken_nil : Unbroken 13 10 ([] : List UInt8) := rfl

theorem last_eq_nil (h : ∀ l ∈ first :: (lines ++ [last]), Unbroken 13 10 l)
    (h' : ∀ l ∈ first' :: lines', Unbroken 13 10 l)
    (heq : joinLines 13 10 (first :: (lines ++ [last])) ++ left =
      joinLines 13 10 (first' :: (lines' ++ [[]])) ++ left) : last = [] := by
  have hall := forall_mem_append.mpr ⟨h', forall_mem_singleton.mpr unbroken_nil⟩
  have hsame := tail_eq_of_cons_eq (joinLines_inj h hall heq)
  exact singleton_inj.mp (append_inj' hsame rfl).2

theorem isHeaderLine_waiting (h : ∀ l ∈ first :: lines, Unbroken 13 10 l)
    (hcolon : ∀ l ∈ lines, 58 ∈ l) (htail : pairAt 13 10 tail = none)
    (hline : IsHeaderLine (joinLines 13 10 (first :: lines) ++ tail) line) : 58 ∈ line := by
  obtain ⟨first', lines', rest, hunbroken, -, -, heq⟩ := hline
  rcases joinLines_prefix h hunbroken heq with ⟨more, hsame, hx⟩ | ⟨more, hsame, -⟩
  · cases more with
    | nil =>
      have hlines := tail_eq_of_cons_eq (hsame.trans (append_nil _))
      exact hcolon line (hlines ▸ by simp)
    | cons l more =>
      have hl := hunbroken l (hsame ▸ by simp)
      have htake := takeLine_joinLines hl more rest
      rw [← hx, takeLine, htail] at htake
      cases htake
  · have hlines := tail_eq_of_cons_eq hsame
    exact hcolon line (hlines ▸ by simp)

theorem isHeaderLine_ended (h : ∀ l ∈ first :: (lines ++ [[]]), Unbroken 13 10 l)
    (hcolon : ∀ l ∈ lines, 58 ∈ l)
    (hline : IsHeaderLine (joinLines 13 10 (first :: (lines ++ [[]])) ++ left) line) :
    58 ∈ line := by
  obtain ⟨first', lines', rest, hunbroken, -, hempty, heq⟩ := hline
  rcases joinLines_prefix h hunbroken heq with ⟨more, hsame, -⟩ | ⟨more, hsame, -⟩
  · have hlines := tail_eq_of_cons_eq hsame
    exact absurd (hlines ▸ by simp) hempty
  · have hlines := tail_eq_of_cons_eq hsame
    have hmem : line ∈ lines ++ [[]] := hlines ▸ by simp
    rcases mem_append.mp hmem with hl | hl
    · exact hcolon line hl
    · exact absurd (by simp [mem_singleton.mp hl]) hempty

/-- `gotAll` is reached at an empty line only exactly if every line before the first empty one has
a colon. -/
theorem headers_exact_iff (segments : List (List UInt8 × ℤ)) :
    EndsAtEmptyLine segments ↔
      ∀ line, IsHeaderLine (segments.map (·.1)).flatten line → 58 ∈ line := by
  constructor
  · intro hends line hline
    obtain ⟨buf, verdict, r, left, hbuf, hparse, hsummary⟩ := parseSegments_create 0 segments
    cases reading_create hsummary with
    | noLine hnone =>
      obtain ⟨first, lines, rest, hunbroken, -, -, hw⟩ := hline
      have htake := takeLine_joinLines (hunbroken first mem_cons_self) (lines ++ [line]) rest
      rw [← hw, takeLine, hnone] at htake
      cases htake
    | rejected hfirst hw hbad =>
      obtain ⟨first, lines, rest, hunbroken, hgood, -, hw'⟩ := hline
      have htake := takeLine_joinLines (hunbroken first mem_cons_self) (lines ++ [line]) rest
      rw [← hw', hw, takeLine_line hfirst] at htake
      cases htake
      exact absurd hgood hbad
    | headers hlines hw hcolon hrest =>
      rw [hw] at hline
      exact isHeaderLine_waiting hlines hcolon hrest hline
    | gotAll hlines hw hfirst hcolon hlast hheaders =>
      obtain ⟨first', lines', hlines', -, hw', -⟩ := hends 0 buf r left hbuf hparse
      have hnil := last_eq_nil hlines hlines' (hw.symm.trans hw')
      subst hnil
      rw [hw] at hline
      exact isHeaderLine_ended hlines hcolon hline
  · intro hcolons size buf r left hbuf hparse
    obtain ⟨buf', verdict, r', left', hbuf', hparse', hsummary⟩ :=
      parseSegments_create size segments
    rw [hbuf] at hbuf'
    cases hbuf'
    rw [hparse] at hparse'
    cases hparse'
    cases reading_create hsummary with
    | @gotAll first lines last _ _ hlines hw hfirst hcolon hlast hheaders =>
      have hfull : [] ∉ lines := fun hmem => not_mem_nil (hcolon [] hmem)
      have hnil : last = [] := by
        by_contra hne
        have hall : [] ∉ lines ++ [last] := by
          rw [mem_append, mem_singleton, not_or]
          exact ⟨hfull, fun heq => hne heq.symm⟩
        exact hlast (hcolons last ⟨first, lines, left, hlines, hfirst, hall, hw⟩)
      subst hnil
      refine ⟨first, lines, fun l hl => hlines l ?_, hfull, hw, hheaders⟩
      rw [← cons_append]
      exact mem_append_left _ hl

/-- A line `X` without a colon ends the headers, and the header `Host` that follows is left for the
next request. -/
theorem colonless_line_ends_headers : ∃ buf r,
    Buffer.create 0 = some buf ∧
    parseSegments [(text "GET / HTTP/1.1\r\nX\r\nHost: a\r\n\r\n", 0)] .create buf =
      .ok (.gotAll, r, text "Host: a\r\n\r\n") ∧
    r.headers = [] ∧
    ¬ EndsAtEmptyLine [(text "GET / HTTP/1.1\r\nX\r\nHost: a\r\n\r\n", 0)] := by
  have hparse : parseSegments [(text "GET / HTTP/1.1\r\nX\r\nHost: a\r\n\r\n", 0)] .create
      ⟨List.replicate 8 0, 8, 8⟩ =
        .ok (.gotAll, ⟨.kGet, .kHttp11, text "/", [], 0, []⟩, text "Host: a\r\n\r\n") := by
    decide +kernel
  refine ⟨_, _, rfl, hparse, rfl, fun hends => ?_⟩
  obtain ⟨first, lines, hlines, -, hw, -⟩ := hends 0 _ _ _ rfl hparse
  have hall : ∀ l ∈ text "GET / HTTP/1.1" :: ([] ++ [text "X"]), Unbroken 13 10 l :=
    forall_mem_cons.mpr ⟨by decide, forall_mem_singleton.mpr (by decide)⟩
  have htext : joinLines 13 10 (text "GET / HTTP/1.1" :: ([] ++ [text "X"])) ++
      text "Host: a\r\n\r\n" =
        ([(text "GET / HTTP/1.1\r\nX\r\nHost: a\r\n\r\n", (0 : ℤ))].map (·.1)).flatten := by
    decide
  have hnil := last_eq_nil hall hlines (htext.trans hw)
  cases hnil

end HttpContext
end JKYi.Net
