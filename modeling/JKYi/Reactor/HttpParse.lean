import JKYi.Foundation.Incremental
import JKYi.Reactor.HttpContext

/-!
# Requests that arrive in segments

The parser decides on a line when the whole line is there, and the bytes that follow
do not change the decision. So it is a consumer of the bytes, and the segments in
which a request arrives make no difference to it. The time of arrival is left aside.
-/

namespace JKYi.Net

open Consumer Nat List

namespace HttpRequest

/-- The request without its receive time. -/
def untimed (r : HttpRequest) : HttpRequest := r.setReceiveTime 0

variable (r : HttpRequest)

theorem untimed_setTarget (target : List UInt8) :
    (r.setTarget target).untimed = r.untimed.setTarget target := by
  rw [setTarget, setTarget]
  split <;> rfl

theorem untimed_setVersionText (version : List UInt8) :
    r.untimed.setVersionText version =
      ((r.setVersionText version).1, (r.setVersionText version).2.untimed) := by
  rw [setVersionText, setVersionText]
  split_ifs <;> rfl

theorem untimed_processTarget (start : List UInt8) :
    r.untimed.processTarget start =
      ((r.processTarget start).1, (r.processTarget start).2.untimed) := by
  rw [processTarget, processTarget]
  split
  · rw [← untimed_setTarget, untimed_setVersionText]
  · rfl

theorem processRequestLine_unset {line : List UInt8} (h : r.method = .kInvalid)
    (hspace : line.idxOf 32 ≠ line.length) :
    r.processRequestLine line =
      .ok (if Method.ofString (line.take (line.idxOf 32)) = .kInvalid then (false, r)
        else { r with method := .ofString (line.take (line.idxOf 32)) }.processTarget
          (line.drop (line.idxOf 32 + 1))) := by
  have hset : r.setMethod (line.take (line.idxOf 32)) =
      .ok (Method.ofString (line.take (line.idxOf 32)) != .kInvalid,
        { r with method := .ofString (line.take (line.idxOf 32)) }) := if_pos h
  rw [processRequestLine]
  rw [if_pos hspace, hset]
  by_cases hname : Method.ofString (line.take (line.idxOf 32)) = .kInvalid
  · have hsame : { r with method := .kInvalid } = r := by
      rw [← h]
    rw [if_pos hname, hname, hsame]
    rfl
  · rw [if_neg hname]
    change Except.ok (if _ then _ else _) = _
    rw [if_pos (bne_iff_ne.mpr hname)]

theorem processRequestLine_set {line : List UInt8} (h : r.method ≠ .kInvalid)
    (hspace : line.idxOf 32 ≠ line.length) :
    r.processRequestLine line = .error .methodSet := by
  have hset : r.setMethod (line.take (line.idxOf 32)) = .error .methodSet := if_neg h
  rw [processRequestLine]
  rw [if_pos hspace, hset]
  rfl

theorem processRequestLine_bare {line : List UInt8} (hspace : ¬ line.idxOf 32 ≠ line.length) :
    r.processRequestLine line = .ok (false, r) := if_neg hspace

theorem processRequestLine_untimed (line : List UInt8) :
    r.untimed.processRequestLine line =
      (r.processRequestLine line).map fun p => (p.1, p.2.untimed) := by
  by_cases hspace : line.idxOf 32 ≠ line.length
  · by_cases hset : r.method = .kInvalid
    · have hset' : r.untimed.method = .kInvalid := hset
      rw [processRequestLine_unset _ hset hspace, processRequestLine_unset _ hset' hspace,
        Except.map]
      split
      · rfl
      · exact congrArg Except.ok
          (untimed_processTarget { r with method := .ofString (line.take (line.idxOf 32)) } _)
    · have hset' : r.untimed.method ≠ .kInvalid := hset
      rw [processRequestLine_set _ hset hspace, processRequestLine_set _ hset' hspace]
      rfl
  · rw [processRequestLine_bare _ hspace, processRequestLine_bare _ hspace]
    rfl

end HttpRequest

namespace HttpContext

def untimed (c : HttpContext) : HttpContext := ⟨c.state, c.request.untimed⟩

def reading (c : HttpContext) : Bool :=
  c.state == .kExceptRequestLine || c.state == .kExceptHeaders

/-- The receive time of the request, if its line is complete with a delivery at the time `t`. -/
def timeAt (t : ℤ) : HttpContext → ℤ
  | ⟨.kExceptRequestLine, _⟩ => t
  | ⟨_, r⟩ => r.receiveTime

theorem timeAt_of_ne {c : HttpContext} (h : c.state ≠ .kExceptRequestLine) (t : ℤ) :
    c.request.receiveTime = c.timeAt t := by
  obtain ⟨state, r⟩ := c
  cases state with
  | kExceptRequestLine => exact absurd rfl h
  | _ => rfl

abbrev Returned := Except Fault (Bool × HttpContext)

def onLine (c : HttpContext) (line : List UInt8) : Move HttpContext Empty Returned :=
  match c.state with
  | .kExceptRequestLine =>
    match c.request.processRequestLine line with
    | .error f => .stop 0 (.error f)
    | .ok (true, r) => .take (line.length + 2) [] ⟨.kExceptHeaders, r⟩
    | .ok (false, r) => .stop 0 (.ok (false, ⟨c.state, r⟩))
  | .kExceptHeaders =>
    if line.idxOf 58 ≠ line.length then
      .take (line.length + 2) []
        ⟨c.state, c.request.addHeader (line.take (line.idxOf 58)) (line.drop (line.idxOf 58 + 1))⟩
    else .stop (line.length + 2) (.ok (true, ⟨.kGotAll, c.request⟩))
  | .kExceptBody => .stop 0 (.error .endless)
  | .kGotAll => .stop 0 (.error .endless)

def round (c : HttpContext) (w : List UInt8) : Move HttpContext Empty Returned :=
  if c.reading then (pairAt 13 10 w).elim .wait fun i => c.onLine (w.take i)
  else .stop 0 (.error .endless)

section

variable {c : HttpContext} {w line : List UInt8} {i n : ℕ}

theorem onLine_fits (c : HttpContext) (line : List UInt8) :
    (c.onLine line).Fits (line.length + 2) := by
  unfold onLine
  split
  · split
    · exact zero_le _
    · exact ⟨succ_pos _, le_rfl⟩
    · exact zero_le _
  · split
    · exact ⟨succ_pos _, le_rfl⟩
    · exact le_refl _
  · exact zero_le _
  · exact zero_le _

theorem round_none (hc : c.reading = true) (h : pairAt 13 10 w = none) : c.round w = .wait := by
  rw [round, if_pos hc, h]
  rfl

theorem round_some (hc : c.reading = true) (h : pairAt 13 10 w = some i) :
    c.round w = c.onLine (w.take i) := by
  rw [round, if_pos hc, h]
  rfl

theorem round_endless (hc : c.reading = false) : c.round w = .stop 0 (.error .endless) := by
  rw [round, hc]
  rfl

theorem round_decided (c : HttpContext) (w : List UInt8) : c.round w = .wait ∨
    (c.round w).Fits w.length ∧ ∀ more, c.round (w ++ more) = c.round w := by
  cases hc : c.reading with
  | false =>
    refine .inr ⟨?_, fun more => ?_⟩
    · rw [round_endless hc]
      exact zero_le _
    · rw [round_endless hc, round_endless hc]
  | true =>
    cases hi : pairAt 13 10 w with
    | none => exact .inl (round_none hc hi)
    | some i =>
      have hle := pairAt_bounds hi
      have hlen : (w.take i).length = i := length_take_of_le (by omega)
      refine .inr ⟨?_, fun more => ?_⟩
      · rw [round_some hc hi]
        exact (onLine_fits c _).mono (by omega)
      · rw [round_some hc hi, round_some hc (pairAt_append hi more),
          take_append_of_le_length (by omega)]

/-- The loop of `parseRequest` as a consumer of the bytes. -/
def parser : Consumer UInt8 HttpContext Empty Returned where
  move := round
  decided := round_decided

inductive LineMove : HttpContext → List UInt8 → Move HttpContext Empty Returned → Prop
  | fault {r line f} (h : r.processRequestLine line = .error f) :
    LineMove ⟨.kExceptRequestLine, r⟩ line (.stop 0 (.error f))
  | rejected {r line r'} (h : r.processRequestLine line = .ok (false, r')) :
    LineMove ⟨.kExceptRequestLine, r⟩ line (.stop 0 (.ok (false, ⟨.kExceptRequestLine, r'⟩)))
  | accepted {r line r'} (h : r.processRequestLine line = .ok (true, r')) :
    LineMove ⟨.kExceptRequestLine, r⟩ line (.take (line.length + 2) [] ⟨.kExceptHeaders, r'⟩)
  | header {r line} (h : line.idxOf 58 ≠ line.length) :
    LineMove ⟨.kExceptHeaders, r⟩ line (.take (line.length + 2) [] ⟨.kExceptHeaders,
      r.addHeader (line.take (line.idxOf 58)) (line.drop (line.idxOf 58 + 1))⟩)
  | last {r line} (h : ¬ line.idxOf 58 ≠ line.length) :
    LineMove ⟨.kExceptHeaders, r⟩ line (.stop (line.length + 2) (.ok (true, ⟨.kGotAll, r⟩)))

theorem onLine_eq {m : Move HttpContext Empty Returned} (h : LineMove c line m) :
    c.onLine line = m := by
  cases h with
  | fault h | rejected h | accepted h => simp only [onLine, h]
  | header h => exact if_pos h
  | last h => exact if_neg h

theorem onLine_inv (hc : c.reading = true) (line : List UInt8) :
    LineMove c line (c.onLine line) := by
  obtain ⟨m, hm⟩ : ∃ m, LineMove c line m := by
    obtain ⟨state, r⟩ := c
    cases state with
    | kExceptRequestLine =>
      rcases hp : r.processRequestLine line with f | ⟨_ | _, r'⟩
      · exact ⟨_, .fault hp⟩
      · exact ⟨_, .rejected hp⟩
      · exact ⟨_, .accepted hp⟩
    | kExceptHeaders =>
      by_cases hcolon : line.idxOf 58 ≠ line.length
      · exact ⟨_, .header hcolon⟩
      · exact ⟨_, .last hcolon⟩
    | kExceptBody => cases hc
    | kGotAll => cases hc
  rw [onLine_eq hm]
  exact hm

theorem move_inv {m : Move HttpContext Empty Returned} (h : parser.move c w = m)
    (hm : m ≠ .wait) :
    (c.reading = false ∧ m = .stop 0 (.error .endless)) ∨
      ∃ i, pairAt 13 10 w = some i ∧ LineMove c (w.take i) m := by
  cases hc : c.reading with
  | false => exact .inl ⟨rfl, h.symm.trans (round_endless hc)⟩
  | true =>
    cases hi : pairAt 13 10 w with
    | none => exact absurd (h.symm.trans (round_none hc hi)) hm
    | some i =>
      have hline : c.onLine (w.take i) = m := (round_some hc hi).symm.trans h
      exact .inr ⟨i, rfl, hline ▸ onLine_inv hc _⟩

end

section

abbrev Parse := Consumer.Progress UInt8 HttpContext Empty Returned

/-- The ways in which a call of `parseRequest` ends. -/
inductive Returns (p : Parse) (time : ℤ) : Except Fault (Bool × HttpContext × Buffer) → Prop
  | fault {f : Fault} (status : p.status = .inr (.error f)) : Returns p time (.error f)
  | waits {c : HttpContext} {buf : Buffer} (status : p.status = .inl c.untimed)
      (gotAll : c.gotAll = false) (wf : buf.Wf) (left : buf.contents = p.left)
      (timed : c.state ≠ .kExceptRequestLine → c.request.receiveTime = time) :
      Returns p time (.ok (true, c, buf))
  | got {c : HttpContext} {buf : Buffer} (status : p.status = .inr (.ok (true, c.untimed)))
      (gotAll : c.gotAll = true) (wf : buf.Wf) (left : buf.contents = p.left)
      (timed : c.request.receiveTime = time) : Returns p time (.ok (true, c, buf))
  | rejects {c : HttpContext} {buf : Buffer} (status : p.status = .inr (.ok (false, c.untimed)))
      (gotAll : c.gotAll = false) (wf : buf.Wf) (left : buf.contents = p.left) :
      Returns p time (.ok (false, c, buf))

variable {c : HttpContext} {buf : Buffer} {t : ℤ} {r : HttpRequest} {i fuel : ℕ}

theorem Returns.after {p : Parse} {x : Except Fault (Bool × HttpContext × Buffer)}
    (h : Returns p t x) (out : List Empty) : Returns (p.after out) t x := by
  cases h with
  | fault status => exact .fault status
  | waits status gotAll wf left timed => exact .waits status gotAll wf left timed
  | got status gotAll wf left timed => exact .got status gotAll wf left timed
  | rejects status gotAll wf left => exact .rejects status gotAll wf left

theorem findCRLF_line (hi : pairAt 13 10 buf.contents = some i) :
    buf.findCRLF = some (buf.readerIndex + i) :=
  Buffer.findCRLF_eq_some_iff.mpr ⟨i, hi, rfl⟩

theorem parseLoop_endless (hc : c.reading = false) (fuel : ℕ) :
    parseLoop t fuel c buf = .error .endless := by
  obtain ⟨state, request⟩ := c
  induction fuel with
  | zero => rfl
  | succ fuel ih =>
    cases state with
    | kExceptRequestLine => cases hc
    | kExceptHeaders => cases hc
    | kExceptBody => exact ih
    | kGotAll => exact ih

theorem parseLoop_waits (hc : c.reading = true) (hi : pairAt 13 10 buf.contents = none) :
    parseLoop t (fuel + 1) c buf = .ok (true, c, buf) := by
  have hnone := Buffer.findCRLF_eq_none_iff.mpr hi
  obtain ⟨state, request⟩ := c
  cases state with
  | kExceptRequestLine | kExceptHeaders => simp only [parseLoop, hnone]
  | kExceptBody => cases hc
  | kGotAll => cases hc

theorem gotAll_of_reading (hc : c.reading = true) : c.gotAll = false := by
  obtain ⟨state, r⟩ := c
  cases state with
  | kGotAll => cases hc
  | _ => rfl

section

variable (h : buf.Wf) (hi : pairAt 13 10 buf.contents = some i)
include h hi

theorem parseLoop_requestLine :
    ∃ b₁, Buffer.Becomes buf b₁ (buf.contents.drop (i + 2)) ∧
      parseLoop t (fuel + 1) ⟨.kExceptRequestLine, r⟩ buf =
        (r.processRequestLine (buf.contents.take i)).bind fun p =>
          if p.1 then parseLoop t fuel ⟨.kExceptHeaders, p.2.setReceiveTime t⟩ b₁
          else .ok (false, ⟨.kExceptRequestLine, p.2⟩, buf) := by
  obtain ⟨b₁, hretrieve, hspec⟩ := Buffer.retrieveLine_spec h hi
  refine ⟨b₁, hspec, ?_⟩
  rw [parseLoop]
  simp only [findCRLF_line hi, Nat.add_sub_cancel_left, hretrieve]
  rfl

theorem parseLoop_header :
    ∃ b₁, Buffer.Becomes buf b₁ (buf.contents.drop (i + 2)) ∧
      parseLoop t (fuel + 1) ⟨.kExceptHeaders, r⟩ buf =
        if (buf.contents.take i).idxOf 58 ≠ (buf.contents.take i).length then
          parseLoop t fuel ⟨.kExceptHeaders,
            r.addHeader ((buf.contents.take i).take ((buf.contents.take i).idxOf 58))
              ((buf.contents.take i).drop ((buf.contents.take i).idxOf 58 + 1))⟩ b₁
        else .ok (true, ⟨.kGotAll, r⟩, b₁) := by
  obtain ⟨b₁, hretrieve, hspec⟩ := Buffer.retrieveLine_spec h hi
  refine ⟨b₁, hspec, ?_⟩
  rw [parseLoop]
  simp only [findCRLF_line hi, Nat.add_sub_cancel_left, hretrieve]
  rfl

variable (hrest : ∀ (c : HttpContext) {b : Buffer}, b.Wf → b.contents = buf.contents.drop (i + 2) →
  Returns (parser.run c.untimed b.contents) (c.timeAt t) (parseLoop t fuel c b))
include hrest

theorem requestLine_returns :
    Returns (parser.run ⟨.kExceptRequestLine, r.untimed⟩ buf.contents) t
      (parseLoop t (fuel + 1) ⟨.kExceptRequestLine, r⟩ buf) := by
  have hmove := round_some (c := ⟨.kExceptRequestLine, r.untimed⟩) rfl hi
  have huntimed := r.processRequestLine_untimed (buf.contents.take i)
  obtain ⟨b₁, hspec, hloop⟩ := parseLoop_requestLine h hi
  rw [hloop]
  cases hp : r.processRequestLine (buf.contents.take i) with
  | error f =>
    rw [hp] at huntimed
    rw [onLine_eq (.fault huntimed)] at hmove
    rw [run_stop hmove]
    exact .fault rfl
  | ok p =>
    obtain ⟨ok, r'⟩ := p
    rw [hp] at huntimed
    cases ok with
    | false =>
      rw [onLine_eq (.rejected huntimed)] at hmove
      rw [run_stop hmove]
      exact .rejects rfl rfl h rfl
    | true =>
      have hline := length_take_pairAt hi
      rw [onLine_eq (.accepted huntimed), hline] at hmove
      rw [run_take hmove, ← hspec.contents_eq]
      exact (hrest ⟨.kExceptHeaders, r'.setReceiveTime t⟩ hspec.wf hspec.contents_eq).after []

theorem header_returns :
    Returns (parser.run ⟨.kExceptHeaders, r.untimed⟩ buf.contents) r.receiveTime
      (parseLoop t (fuel + 1) ⟨.kExceptHeaders, r⟩ buf) := by
  have hmove := round_some (c := ⟨.kExceptHeaders, r.untimed⟩) rfl hi
  have hline := length_take_pairAt hi
  obtain ⟨b₁, hspec, hloop⟩ := parseLoop_header h hi
  rw [hloop]
  by_cases hcolon : (buf.contents.take i).idxOf 58 ≠ (buf.contents.take i).length
  · rw [onLine_eq (.header hcolon), hline] at hmove
    rw [if_pos hcolon, run_take hmove, ← hspec.contents_eq]
    exact (hrest ⟨.kExceptHeaders, r.addHeader _ _⟩ hspec.wf hspec.contents_eq).after []
  · rw [onLine_eq (.last hcolon), hline] at hmove
    rw [if_neg hcolon, run_stop hmove]
    exact .got rfl rfl hspec.wf hspec.contents_eq rfl

end

theorem parseLoop_returns (h : buf.Wf) (hfuel : buf.contents.length < fuel) :
    Returns (parser.run c.untimed buf.contents) (c.timeAt t) (parseLoop t fuel c buf) := by
  induction fuel generalizing c buf with
  | zero => omega
  | succ fuel ih =>
    cases hc : c.reading with
    | false =>
      have hmove : parser.move c.untimed buf.contents = _ := round_endless hc
      rw [parseLoop_endless hc, run_stop hmove]
      exact .fault rfl
    | true =>
      cases hi : pairAt 13 10 buf.contents with
      | none =>
        have hmove : parser.move c.untimed buf.contents = _ := round_none hc hi
        rw [parseLoop_waits hc hi, run_wait hmove]
        exact .waits rfl (gotAll_of_reading hc) h rfl fun hne => timeAt_of_ne hne t
      | some i =>
        have hrest (c : HttpContext) {b : Buffer} (hwf : b.Wf)
            (hb : b.contents = buf.contents.drop (i + 2)) :
            Returns (parser.run c.untimed b.contents) (c.timeAt t) (parseLoop t fuel c b) := by
          have hlen := pairAt_bounds hi
          exact ih hwf (by rw [hb, length_drop]; omega)
        obtain ⟨state, r⟩ := c
        cases state with
        | kExceptRequestLine => exact requestLine_returns h hi hrest
        | kExceptHeaders => exact header_returns h hi hrest
        | kExceptBody => cases hc
        | kGotAll => cases hc

theorem parseRequest_returns (c : HttpContext) (h : buf.Wf) (t : ℤ) :
    Returns (parser.run c.untimed buf.contents) (c.timeAt t) (c.parseRequest buf t) :=
  parseLoop_returns h (by rw [h.length_contents]; exact lt_succ_self _)

end

section

variable {c c' : HttpContext} {buf : Buffer} {w : List UInt8} {n : ℕ}

def summary (p : Parse) : Except Fault (Verdict × HttpRequest × List UInt8) :=
  match p.status with
  | .inl c => .ok (.incomplete, c.request, p.left)
  | .inr (.ok (true, c)) => .ok (.gotAll, c.request, p.left)
  | .inr (.ok (false, c)) => .ok (.rejected, c.request, p.left)
  | .inr (.error f) => .error f

theorem foldl_resume_of_stopped {p : Parse} {r : Returned} (h : p.status = .inr r)
    (pieces : List (List UInt8)) :
    pieces.foldl parser.resume p = ⟨p.outputs, .inr r, p.left ++ pieces.flatten⟩ := by
  obtain ⟨outputs, status, left⟩ := p
  cases h
  exact foldl_resume_stopped ..

theorem summary_of_waiting {p : Parse} (h : p.status = .inl c) (pieces : List (List UInt8)) :
    summary (pieces.foldl parser.resume p) =
      summary (pieces.foldl parser.resume (.waiting c p.left)) := by
  obtain ⟨outputs, status, left⟩ := p
  cases h
  have hsplit : (⟨outputs, .inl c, left⟩ : Parse) =
      (Consumer.Progress.waiting c left).after outputs := by
    simp [Consumer.Progress.after, Consumer.Progress.waiting]
  rw [hsplit, foldl_resume_after]
  rfl

theorem parseSegments_cons {b₁ : Buffer} {segment : List UInt8} (t : ℤ)
    (segments : List (List UInt8 × ℤ)) (h : buf.append segment = some b₁) :
    parseSegments ((segment, t) :: segments) c buf =
      (c.parseRequest b₁ t).bind fun x =>
        if !x.1 then
          .ok (.rejected, x.2.1.request, x.2.2.contents ++ (segments.map (·.1)).flatten)
        else if x.2.1.gotAll then
          .ok (.gotAll, x.2.1.request, x.2.2.contents ++ (segments.map (·.1)).flatten)
        else parseSegments segments x.2.1 x.2.2 := by
  rw [parseSegments, h]
  rfl

theorem parseSegments_eq (segments : List (List UInt8 × ℤ)) (h : buf.Wf) :
    (parseSegments segments c buf).map (fun x => (x.1, x.2.1.untimed, x.2.2)) =
      summary ((segments.map (·.1)).foldl parser.resume (.waiting c.untimed buf.contents)) := by
  induction segments generalizing c buf with
  | nil => rfl
  | cons first segments ih =>
    obtain ⟨segment, t⟩ := first
    obtain ⟨b₁, happend, hspec⟩ := Buffer.append_spec h segment
    have hfirst : parser.resume (.waiting c.untimed buf.contents) segment =
        parser.run c.untimed b₁.contents := by
      rw [hspec.contents_eq]
      rfl
    have hreturns := parseRequest_returns c hspec.wf t
    rw [map_cons, foldl_cons, hfirst, parseSegments_cons t segments happend]
    generalize c.parseRequest b₁ t = x at hreturns ⊢
    cases hreturns with
    | fault hstatus =>
      rw [foldl_resume_of_stopped hstatus]
      rfl
    | @waits c₁ _ hstatus hgot wf left =>
      rw [summary_of_waiting hstatus, ← left, ← ih wf]
      change Except.map _ (if c₁.gotAll = true then _ else _) = _
      rw [hgot]
      rfl
    | @got c₁ _ hstatus hgot wf left =>
      rw [foldl_resume_of_stopped hstatus]
      change Except.map _ (if c₁.gotAll = true then _ else _) = _
      rw [hgot, left]
      rfl
    | rejects hstatus hgot wf left =>
      rw [foldl_resume_of_stopped hstatus, ← left]
      rfl

def Fresh (c : HttpContext) : Prop :=
  c.state = .kExceptHeaders ∨ c.state = .kExceptRequestLine ∧ c.request.method = .kInvalid

theorem fresh_create : Fresh create := .inr ⟨rfl, rfl⟩

theorem processRequestLine_ok {r : HttpRequest} (h : r.method = .kInvalid) (line : List UInt8) :
    ∃ x, r.processRequestLine line = .ok x := by
  by_cases hspace : line.idxOf 32 ≠ line.length
  · exact ⟨_, r.processRequestLine_unset h hspace⟩
  · exact ⟨_, r.processRequestLine_bare hspace⟩

theorem fresh_of_take {out : List Empty} (h : parser.move c w = .take n out c') : Fresh c' := by
  rcases move_inv h (by simp) with ⟨-, hstop⟩ | ⟨i, -, hline⟩
  · cases hstop
  · cases hline with
    | accepted hp => exact .inl rfl
    | header hcolon => exact .inl rfl

theorem ok_of_stop {x : Returned} (hc : Fresh c) (h : parser.move c w = .stop n x) :
    ∃ y, x = .ok y := by
  rcases move_inv h (by simp) with ⟨hreading, -⟩ | ⟨i, -, hline⟩
  · rcases hc with hstate | ⟨hstate, -⟩ <;> simp [reading, hstate] at hreading
  · cases hline with
    | fault hp =>
      rcases hc with hstate | ⟨-, hmethod⟩
      · cases hstate
      · obtain ⟨x, hx⟩ := processRequestLine_ok hmethod (w.take i)
        rw [hx] at hp
        cases hp
    | rejected hp => exact ⟨_, rfl⟩
    | last hcolon => exact ⟨_, rfl⟩

theorem summary_run_ok (hc : Fresh c) : ∃ x, summary (parser.run c w) = .ok x := by
  have hall : (parser.run c w).status.elim Fresh fun x => ∃ y, x = .ok y :=
    run_invariant (fun _ hmove => fresh_of_take hmove) ok_of_stop hc
  rw [summary]
  cases hstatus : (parser.run c w).status with
  | inl c₁ => exact ⟨_, rfl⟩
  | inr x =>
    rw [hstatus] at hall
    obtain ⟨⟨ok, c₁⟩, rfl⟩ := hall
    cases ok <;> exact ⟨_, rfl⟩

theorem parseSegments_create (size : ℕ) (segments : List (List UInt8 × ℤ)) :
    ∃ buf verdict r left, Buffer.create size = some buf ∧
      parseSegments segments .create buf = .ok (verdict, r, left) ∧
      summary (parser.run create (segments.map (·.1)).flatten) =
        .ok (verdict, r.untimed, left) := by
  obtain ⟨buf, hbuf, hwf, hempty, -⟩ := Buffer.create_spec size
  obtain ⟨x, hx⟩ : ∃ x, summary (parser.run create (segments.map (·.1)).flatten) = .ok x :=
    summary_run_ok fresh_create
  have hnil : parser.move create [] = .wait := rfl
  have heq := parseSegments_eq (c := create) segments hwf
  have hrun : summary ((segments.map (·.1)).foldl parser.resume
      (.waiting create.untimed buf.contents)) = .ok x := by
    rw [hempty, ← hx]
    exact congrArg summary (foldl_resume hnil _)
  rw [hrun] at heq
  cases hparse : parseSegments segments create buf with
  | error f =>
    rw [hparse] at heq
    cases heq
  | ok y =>
    rw [hparse] at heq
    cases heq
    exact ⟨buf, _, _, _, hbuf, hparse, hx⟩

end

/-- However the bytes are cut into segments, whenever these arrive and whatever the initial sizes
of the buffers, the verdict, the request and the bytes that are left are those of the bytes in one
piece. -/
theorem request_segmentation (size₁ size₂ : ℕ) (segments : List (List UInt8 × ℤ)) (t : ℤ) :
    ∃ buf₁ buf₂ verdict r₁ r₂ left,
      Buffer.create size₁ = some buf₁ ∧ Buffer.create size₂ = some buf₂ ∧
      parseSegments segments .create buf₁ = .ok (verdict, r₁, left) ∧
      parseSegments [((segments.map (·.1)).flatten, t)] .create buf₂ = .ok (verdict, r₂, left) ∧
      r₁.untimed = r₂.untimed := by
  obtain ⟨buf₁, v₁, r₁, left₁, h₁, hparse₁, hrun₁⟩ := parseSegments_create size₁ segments
  obtain ⟨buf₂, v₂, r₂, left₂, h₂, hparse₂, hrun₂⟩ :=
    parseSegments_create size₂ [((segments.map (·.1)).flatten, t)]
  rw [map_singleton, flatten_singleton, hrun₁] at hrun₂
  injection hrun₂ with hsame
  injection hsame with hverdict hsame
  injection hsame with hrequest hleft
  subst hverdict hleft
  exact ⟨buf₁, buf₂, v₁, r₁, r₂, left₁, h₁, h₂, hparse₁, hparse₂, hrequest⟩

end HttpContext
end JKYi.Net
