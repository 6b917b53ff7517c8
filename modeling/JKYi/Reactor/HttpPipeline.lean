import JKYi.Foundation.Backlog
import JKYi.Reactor.HttpServer

/-!
# Requests back to back

A client may send a request before the last one is answered. The server takes at most
one request off the buffer for each delivery, so requests that arrive together wait
for deliveries to come, which there may not be.
-/

namespace JKYi.Net

open HttpRequest List

open Http (text isSpace)

/-- A well-formed request without a body, as a client writes it. A field is a name and the text
behind the colon. -/
structure RequestText where
  method : List UInt8
  target : List UInt8
  http11 : Bool
  fields : List (List UInt8 × List UInt8)
  isMethod : HttpRequest.Method.ofString method ≠ .kInvalid
  isTarget : 32 ∉ target ∧ 10 ∉ target
  isFields : ∀ field ∈ fields, 58 ∉ field.1 ∧ 10 ∉ field.1 ∧ 10 ∉ field.2

namespace RequestText

variable (q : RequestText)

def version : List UInt8 := if q.http11 then text "HTTP/1.1" else text "HTTP/1.0"

def requestLine : List UInt8 := q.method ++ 32 :: (q.target ++ 32 :: q.version)

def fieldLine (field : List UInt8 × List UInt8) : List UInt8 := field.1 ++ 58 :: field.2

def bytes : List UInt8 :=
  joinLines 13 10 (q.requestLine :: (q.fields.map fieldLine ++ [[]]))

def headers (fields : List (List UInt8 × List UInt8)) (m : StringMap) : StringMap :=
  fields.foldl
    (fun m field => m.set field.1 ((field.2.dropWhile isSpace).rdropWhile isSpace)) m

def request : HttpRequest where
  method := .ofString q.method
  version := if q.http11 then .kHttp11 else .kHttp10
  path := q.target.take (q.target.idxOf 63)
  query := q.target.drop (q.target.idxOf 63)
  receiveTime := 0
  headers := headers q.fields []

end RequestText

namespace HttpRequest

variable {r : HttpRequest} {target : List UInt8}

theorem setTarget_eq (h : r.query = []) (target : List UInt8) : r.setTarget target =
    { r with path := target.take (target.idxOf 63), query := target.drop (target.idxOf 63) } := by
  rw [setTarget]
  by_cases hquestion : target.idxOf 63 = target.length
  · rw [if_neg (not_not.mpr hquestion), hquestion, take_length, drop_length, ← h]
    rfl
  · rw [if_pos hquestion]
    rfl

theorem foldl_addLine {fields : List (List UInt8 × List UInt8)}
    (h : ∀ field ∈ fields, 58 ∉ field.1) (r : HttpRequest) :
    (fields.map RequestText.fieldLine).foldl addLine r =
      { r with headers := RequestText.headers fields r.headers } := by
  induction fields generalizing r with
  | nil => rfl
  | cons field fields ih =>
    have hline : addLine r (RequestText.fieldLine field) = r.addHeader field.1 field.2 := by
      rw [addLine, RequestText.fieldLine, idxOf_cut (h field mem_cons_self), take_left,
        ← drop_drop, drop_left]
      rfl
    rw [map_cons, foldl_cons, hline, ih fun f hf => h f (mem_cons_of_mem _ hf)]
    rfl

end HttpRequest

namespace RequestText

open HttpContext (parser)

variable (q : RequestText)

theorem processRequestLine_eq : HttpRequest.create.processRequestLine q.requestLine =
    .ok (true, { q.request with headers := [] }) := by
  rw [requestLine, processRequestLine_method rfl q.isMethod,
    processTarget_eq _ q.isTarget.1, setTarget_eq rfl, request, version]
  cases q.http11 <;> rfl

theorem unbroken_requestLine : Unbroken 13 10 q.requestLine := by
  have hmethod : 10 ∉ q.method := not_mem_method q.isMethod (by decide)
  have hversion : 10 ∉ q.version := by
    rw [version]
    cases q.http11 <;> decide
  refine unbroken_of_not_mem ?_ (by decide)
  simp [requestLine, hmethod, q.isTarget.2, hversion]

theorem isHeader : ∀ line ∈ q.fields.map fieldLine, Unbroken 13 10 line ∧ 58 ∈ line := by
  refine forall_mem_map.mpr fun field hfield => ?_
  obtain ⟨-, hname, hvalue⟩ := q.isFields field hfield
  refine ⟨unbroken_of_not_mem ?_ (by decide), ?_⟩
  · simp [fieldLine, hname, hvalue]
  · simp [fieldLine]

theorem run_bytes (more : List UInt8) : parser.run .create (q.bytes ++ more) =
    ⟨[], .inr (.ok (true, ⟨.kGotAll, q.request⟩)), more⟩ := by
  have hlines : q.bytes ++ more = q.requestLine ++ 13 :: 10 ::
      (joinLines 13 10 (q.fields.map fieldLine) ++ ([] ++ 13 :: 10 :: more)) := by
    simp [bytes]
  have hfields := foldl_addLine (fun field hfield => (q.isFields field hfield).1)
    { q.request with headers := [] }
  rw [hlines]
  refine (HttpContext.run_accepted q.unbroken_requestLine q.processRequestLine_eq _).trans ?_
  rw [HttpContext.run_headers q.isHeader, hfields]
  exact HttpContext.run_last (unbroken_of_not_mem not_mem_nil (by decide))
    not_mem_nil more

/-- The parser waits for the rest of a request, and for its line as long as this is not
complete. -/
theorem run_part {w more : List UInt8} (h : q.bytes = w ++ more) (hmore : more ≠ []) :
    ∃ c, (parser.run .create w).status = .inl c ∧
      (c.state = .kExceptRequestLine ↔ ¬ q.requestLine.length + 2 ≤ w.length) := by
  cases hstatus : (parser.run .create w).status with
  | inl c =>
    obtain ⟨tail, hbytes⟩ : ∃ tail, q.bytes = q.requestLine ++ 13 :: 10 :: tail :=
      ⟨_, joinLines_cons ..⟩
    refine ⟨c, rfl, ?_⟩
    rcases HttpContext.run_due (r := .create) rfl w with ⟨hnone, hrun⟩ |
      ⟨first, rest, r', hline, -, -, hrun⟩ | ⟨first, rest, r', -, -, -, hrun⟩
    all_goals
      rw [HttpContext.create, hrun] at hstatus
    · cases hstatus
      refine iff_of_true rfl fun hlen => ?_
      obtain ⟨rest, rfl⟩ : q.requestLine ++ [13, 10] <+: w :=
        prefix_of_prefix_length_le ⟨tail, by simp [hbytes]⟩ ⟨more, h.symm⟩ (by simpa using hlen)
      rw [append_assoc, cons_append, singleton_append,
        takeLine_line q.unbroken_requestLine] at hnone
      cases hnone
    · have hstate := HttpContext.run_of_headers (c := ⟨.kExceptHeaders, r'⟩) rfl rest
      rw [hstatus] at hstate
      obtain ⟨hfirst, rfl⟩ := takeLine_eq_some_iff.mp hline
      have hsame := takeLine_line q.unbroken_requestLine tail
      rw [← hbytes, h, append_assoc, cons_append, cons_append, takeLine_line hfirst] at hsame
      cases hsame
      refine iff_of_false (fun hrequest => by cases hstate.symm.trans hrequest) (not_not.mpr ?_)
      simp
    · cases hstatus
  | inr x =>
    have hrun := q.run_bytes []
    rw [append_nil, h, Consumer.run_append, Consumer.resume, hstatus] at hrun
    have hleft := congrArg Consumer.Progress.left hrun
    exact absurd (append_eq_nil_iff.mp hleft).2 hmore

theorem length_bytes_pos : 0 < q.bytes.length := by
  rw [bytes, joinLines_cons, length_append, length_cons]
  omega

end RequestText

namespace HttpServer

open HttpContext (parser)

/-- The requests with which the callback has been called. -/
def callbacks (events : List HttpEvent) : List HttpRequest :=
  events.filterMap fun event =>
    match event with
    | .httpCallback req => some req
    | _ => none

theorem callbacks_cons (req : HttpRequest) (events : List HttpEvent) :
    callbacks (.httpCallback req :: events) = req :: callbacks events := rfl

theorem callbacks_append (events events' : List HttpEvent) :
    callbacks (events ++ events') = callbacks events ++ callbacks events' :=
  filterMap_append

theorem Silent.callbacks {events : List HttpEvent} (h : Silent events) :
    HttpServer.callbacks events = [] := by
  refine filterMap_eq_nil_iff.mpr fun event hevent => ?_
  rcases h event hevent with ⟨bytes, rfl⟩ | rfl <;> rfl

/-- The bytes that have come since the last request are parsed or in the buffer; `time` is when
the request line was complete. -/
structure Holds (conn : HttpConnection) (sent : List UInt8) (time : Option ℤ) : Prop where
  wf : conn.inputBuffer.Wf
  timed (t : ℤ) : conn.context.timeAt t = time.getD t
  run (more : List UInt8) :
    parser.run conn.context.untimed (conn.inputBuffer.contents ++ more) =
      parser.run .create (sent ++ more)

section

variable {httpCallback : HttpCallback} {conn : HttpConnection} {sent : List UInt8}
  {time : Option ℤ} {delivery : List UInt8 × ℤ}

theorem deliver_part (httpCallback : HttpCallback) (h : Holds conn sent time) {c : HttpContext}
    (complete : Prop) [Decidable complete]
    (hpart : (parser.run .create (sent ++ delivery.1)).status = .inl c)
    (hline : c.state = .kExceptRequestLine ↔ ¬ complete) :
    ∃ conn', deliver httpCallback delivery conn = ([], some conn') ∧
      Holds conn' (sent ++ delivery.1)
        (if complete then some (time.getD delivery.2) else none) := by
  have hdelivered := deliver_delivered httpCallback h.wf delivery
  rw [h.run] at hdelivered
  generalize deliver httpCallback delivery conn = x at hdelivered ⊢
  cases hdelivered with
  | fault status | rejected status | ended status | answered status => cases hpart.symm.trans status
  | @waits c' _ status wf left timed =>
    obtain rfl := Sum.inl.inj (hpart.symm.trans status)
    refine ⟨_, rfl, wf, fun t => ?_, fun more => ?_⟩
    · by_cases hcomplete : complete
      · have hne : c'.state ≠ .kExceptRequestLine := fun heq => hline.mp heq hcomplete
        rw [if_pos hcomplete, ← HttpContext.timeAt_of_ne hne, timed hne, h.timed]
        rfl
      · obtain ⟨state, r⟩ := c'
        cases hline.mpr hcomplete
        rw [if_neg hcomplete]
        rfl
    have hgoes := Consumer.run_append_waiting status more
    have hnone : (parser.run .create (sent ++ delivery.1)).outputs = [] :=
      eq_nil_iff_forall_not_mem.mpr fun x => x.elim
    rw [hgoes, hnone, Consumer.Progress.after_nil, ← left]

theorem deliver_request (httpCallback : HttpCallback) (h : Holds conn sent time)
    {q : RequestText} {rest : List UInt8} (hsent : sent ++ delivery.1 = q.bytes ++ rest) :
    ∃ req events next,
      deliver httpCallback delivery conn = (.httpCallback req :: events, next) ∧
        callbacks events = [] ∧ req = q.request.setReceiveTime (time.getD delivery.2) ∧
        (((respond httpCallback req).output = none ∧ next = none) ∨
          (respond httpCallback req).output ≠ none ∧ ∃ conn', next = some conn' ∧
            Holds conn' rest none) := by
  have hdelivered := deliver_delivered httpCallback h.wf delivery
  have hrequest {c : HttpContext}
      (hstatus : Sum.inr (.ok (true, ⟨.kGotAll, q.request⟩)) =
        (Sum.inr (.ok (true, c.untimed)) : HttpContext ⊕ HttpContext.Returned))
      (htime : c.request.receiveTime = conn.context.timeAt delivery.2) :
      c.request = q.request.setReceiveTime (time.getD delivery.2) := by
    have hpair := Except.ok.inj (Sum.inr.inj hstatus)
    have huntimed : q.request = c.request.untimed := congrArg (fun p => p.2.request) hpair
    rw [huntimed, ← h.timed, ← htime]
    rfl
  rw [h.run, hsent, q.run_bytes] at hdelivered
  generalize deliver httpCallback delivery conn = x at hdelivered ⊢
  cases hdelivered with
  | fault status | waits status | rejected status => cases status
  | @ended c status output timed =>
    exact ⟨_, _, _, rfl, rfl, hrequest status timed, .inl ⟨output, rfl⟩⟩
  | @answered c buf events after status output wf left silent timed =>
    refine ⟨_, _, _, rfl, silent.callbacks, hrequest status timed,
      .inr ⟨output, _, rfl, wf, fun _ => rfl, ?_⟩⟩
    intro more
    exact congrArg (fun w => parser.run .create (w ++ more)) left

theorem split_first {w w' x y : List UInt8} (h : w ++ x = w' ++ y) :
    (∃ rest, w' = w ++ rest ∧ x = rest ++ y) ∨ ∃ more, more ≠ [] ∧ w = w' ++ more := by
  rcases append_eq_append_iff.mp h with ⟨rest, hrest, hx⟩ | ⟨more, hmore, hy⟩
  · exact .inl ⟨rest, hrest, hx⟩
  · by_cases hnil : more = []
    · subst hnil
      rw [append_nil] at hmore
      exact .inl ⟨[], by rw [hmore, append_nil], hy.symm⟩
    · exact .inr ⟨more, hnil, hmore⟩

def Writes (httpCallback : HttpCallback) (req : HttpRequest) : Prop :=
  (respond httpCallback req).output ≠ none

theorem forall_take_cons {P : HttpRequest → Prop} {req : HttpRequest} (h : P req)
    (reqs : List HttpRequest) (n : ℕ) :
    (∀ r ∈ (req :: reqs).take n, P r) ↔ ∀ r ∈ reqs.take (n - 1), P r := by
  cases n with
  | zero => simp
  | succ n => rw [take_succ_cons, forall_mem_cons, and_iff_right h, Nat.add_sub_cancel]

/-- The requests that are answered, with their receive times: `sent` bytes of the first one have
come, and `time` is when its line was complete. -/
def timed : List RequestText → ℕ → Option ℤ → List (List UInt8 × ℤ) → List HttpRequest
  | _, _, _, [] => []
  | [], _, _, _ :: _ => []
  | q :: qs, sent, time, delivery :: deliveries =>
    if q.bytes.length ≤ sent + delivery.1.length then
      q.request.setReceiveTime (time.getD delivery.2) ::
        timed qs (sent + delivery.1.length - q.bytes.length) none deliveries
    else
      timed (q :: qs) (sent + delivery.1.length)
        (if q.requestLine.length + 2 ≤ sent + delivery.1.length then some (time.getD delivery.2)
          else none) deliveries

/-- Once per request, in order: there are enough deliveries, and no response before the last one
ends the program. -/
theorem serve_callbacks_iff (httpCallback : HttpCallback) (h : Holds conn sent time)
    {requests : List RequestText} {deliveries : List (List UInt8 × ℤ)}
    (hbytes : requests.flatMap RequestText.bytes = sent ++ deliveries.flatMap (·.1)) :
    (callbacks (serve httpCallback deliveries conn).1).map HttpRequest.untimed =
        requests.map RequestText.request ↔
      served (requests.map (·.bytes.length)) sent.length (deliveries.map (·.1.length)) =
          requests.length ∧
        ∀ req ∈ (timed requests sent.length time deliveries).take (requests.length - 1),
          Writes httpCallback req := by
  induction deliveries generalizing conn sent time requests with
  | nil => cases requests <;> simp [serve, callbacks, served, timed]
  | cons delivery deliveries ih =>
    rw [flatMap_cons, ← append_assoc] at hbytes
    cases requests with
    | nil =>
      have hempty : sent ++ delivery.1 = [] := (append_eq_nil_iff.mp hbytes.symm).1
      have hpart : (parser.run .create (sent ++ delivery.1)).status = .inl .create := by
        rw [hempty]
        rfl
      obtain ⟨conn', hdeliver, hholds⟩ :=
        deliver_part httpCallback h False hpart (iff_of_true rfl id)
      have hrest := ih hholds hbytes
      simp only [map_nil, served_nil, length_nil, Nat.zero_sub, take_zero] at hrest ⊢
      rwa [serve_goes_on hdeliver]
    | cons q qs =>
      simp only [map_cons, length_cons, Nat.add_sub_cancel]
      rcases split_first (flatMap_cons.symm.trans hbytes) with
        ⟨rest, hfull, hrest⟩ | ⟨more, hmore, hpart⟩
      · have hlen := congrArg List.length hfull
        rw [length_append, length_append] at hlen
        have hdone : q.bytes.length ≤ sent.length + delivery.1.length := by omega
        have hleft : sent.length + delivery.1.length - q.bytes.length = rest.length := by omega
        obtain ⟨req, events, next, hdeliver, hsilent, hreq, hnext⟩ :=
          deliver_request httpCallback h hfull
        have huntimed : req.untimed = q.request := by
          rw [hreq]
          rfl
        rw [served_done hdone, timed, if_pos hdone, ← hreq, hleft, add_left_inj]
        rcases hnext with ⟨houtput, rfl⟩ | ⟨houtput, conn', rfl, hholds⟩
        · rw [serve_ended hdeliver, callbacks_cons, hsilent, map_singleton, huntimed]
          cases qs with
          | nil => simp [served_nil]
          | cons q' qs => simp [Writes, houtput]
        · rw [serve_goes_on hdeliver, cons_append, callbacks_cons, callbacks_append, hsilent,
            nil_append, forall_take_cons houtput, map_cons, huntimed, List.cons.injEq,
            and_iff_right rfl]
          exact ih hholds hrest
      · obtain ⟨c, hstatus, hline⟩ := q.run_part hpart hmore
        obtain ⟨conn', hdeliver, hholds⟩ := deliver_part httpCallback h _ hstatus hline
        have hlen := congrArg List.length hpart
        have hpos := length_pos_iff.mpr hmore
        rw [length_append, length_append] at hlen
        have hlater : ¬ q.bytes.length ≤ sent.length + delivery.1.length := by omega
        rw [served_later hlater, timed, if_neg hlater, serve_goes_on hdeliver, nil_append,
          ← length_append]
        exact ih hholds hbytes

end

/-- At no point are more requests unfinished than there are deliveries to come. -/
def Paced (requests : List RequestText) (deliveries : List (List UInt8 × ℤ)) : Prop :=
  ∀ before after, deliveries = before ++ after →
    unfinished (requests.map (·.bytes.length)) (before.flatMap (·.1)).length ≤ after.length

theorem paced_iff (requests : List RequestText) (deliveries : List (List UInt8 × ℤ)) :
    served (requests.map (·.bytes.length)) 0 (deliveries.map (·.1.length)) = requests.length ↔
      Paced requests deliveries := by
  have hpos : ∀ job ∈ requests.map (·.bytes.length), 0 < job :=
    forall_mem_map.mpr fun q _ => q.length_bytes_pos
  have hserved := served_all_iff hpos (deliveries.map (·.1.length))
  rw [length_map] at hserved
  rw [hserved]
  constructor
  · rintro hall before after rfl
    have hbefore := hall _ _ map_append
    rwa [length_map, ← length_flatMap] at hbefore
  · intro hpaced before after heq
    obtain ⟨front, back, rfl, rfl, rfl⟩ := map_eq_append_iff.mp heq
    rw [length_map, ← length_flatMap]
    exact hpaced front back rfl

theorem holds_create {conn : HttpConnection} (h : Ready conn) (hcontext : conn.context = .create)
    (hcontents : conn.inputBuffer.contents = []) : Holds conn [] none := by
  refine ⟨h.wf, fun t => by rw [hcontext]; rfl, fun more => ?_⟩
  rw [hcontext, hcontents]
  rfl

/-- The callback is called once per request, in order, exactly if the deliveries are paced and no
response before the last one ends the program. -/
theorem callbacks_exact_iff (httpCallback : HttpCallback) (requests : List RequestText)
    (deliveries : List (List UInt8 × ℤ))
    (h : deliveries.flatMap (·.1) = requests.flatMap RequestText.bytes) :
    (callbacks (session httpCallback deliveries).1).map HttpRequest.untimed =
        requests.map RequestText.request ↔
      Paced requests deliveries ∧
        ∀ req ∈ (timed requests 0 none deliveries).take (requests.length - 1),
          Writes httpCallback req := by
  obtain ⟨conn, hcreate, hready, hcontext, hcontents⟩ := create_ready
  rw [session_eq hcreate, ← paced_iff]
  exact serve_callbacks_iff httpCallback (holds_create hready hcontext hcontents) h.symm

def emptyPage : HttpCallback := fun _ rsp =>
  { rsp with statusCode := .k200Ok, statusMessage := text "OK" }

theorem emptyPage_writes (req : HttpRequest) : Writes emptyPage req := by
  have hstrings : (respond emptyPage req).strings = [text "OK", []] := rfl
  have hshort : ∀ s ∈ (respond emptyPage req).strings, s.length < 2 ^ 31 := by
    rw [hstrings]
    exact forall_mem_cons.mpr ⟨by decide, forall_mem_singleton.mpr (by decide)⟩
  rw [Writes, HttpResponse.output_eq hshort]
  exact Option.some_ne_none _

def plainGet : RequestText :=
  ⟨text "GET", text "/", true, [], by decide, by decide, fun _ h => absurd h not_mem_nil⟩

/-- Two requests, each in its own delivery. -/
theorem callbacks_exact_two :
    (callbacks (session emptyPage [(plainGet.bytes, 0), (plainGet.bytes, 1)]).1).map
        HttpRequest.untimed = [plainGet, plainGet].map RequestText.request :=
  (callbacks_exact_iff emptyPage [plainGet, plainGet] _ rfl).mpr
    ⟨(paced_iff _ _).mp (by decide), fun req _ => emptyPage_writes req⟩

/-- Both in one delivery. -/
theorem second_request_waits :
    (callbacks (session emptyPage [(plainGet.bytes ++ plainGet.bytes, 0)]).1).map
        HttpRequest.untimed ≠ [plainGet, plainGet].map RequestText.request := by
  decide +kernel

end HttpServer
end JKYi.Net
