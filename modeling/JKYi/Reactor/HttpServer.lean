import JKYi.Reactor.HttpLines
import JKYi.Reactor.HttpResponse

/-!
# The server of the reactor

`HttpServer` parses what arrives on a connection and answers at most one request for
each delivery. A request line that is rejected stays in the buffer, and so does the
method that was read from it: the next delivery comes upon both.
-/

namespace JKYi.Net

open HttpContext List

open Http (text)

/-- `HttpCallback`. -/
abbrev HttpCallback := HttpRequest → HttpResponse → HttpResponse

def defaultHttpCallback : HttpCallback := fun _ rsp =>
  { rsp with statusCode := .k404NotFound, statusMessage := text "Not Found",
             closeConnection := true }

/-- A connection of the server; `connected` is `state_ == kConnected`. -/
structure HttpConnection where
  connected : Bool
  context : HttpContext
  inputBuffer : Buffer

/-- What can be seen of the server. -/
inductive HttpEvent where
  | httpCallback (req : HttpRequest)
  | send (bytes : List UInt8)
  | shutdown
  | fault (f : Fault)
  deriving DecidableEq

namespace HttpConnection

/-- `onConnection`, on a new connection. -/
def create : Option HttpConnection :=
  (Buffer.create Buffer.kInitialSize).map fun buf => ⟨true, .create, buf⟩

variable (conn : HttpConnection)

def send (bytes : List UInt8) : List HttpEvent := if conn.connected then [.send bytes] else []

def shutdown : List HttpEvent × HttpConnection :=
  if conn.connected then ([.shutdown], { conn with connected := false }) else ([], conn)

end HttpConnection

namespace HttpServer

variable (httpCallback : HttpCallback)

def respond (req : HttpRequest) : HttpResponse :=
  let connection := req.getHeader (text "Connection")
  let close := connection = text "close" ∨
    (req.version = .kHttp10 ∧ connection ≠ text "Keep-Alive")
  httpCallback req (.create (decide close))

def onRequest (conn : HttpConnection) (req : HttpRequest) :
    List HttpEvent × Option HttpConnection :=
  let rsp := respond httpCallback req
  rsp.output.elim ([.httpCallback req, .fault .buffer], none) fun bytes =>
    let (events, conn') := if rsp.closeConnection then conn.shutdown else ([], conn)
    (.httpCallback req :: (conn.send bytes ++ events), some conn')

def badRequest : List UInt8 := text "HTTP/1.1 400 Bad Request\r\n\r\n"

def onMessage (conn : HttpConnection) (receiveTime : ℤ) :
    List HttpEvent × Option HttpConnection :=
  match conn.context.parseRequest conn.inputBuffer receiveTime with
  | .error f => ([.fault f], none)
  | .ok (ok, context, buf) =>
    let conn : HttpConnection := ⟨conn.connected, context, buf⟩
    let (events, conn) :=
      if ok then ([], conn) else (conn.send badRequest ++ conn.shutdown.1, conn.shutdown.2)
    if context.gotAll then
      let answer := onRequest httpCallback conn context.request
      (events ++ answer.1, answer.2.map fun conn => { conn with context := .create })
    else (events, some conn)

def deliver (delivery : List UInt8 × ℤ) (conn : HttpConnection) :
    List HttpEvent × Option HttpConnection :=
  match conn.inputBuffer.append delivery.1 with
  | none => ([.fault .buffer], none)
  | some buf => onMessage httpCallback { conn with inputBuffer := buf } delivery.2

/-- Deliveries on one connection, until the program ends. -/
def serve : List (List UInt8 × ℤ) → HttpConnection → List HttpEvent × Option HttpConnection
  | [], conn => ([], some conn)
  | delivery :: deliveries, conn =>
    match deliver httpCallback delivery conn with
    | (events, none) => (events, none)
    | (events, some conn) =>
      let (events', conn) := serve deliveries conn
      (events ++ events', conn)

def session (deliveries : List (List UInt8 × ℤ)) : List HttpEvent × Option HttpConnection :=
  HttpConnection.create.elim ([.fault .buffer], none) (serve httpCallback deliveries)

variable {events : List HttpEvent}

section

variable {httpCallback} {conn : HttpConnection}

def Silent (events : List HttpEvent) : Prop :=
  ∀ e ∈ events, (∃ bytes, e = .send bytes) ∨ e = .shutdown

theorem silent_send (conn : HttpConnection) (bytes : List UInt8) : Silent (conn.send bytes) := by
  intro e he
  rw [HttpConnection.send] at he
  split at he
  · exact .inl ⟨bytes, mem_singleton.mp he⟩
  · cases he

theorem shutdown_cases (conn : HttpConnection) :
    ∃ events connected, conn.shutdown = (events, { conn with connected := connected }) ∧
      Silent events := by
  rw [HttpConnection.shutdown]
  split
  · exact ⟨_, _, rfl, fun e he => .inr (mem_singleton.mp he)⟩
  · exact ⟨_, _, rfl, fun e he => absurd he not_mem_nil⟩

theorem Silent.append {events' : List HttpEvent} (h : Silent events)
    (h' : Silent events') : Silent (events ++ events') :=
  forall_mem_append.mpr ⟨h, h'⟩

theorem onRequest_none (conn : HttpConnection) {req : HttpRequest}
    (h : (respond httpCallback req).output = none) :
    onRequest httpCallback conn req = ([.httpCallback req, .fault .buffer], none) := by
  rw [onRequest, h]
  rfl

theorem onRequest_some (conn : HttpConnection) {req : HttpRequest} {bytes : List UInt8}
    (h : (respond httpCallback req).output = some bytes) :
    ∃ events connected, onRequest httpCallback conn req =
        (.httpCallback req :: events, some { conn with connected := connected }) ∧
      Silent events := by
  have hsend := silent_send conn bytes
  cases hclose : (respond httpCallback req).closeConnection with
  | false =>
    refine ⟨conn.send bytes ++ [], conn.connected, ?_, ?_⟩
    · rw [onRequest, h, Option.elim, hclose]
      rfl
    · rwa [append_nil]
  | true =>
    obtain ⟨events, connected, hshutdown, hsilent⟩ := shutdown_cases conn
    refine ⟨conn.send bytes ++ events, connected, ?_, hsend.append hsilent⟩
    rw [onRequest, h, Option.elim, hclose, if_pos rfl, hshutdown]

/-- What comes of a delivery, after the progress of the parser. -/
inductive Delivered (httpCallback : HttpCallback) (connected : Bool) (p : HttpContext.Parse)
    (time : ℤ) : List HttpEvent × Option HttpConnection → Prop
  | fault {f : Fault} (status : p.status = .inr (.error f)) :
    Delivered httpCallback connected p time ([.fault f], none)
  | waits {c : HttpContext} {buf : Buffer} (status : p.status = .inl c.untimed) (wf : buf.Wf)
      (left : buf.contents = p.left)
      (timed : c.state ≠ .kExceptRequestLine → c.request.receiveTime = time) :
    Delivered httpCallback connected p time ([], some ⟨connected, c, buf⟩)
  | rejected {c : HttpContext} {buf : Buffer} {events : List HttpEvent} {after : Bool}
      (status : p.status = .inr (.ok (false, c.untimed))) (wf : buf.Wf)
      (left : buf.contents = p.left) (silent : Silent events) :
    Delivered httpCallback connected p time (events, some ⟨after, c, buf⟩)
  | ended {c : HttpContext} (status : p.status = .inr (.ok (true, c.untimed)))
      (output : (respond httpCallback c.request).output = none)
      (timed : c.request.receiveTime = time) :
    Delivered httpCallback connected p time ([.httpCallback c.request, .fault .buffer], none)
  | answered {c : HttpContext} {buf : Buffer} {events : List HttpEvent} {after : Bool}
      (status : p.status = .inr (.ok (true, c.untimed)))
      (output : (respond httpCallback c.request).output ≠ none) (wf : buf.Wf)
      (left : buf.contents = p.left) (silent : Silent events)
      (timed : c.request.receiveTime = time) :
    Delivered httpCallback connected p time
      (.httpCallback c.request :: events, some ⟨after, .create, buf⟩)

theorem onMessage_delivered (httpCallback : HttpCallback) (conn : HttpConnection)
    (h : conn.inputBuffer.Wf) (t : ℤ) :
    Delivered httpCallback conn.connected
      (HttpContext.parser.run conn.context.untimed conn.inputBuffer.contents)
      (conn.context.timeAt t) (onMessage httpCallback conn t) := by
  have hreturns := parseRequest_returns conn.context h t
  rw [onMessage]
  generalize conn.context.parseRequest conn.inputBuffer t = x at hreturns ⊢
  cases hreturns with
  | fault status => exact .fault status
  | waits status hgot wf left timed =>
    dsimp only
    rw [hgot]
    exact .waits status wf left timed
  | @rejects c buf status hgot wf left =>
    obtain ⟨events, after, hshutdown, hsilent⟩ := shutdown_cases ⟨conn.connected, c, buf⟩
    dsimp only
    rw [hgot, hshutdown]
    exact .rejected status wf left ((silent_send _ _).append hsilent)
  | @got c buf status hgot wf left timed =>
    dsimp only
    rw [hgot, if_pos rfl, if_pos rfl]
    cases hout : (respond httpCallback c.request).output with
    | none =>
      rw [onRequest_none _ hout]
      exact .ended status hout timed
    | some bytes =>
      obtain ⟨events, after, hreq, hsilent⟩ := onRequest_some ⟨conn.connected, c, buf⟩ hout
      rw [hreq]
      exact .answered status (by simp [hout]) wf left hsilent timed

theorem serve_ended {delivery : List UInt8 × ℤ}
    (h : deliver httpCallback delivery conn = (events, none))
    (deliveries : List (List UInt8 × ℤ)) :
    serve httpCallback (delivery :: deliveries) conn = (events, none) := by
  rw [serve, h]

theorem serve_goes_on {delivery : List UInt8 × ℤ}
    {conn' : HttpConnection} (h : deliver httpCallback delivery conn = (events, some conn'))
    (deliveries : List (List UInt8 × ℤ)) :
    serve httpCallback (delivery :: deliveries) conn =
      (events ++ (serve httpCallback deliveries conn').1,
        (serve httpCallback deliveries conn').2) := by
  rw [serve, h]

theorem deliver_delivered (httpCallback : HttpCallback) (h : conn.inputBuffer.Wf)
    (delivery : List UInt8 × ℤ) :
    Delivered httpCallback conn.connected (HttpContext.parser.run conn.context.untimed
      (conn.inputBuffer.contents ++ delivery.1)) (conn.context.timeAt delivery.2)
      (deliver httpCallback delivery conn) := by
  obtain ⟨buf, happend, hspec⟩ := Buffer.append_spec h delivery.1
  have hmessage : Delivered httpCallback conn.connected
      (HttpContext.parser.run conn.context.untimed buf.contents) (conn.context.timeAt delivery.2)
      (onMessage httpCallback { conn with inputBuffer := buf } delivery.2) :=
    onMessage_delivered httpCallback ⟨conn.connected, conn.context, buf⟩ hspec.wf _
  rwa [deliver, happend, ← hspec.contents_eq]

end

/-! The assertion in `setMethod`. -/

open HttpRequest (IsRequestLine IsBrokenLine)

def BeginsBroken (w : List UInt8) : Prop :=
  ∃ line rest, takeLine 13 10 w = some (line, rest) ∧ IsBrokenLine line

/-- A request line is due, and with the bytes that arrive the first line is broken. -/
def MeetsBroken (conn : HttpConnection) (bytes : List UInt8) : Prop :=
  conn.context.state = .kExceptRequestLine ∧ BeginsBroken (conn.inputBuffer.contents ++ bytes)

structure Ready (conn : HttpConnection) : Prop where
  wf : conn.inputBuffer.Wf
  fresh : conn.context.Fresh

structure Stuck (conn : HttpConnection) : Prop where
  wf : conn.inputBuffer.Wf
  due : conn.context.state = .kExceptRequestLine
  set : conn.context.request.method ≠ .kInvalid
  broken : BeginsBroken conn.inputBuffer.contents

variable {httpCallback} {conn : HttpConnection} {delivery : List UInt8 × ℤ} {w : List UInt8}

theorem BeginsBroken.append (h : BeginsBroken w) (more : List UInt8) :
    BeginsBroken (w ++ more) := by
  obtain ⟨line, rest, hline, hbroken⟩ := h
  obtain ⟨hunbroken, rfl⟩ := takeLine_eq_some_iff.mp hline
  refine ⟨line, rest ++ more, ?_, hbroken⟩
  rw [append_assoc]
  exact takeLine_line hunbroken _

theorem deliver_stuck (h : Stuck conn) (delivery : List UInt8 × ℤ) :
    deliver httpCallback delivery conn = ([.fault .methodSet], none) := by
  obtain ⟨line, rest, hline, hbroken⟩ := h.broken.append delivery.1
  obtain ⟨hunbroken, hw⟩ := takeLine_eq_some_iff.mp hline
  have hcontext : conn.context.untimed =
      ⟨.kExceptRequestLine, conn.context.request.untimed⟩ := by
    rw [← h.due]
    rfl
  have hmove : HttpContext.parser.move conn.context.untimed
      (conn.inputBuffer.contents ++ delivery.1) = .stop 0 (.error .methodSet) := by
    rw [hw, hcontext, move_line rfl hunbroken]
    exact onLine_eq (.fault (HttpRequest.processRequestLine_again h.set hbroken))
  have hdelivered := deliver_delivered httpCallback h.wf delivery
  rw [Consumer.run_stop hmove] at hdelivered
  generalize deliver httpCallback delivery conn = x at hdelivered ⊢
  cases hdelivered with
  | fault status =>
    cases status
    rfl
  | waits status | rejected status | ended status | answered status => cases status

theorem Silent.not_fault (h : Silent events) (f : Fault) :
    .fault f ∉ events := by
  intro hmem
  rcases h _ hmem with ⟨bytes, heq⟩ | heq <;> cases heq

theorem beginsBroken_iff {line rest : List UInt8} (h : takeLine 13 10 w = some (line, rest)) :
    BeginsBroken w ↔ IsBrokenLine line := by
  constructor
  · rintro ⟨line', rest', h', hbroken⟩
    rw [h] at h'
    cases h'
    exact hbroken
  · exact fun hbroken => ⟨line, rest, h, hbroken⟩

theorem not_isRequestLine {line : List UInt8} (h : IsBrokenLine line) :
    ¬ IsRequestLine line := by
  obtain ⟨m, tail, hm, htarget, rfl⟩ := h
  rwa [HttpRequest.isRequestLine_iff hm]

theorem meetsBroken_iff (h : conn.context.Fresh) (bytes : List UInt8) :
    MeetsBroken conn bytes ↔ ∃ r, r.method ≠ .kInvalid ∧
      HttpContext.parser.run conn.context.untimed (conn.inputBuffer.contents ++ bytes) =
        ⟨[], .inr (.ok (false, ⟨.kExceptRequestLine, r⟩)), conn.inputBuffer.contents ++ bytes⟩ := by
  rcases h with hstate | ⟨hstate, hmethod⟩
  · refine iff_of_false (fun hmeets => ?_) ?_
    · rw [MeetsBroken, hstate] at hmeets
      cases hmeets.1
    · rintro ⟨r, -, hrun⟩
      have hheaders : conn.context.untimed.state = .kExceptHeaders := hstate
      exact headers_not_rejected hheaders _ (congrArg (·.status) hrun)
  · have hcontext : conn.context.untimed =
        ⟨.kExceptRequestLine, conn.context.request.untimed⟩ := by
      rw [← hstate]
      rfl
    have hunset : conn.context.request.untimed.method = .kInvalid := hmethod
    rw [MeetsBroken, and_iff_right hstate, hcontext]
    rcases run_due hunset (conn.inputBuffer.contents ++ bytes) with
      ⟨hline, hrun⟩ | ⟨first, rest, r', hline, hgood, -, hrun⟩ |
        ⟨first, rest, r', hline, hbad, hbroken, hrun⟩
    · refine iff_of_false ?_ ?_
      · rintro ⟨line, rest, hfound, -⟩
        rw [hline] at hfound
        cases hfound
      · rintro ⟨r, -, hrejected⟩
        rw [hrun] at hrejected
        cases hrejected
    · rw [beginsBroken_iff hline]
      refine iff_of_false (fun hbroken => not_isRequestLine hbroken hgood) ?_
      rintro ⟨r, -, hrejected⟩
      rw [hrun] at hrejected
      exact headers_not_rejected rfl _ (congrArg (·.status) hrejected)
    · rw [beginsBroken_iff hline, ← hbroken, hrun]
      constructor
      · exact fun hset => ⟨r', hset, rfl⟩
      · rintro ⟨r, hset, heq⟩
        cases heq
        exact hset

theorem deliver_cases (httpCallback : HttpCallback) (h : Ready conn)
    (delivery : List UInt8 × ℤ) :
    .fault .methodSet ∉ (deliver httpCallback delivery conn).1 ∧
      ((MeetsBroken conn delivery.1 ∧ ∃ conn',
          (deliver httpCallback delivery conn).2 = some conn' ∧ Stuck conn') ∨
        (¬ MeetsBroken conn delivery.1 ∧ ∀ conn',
          (deliver httpCallback delivery conn).2 = some conn' → Ready conn')) := by
  have hdelivered := deliver_delivered httpCallback h.wf delivery
  have hfresh : conn.context.untimed.Fresh := h.fresh
  have hall : (HttpContext.parser.run conn.context.untimed
      (conn.inputBuffer.contents ++ delivery.1)).status.elim HttpContext.Fresh
        fun x => ∃ y, x = .ok y :=
    Consumer.run_invariant (fun _ hmove => fresh_of_take hmove)
      ok_of_stop hfresh
  rw [meetsBroken_iff h.fresh]
  generalize deliver httpCallback delivery conn = x at hdelivered ⊢
  cases hdelivered with
  | fault status =>
    rw [status] at hall
    obtain ⟨y, hy⟩ := hall
    cases hy
  | waits status wf left =>
    rw [status] at hall
    refine ⟨not_mem_nil, .inr ⟨?_, ?_⟩⟩
    · rintro ⟨r, -, hrun⟩
      rw [hrun] at status
      cases status
    · rintro conn' ⟨⟩
      exact ⟨wf, hall⟩
  | ended status output =>
    refine ⟨by simp, .inr ⟨?_, ?_⟩⟩
    · rintro ⟨r, -, hrun⟩
      rw [hrun] at status
      cases status
    · rintro conn' ⟨⟩
  | answered status output wf left silent =>
    refine ⟨?_, .inr ⟨?_, ?_⟩⟩
    · rw [mem_cons, not_or]
      exact ⟨by simp, silent.not_fault _⟩
    · rintro ⟨r, -, hrun⟩
      rw [hrun] at status
      cases status
    · rintro conn' ⟨⟩
      exact ⟨wf, fresh_create⟩
  | @rejected c buf events after status wf left silent =>
    obtain ⟨r, hc, hrun⟩ := run_rejected_inv hfresh status
    have hsame : c.request.method = r.method := congrArg (fun c => c.request.method) hc
    have hstate : c.state = .kExceptRequestLine := congrArg HttpContext.state hc
    refine ⟨silent.not_fault _, ?_⟩
    by_cases hmethod : r.method = .kInvalid
    · refine .inr ⟨?_, ?_⟩
      · rintro ⟨r', hr', hrun'⟩
        rw [hrun] at hrun'
        cases hrun'
        exact hr' hmethod
      · rintro conn' ⟨⟩
        exact ⟨wf, .inr ⟨hstate, hsame.trans hmethod⟩⟩
    · refine .inl ⟨⟨r, hmethod, hrun⟩, _, rfl, wf, hstate, ?_, ?_⟩
      · exact fun hunset => hmethod (hsame.symm.trans hunset)
      · have hmeets := (meetsBroken_iff h.fresh delivery.1).mpr ⟨r, hmethod, hrun⟩
        change BeginsBroken buf.contents
        rw [left, hrun]
        exact hmeets.2

def Revisits (httpCallback : HttpCallback) (conn : HttpConnection)
    (deliveries : List (List UInt8 × ℤ)) : Prop :=
  ∃ before delivery after conn', deliveries = before ++ delivery :: after ∧ after ≠ [] ∧
    (serve httpCallback before conn).2 = some conn' ∧ MeetsBroken conn' delivery.1

theorem revisits_cons (httpCallback : HttpCallback) (conn : HttpConnection)
    (delivery : List UInt8 × ℤ) (deliveries : List (List UInt8 × ℤ)) :
    Revisits httpCallback conn (delivery :: deliveries) ↔
      (deliveries ≠ [] ∧ MeetsBroken conn delivery.1) ∨
        ∃ conn', (deliver httpCallback delivery conn).2 = some conn' ∧
          Revisits httpCallback conn' deliveries := by
  constructor
  · rintro ⟨before, d, after, conn', heq, hafter, hserve, hmeets⟩
    cases before with
    | nil =>
      cases heq
      cases hserve
      exact .inl ⟨hafter, hmeets⟩
    | cons first before =>
      cases heq
      obtain ⟨⟨events, next⟩, hx⟩ : ∃ x, deliver httpCallback delivery conn = x := ⟨_, rfl⟩
      rw [hx]
      cases next with
      | none =>
        rw [serve_ended hx] at hserve
        cases hserve
      | some conn₁ =>
        rw [serve_goes_on hx] at hserve
        exact .inr ⟨conn₁, rfl, before, d, after, conn', rfl, hafter, hserve, hmeets⟩
  · rintro (⟨hne, hmeets⟩ | ⟨conn₁, hnext, before, d, after, conn', rfl, hafter, hserve, hmeets⟩)
    · exact ⟨[], delivery, deliveries, conn, rfl, hne, rfl, hmeets⟩
    · refine ⟨delivery :: before, d, after, conn', rfl, hafter, ?_, hmeets⟩
      have hdeliver : deliver httpCallback delivery conn =
          ((deliver httpCallback delivery conn).1, some conn₁) := by rw [← hnext]
      rwa [serve_goes_on hdeliver]

theorem serve_stuck (h : Stuck conn) (deliveries : List (List UInt8 × ℤ)) :
    .fault .methodSet ∈ (serve httpCallback deliveries conn).1 ↔ deliveries ≠ [] := by
  cases deliveries with
  | nil => exact iff_of_false not_mem_nil (not_not.mpr rfl)
  | cons delivery deliveries =>
    rw [serve_ended (deliver_stuck h delivery)]
    exact iff_of_true mem_cons_self (cons_ne_nil _ _)

theorem revisits_ne_nil {deliveries : List (List UInt8 × ℤ)}
    (h : Revisits httpCallback conn deliveries) : deliveries ≠ [] := by
  obtain ⟨before, delivery, after, -, rfl, -⟩ := h
  simp

theorem serve_methodSet_iff (httpCallback : HttpCallback) (h : Ready conn)
    (deliveries : List (List UInt8 × ℤ)) :
    .fault .methodSet ∈ (serve httpCallback deliveries conn).1 ↔
      Revisits httpCallback conn deliveries := by
  induction deliveries generalizing conn with
  | nil => exact iff_of_false not_mem_nil fun hrevisits => revisits_ne_nil hrevisits rfl
  | cons delivery deliveries ih =>
    obtain ⟨hsilent, hnext⟩ := deliver_cases httpCallback h delivery
    rw [revisits_cons]
    obtain ⟨⟨events, next⟩, hx⟩ : ∃ x, deliver httpCallback delivery conn = x := ⟨_, rfl⟩
    rw [hx] at hsilent hnext ⊢
    rcases hnext with ⟨hmeets, conn', rfl, hstuck⟩ | ⟨hmeets, hready⟩
    · rw [serve_goes_on hx, mem_append, or_iff_right hsilent, serve_stuck hstuck]
      constructor
      · exact fun hne => .inl ⟨hne, hmeets⟩
      · rintro (⟨hne, -⟩ | ⟨_, -, hrevisits⟩)
        · exact hne
        · exact revisits_ne_nil hrevisits
    · rw [or_iff_right fun hboth => hmeets hboth.2]
      cases next with
      | none =>
        rw [serve_ended hx]
        refine iff_of_false hsilent ?_
        rintro ⟨conn', hnone, -⟩
        cases hnone
      | some conn' =>
        rw [serve_goes_on hx, mem_append, or_iff_right hsilent, ih (hready conn' rfl)]
        constructor
        · exact fun hrevisits => ⟨conn', rfl, hrevisits⟩
        · rintro ⟨_, ⟨⟩, hrevisits⟩
          exact hrevisits

theorem create_ready : ∃ conn, HttpConnection.create = some conn ∧ Ready conn ∧
    conn.context = .create ∧ conn.inputBuffer.contents = [] := by
  obtain ⟨buf, hcreate, wf, hcontents, -⟩ := Buffer.create_spec Buffer.kInitialSize
  refine ⟨⟨true, .create, buf⟩, ?_, ⟨wf, fresh_create⟩, rfl, hcontents⟩
  rw [HttpConnection.create, hcreate]
  rfl

theorem session_eq {conn : HttpConnection} (h : HttpConnection.create = some conn)
    (httpCallback : HttpCallback) (deliveries : List (List UInt8 × ℤ)) :
    session httpCallback deliveries = serve httpCallback deliveries conn := by
  rw [session, h]
  rfl

/-- The assertion in `setMethod` holds as long as nothing is delivered after a broken line. -/
theorem method_assertion_iff (httpCallback : HttpCallback)
    (deliveries : List (List UInt8 × ℤ)) :
    .fault .methodSet ∉ (session httpCallback deliveries).1 ↔
      ∀ before delivery after conn, deliveries = before ++ delivery :: after →
        (session httpCallback before).2 = some conn → MeetsBroken conn delivery.1 →
        after = [] := by
  obtain ⟨conn, hcreate, hready, -⟩ := create_ready
  rw [session_eq hcreate, serve_methodSet_iff httpCallback hready]
  constructor
  · intro hnot before delivery after conn' heq hsession hmeets
    rw [session_eq hcreate] at hsession
    by_contra hafter
    exact hnot ⟨before, delivery, after, conn', heq, hafter, hsession, hmeets⟩
  · rintro hall ⟨before, delivery, after, conn', heq, hafter, hserve, hmeets⟩
    refine hafter (hall before delivery after conn' heq ?_ hmeets)
    rwa [session_eq hcreate]

/-- A request line without a version, and then one more byte. -/
theorem method_assertion_fails :
    .fault .methodSet ∈
      (session defaultHttpCallback [(text "GET /\r\n", 0), (text "x", 1)]).1 := by
  decide +kernel

end HttpServer
end JKYi.Net
