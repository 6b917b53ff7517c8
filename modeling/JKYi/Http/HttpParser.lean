import JKYi.Http.HttpMessage
import JKYi.Http.RequestMachine
import JKYi.Http.ResponseMachine

/-!
# The parsers of heads

`HttpRequestParser` and `HttpResponseParser`: the machines over one buffer, with the callbacks
that fill in the message. The machine keeps its state between buffers, but the marks in the buffer
are reset at the start of each. `none` is a failed assertion or an exception.
-/

namespace JKYi.Http

def substr (buffer : List UInt8) (start p : ℕ) : Option (List UInt8) :=
  if start ≤ p then some ((buffer.drop start).take (p - start)) else none

structure HttpParser where
  cs : ℕ
  bodyStart : ℕ
  contentLen : ℤ
  mark : ℕ
  fieldStart : ℕ
  fieldLen : ℕ
  queryStart : ℕ
  xmlSent : Bool
  jsonSent : Bool
  uriRelaxed : Bool
  deriving DecidableEq

structure HttpRequestParser where
  parser : HttpParser
  data : HttpRequest
  error : ℕ
  deriving DecidableEq

namespace HttpRequestParser

/-- `http_parser_init` does not set `query_start` and `uri_relaxed`. -/
def create (queryStart : ℕ) (uriRelaxed : Bool) : HttpRequestParser :=
  ⟨⟨RequestMachine.start, 0, 0, 0, 0, 0, queryStart, false, false, uriRelaxed⟩, .create, 0⟩

section

variable (x : HttpRequestParser)

def onRequestMethod (at_ : List UInt8) : HttpRequestParser :=
  let m := charsToHttpMethod at_
  if m = .invalidMethod then { x with error := 1000 } else { x with data.method := m }

def onRequestVersion (at_ : List UInt8) (length : ℕ) : HttpRequestParser :=
  if strncmpEq at_ "HTTP/1.0" length then { x with data.version := 0x10 }
  else if strncmpEq at_ "HTTP/1.1" length then { x with data.version := 0x11 }
  else { x with error := 1001 }

def onRequestHttpField (field value : List UInt8) : HttpRequestParser :=
  if field.length = 0 then x else { x with data := x.data.setHeader field value }

end

def perform (buffer : List UInt8) (p : ℕ) (a : RequestMachine.Action) (x : HttpRequestParser) :
    Option HttpRequestParser :=
  match a with
  | .mark => some { x with parser.mark := p }
  | .startField => some { x with parser.fieldStart := p }
  | .writeField =>
    if x.parser.fieldStart ≤ p then some { x with parser.fieldLen := p - x.parser.fieldStart }
    else none
  | .startValue => some { x with parser.mark := p }
  | .writeValue =>
    (substr buffer x.parser.mark p).map fun value =>
      x.onRequestHttpField ((buffer.drop x.parser.fieldStart).take x.parser.fieldLen) value
  | .requestMethod => some (x.onRequestMethod (buffer.drop x.parser.mark))
  | .requestUri => some x
  | .fragment => (substr buffer x.parser.mark p).map fun v => { x with data.fragment := v }
  | .startQuery => some { x with parser.queryStart := p }
  | .queryString => (substr buffer x.parser.queryStart p).map fun v => { x with data.query := v }
  | .httpVersion =>
    if x.parser.mark ≤ p then
      some (x.onRequestVersion (buffer.drop x.parser.mark) (p - x.parser.mark))
    else none
  | .requestPath => (substr buffer x.parser.mark p).map fun v => { x with data.path := v }
  | .done =>
    if x.parser.xmlSent || x.parser.jsonSent then
      some { x with
        parser.bodyStart := x.parser.mark
        parser.contentLen := (p : ℤ) - x.parser.mark + 1 }
    else some { x with parser.bodyStart := p + 1 }
  | .xml => some { x with parser.xmlSent := true }
  | .json => some { x with parser.jsonSent := true }

def rewind (x : HttpRequestParser) : HttpRequestParser :=
  { x with parser.mark := 0, parser.fieldLen := 0, parser.fieldStart := 0 }

def Checked (x : HttpRequestParser) (len : ℕ) : Prop :=
  x.parser.bodyStart ≤ len ∧ x.parser.mark < len ∧ x.parser.fieldLen ≤ len ∧
    x.parser.fieldStart < len

instance (x : HttpRequestParser) (len : ℕ) : Decidable (x.Checked len) :=
  inferInstanceAs (Decidable (_ ∧ _ ∧ _ ∧ _))

/-- `HttpRequestParser::execute`: the number of bytes that were parsed. -/
def execute (x : HttpRequestParser) (data : List UInt8) : Option (ℕ × HttpRequestParser) :=
  if data.length = 0 then some (0, x)
  else
    match RequestMachine.table.scan x.parser.uriRelaxed RequestMachine.stops (perform data) data
        x.parser.cs 0 x.rewind with
    | none => none
    | some e =>
      let y := if e.object.parser.cs = 0 then e.object
        else { e.object with parser.cs := e.state }
      if y.Checked data.length then some (e.position, y) else none

def isFinished (x : HttpRequestParser) : Bool := decide (RequestMachine.firstFinal ≤ x.parser.cs)

def hasError (x : HttpRequestParser) : Bool := x.error != 0 || x.parser.cs == 0

def getContentLength (x : HttpRequestParser) : ℕ := x.data.headers.contentLength

end HttpRequestParser

structure HttpclientParser where
  cs : ℕ
  bodyStart : ℕ
  contentLen : ℤ
  status : ℤ
  chunked : Bool
  chunksDone : Bool
  close : Bool
  mark : ℕ
  fieldStart : ℕ
  fieldLen : ℕ
  deriving DecidableEq

/-- `httpclient_parser_init`, which does not set `status`. -/
def HttpclientParser.init (c : HttpclientParser) : HttpclientParser :=
  ⟨ResponseMachine.start, 0, -1, c.status, false, false, false, 0, 0, 0⟩

structure HttpResponseParser where
  parser : HttpclientParser
  data : HttpResponse
  error : ℕ
  deriving DecidableEq

namespace HttpResponseParser

def create (status : ℤ) : HttpResponseParser :=
  ⟨⟨ResponseMachine.start, 0, -1, status, false, false, false, 0, 0, 0⟩, .create, 0⟩

section

variable (x : HttpResponseParser)

def onResponseVersion (at_ : List UInt8) (length : ℕ) : HttpResponseParser :=
  if strncmpEq at_ "HTTP/1.0" length then { x with data.version := 0x10 }
  else if strncmpEq at_ "HTTP/1.1" length then { x with data.version := 0x11 }
  else { x with error := 1001 }

def onResponseHttpField (field value : List UInt8) : HttpResponseParser :=
  if field.length = 0 then x else { x with data := x.data.setHeader field value }

end

def perform (buffer : List UInt8) (p : ℕ) (a : ResponseMachine.Action) (x : HttpResponseParser) :
    Option HttpResponseParser :=
  match a with
  | .mark => some { x with parser.mark := p }
  | .startField => some { x with parser.fieldStart := p }
  | .writeField =>
    if x.parser.fieldStart ≤ p then some { x with parser.fieldLen := p - x.parser.fieldStart }
    else none
  | .startValue => some { x with parser.mark := p }
  | .writeContentLen =>
    some { x with parser.contentLen := strtol 10 (buffer.drop x.parser.mark) }
  | .writeConnectionClose => some { x with parser.close := true }
  | .writeValue =>
    (substr buffer x.parser.mark p).map fun value =>
      x.onResponseHttpField ((buffer.drop x.parser.fieldStart).take x.parser.fieldLen) value
  | .reasonPhrase => (substr buffer x.parser.mark p).map fun v => { x with data.reason := v }
  | .statusCode =>
    some { x with
      parser.status := strtol 10 (buffer.drop x.parser.mark)
      data.status := strtol 10 (buffer.drop x.parser.mark) }
  | .httpVersion =>
    if x.parser.mark ≤ p then
      some (x.onResponseVersion (buffer.drop x.parser.mark) (p - x.parser.mark))
    else none
  | .chunkSize =>
    let size := strtol 16 (buffer.drop x.parser.mark)
    some { x with
      parser.chunked := true
      parser.contentLen := size
      parser.chunksDone := decide (size ≤ 0) }
  | .transChunked => some { x with parser.chunked := true }
  | .done => some { x with parser.bodyStart := p + 1 }

def rewind (x : HttpResponseParser) : HttpResponseParser :=
  { x with parser.mark := 0, parser.fieldLen := 0, parser.fieldStart := 0 }

/-- The assertion and the checks at the end of `httpclient_parser_execute`; without the checks it
returns a count of -1. -/
def Checked (x : HttpResponseParser) (len : ℕ) : Prop :=
  x.parser.bodyStart ≤ len ∧ x.parser.mark < len ∧ x.parser.fieldLen ≤ len ∧
    x.parser.fieldStart < len

instance (x : HttpResponseParser) (len : ℕ) : Decidable (x.Checked len) :=
  inferInstanceAs (Decidable (_ ∧ _ ∧ _ ∧ _))

/-- `HttpResponseParser::execute`; a chunk header is parsed from the start state on. -/
def execute (x : HttpResponseParser) (data : List UInt8) (chunk : Bool) :
    Option (ℕ × HttpResponseParser) :=
  let x := if chunk then { x with parser := x.parser.init } else x
  match ResponseMachine.table.scan false ResponseMachine.stops (perform data) data x.parser.cs 0
      x.rewind with
  | none => none
  | some e =>
    let y := { e.object with parser.cs := e.state }
    if y.Checked data.length then some (e.position, y) else none

def isFinished (x : HttpResponseParser) : Bool := x.parser.cs == ResponseMachine.firstFinal

def hasError (x : HttpResponseParser) : Bool := x.error != 0 || x.parser.cs == 0

def getContentLength (x : HttpResponseParser) : ℕ := x.data.headers.contentLength

end HttpResponseParser
end JKYi.Http
