import Mathlib.Data.List.DropRight
import JKYi.Http.HttpMessage
import JKYi.Reactor.Buffer

/-!
# The request parser of the reactor

`HttpContext` takes a request off a buffer line by line. It keeps the request and how
far it is parsed, so that it can go on when more bytes have come.
-/

namespace JKYi.Net

open Http (text isSpace)

/-- How the program ends: a failed assertion or access of a buffer, the assertion in `setMethod`,
or a loop that does not end. -/
inductive Fault where
  | buffer
  | methodSet
  | endless
  deriving DecidableEq

def Fault.ofBuffer {α : Type} (x : Option α) : Except Fault α := x.elim (.error .buffer) .ok

def stringLess : List UInt8 → List UInt8 → Bool
  | _, [] => false
  | [], _ :: _ => true
  | a :: as, b :: bs => if a < b then true else if b < a then false else stringLess as bs

/-- `std::map<std::string, std::string>`, in its order. -/
abbrev StringMap := List (List UInt8 × List UInt8)

namespace StringMap

def set (key value : List UInt8) : StringMap → StringMap
  | [] => [(key, value)]
  | (k, v) :: rest =>
    if stringLess key k then (key, value) :: (k, v) :: rest
    else if stringLess k key then (k, v) :: set key value rest
    else (k, value) :: rest

def get (key : List UInt8) (m : StringMap) : Option (List UInt8) :=
  (m.find? fun p => !stringLess p.1 key && !stringLess key p.1).map (·.2)

end StringMap

namespace HttpRequest

inductive Method where
  | kInvalid
  | kGet
  | kPost
  | kHead
  | kPut
  | kDelete
  deriving DecidableEq

inductive Version where
  | kUnknown
  | kHttp10
  | kHttp11
  deriving DecidableEq

end HttpRequest

open HttpRequest (Method Version)

/-- A request; `receiveTime` in microseconds. -/
structure HttpRequest where
  method : Method
  version : Version
  path : List UInt8
  query : List UInt8
  receiveTime : ℤ
  headers : StringMap
  deriving DecidableEq

namespace HttpRequest

/-- `HttpRequest()`. -/
def create : HttpRequest := ⟨.kInvalid, .kUnknown, [], [], 0, []⟩

def Method.ofString (m : List UInt8) : Method :=
  if m = text "GET" then .kGet
  else if m = text "POST" then .kPost
  else if m = text "HEAD" then .kHead
  else if m = text "PUT" then .kPut
  else if m = text "DELETE" then .kDelete
  else .kInvalid

variable (r : HttpRequest)

def setMethod (m : List UInt8) : Except Fault (Bool × HttpRequest) :=
  if r.method = .kInvalid then
    .ok (Method.ofString m != .kInvalid, { r with method := .ofString m })
  else .error .methodSet

def setVersion (version : Version) : HttpRequest := { r with version := version }

def setPath (path : List UInt8) : HttpRequest := { r with path := path }

def setQuery (query : List UInt8) : HttpRequest := { r with query := query }

def setReceiveTime (t : ℤ) : HttpRequest := { r with receiveTime := t }

def addHeader (field rest : List UInt8) : HttpRequest :=
  { r with headers := r.headers.set field ((rest.dropWhile isSpace).rdropWhile isSpace) }

def getHeader (field : List UInt8) : List UInt8 := (r.headers.get field).getD []

def setTarget (target : List UInt8) : HttpRequest :=
  let question := target.idxOf 63
  if question ≠ target.length then
    (r.setPath (target.take question)).setQuery (target.drop question)
  else r.setPath target

def setVersionText (version : List UInt8) : Bool × HttpRequest :=
  if version.length = 8 ∧ version.take 7 = text "HTTP/1." then
    if version.drop 7 = text "1" then (true, r.setVersion .kHttp11)
    else if version.drop 7 = text "0" then (true, r.setVersion .kHttp10)
    else (false, r)
  else (false, r)

def processTarget (start : List UInt8) : Bool × HttpRequest :=
  let space := start.idxOf 32
  if space ≠ start.length then
    (r.setTarget (start.take space)).setVersionText (start.drop (space + 1))
  else (false, r)

def processRequestLine (line : List UInt8) : Except Fault (Bool × HttpRequest) :=
  let space := line.idxOf 32
  if space ≠ line.length then do
    let (ok, r) ← r.setMethod (line.take space)
    return if ok then r.processTarget (line.drop (space + 1)) else (false, r)
  else return (false, r)

end HttpRequest

namespace HttpContext

inductive HttpRequestParseState where
  | kExceptRequestLine
  | kExceptHeaders
  | kExceptBody
  | kGotAll
  deriving DecidableEq

end HttpContext

structure HttpContext where
  state : HttpContext.HttpRequestParseState
  request : HttpRequest
  deriving DecidableEq

namespace HttpContext

/-- `HttpContext()`, and what `reset()` leaves. -/
def create : HttpContext := ⟨.kExceptRequestLine, .create⟩

def gotAll (c : HttpContext) : Bool := c.state == .kGotAll

/-- The loop of `parseRequest`, `fuel` rounds of it. In `kExceptBody` and `kGotAll` it does not
end. -/
def parseLoop (receiveTime : ℤ) :
    ℕ → HttpContext → Buffer → Except Fault (Bool × HttpContext × Buffer)
  | 0, _, _ => .error .endless
  | fuel + 1, ⟨state, request⟩, buf =>
    match state with
    | .kExceptRequestLine =>
      match buf.findCRLF with
      | none => .ok (true, ⟨state, request⟩, buf)
      | some crlf => do
        let line := buf.contents.take (crlf - buf.readerIndex)
        let (ok, request) ← request.processRequestLine line
        if ok then
          let request := request.setReceiveTime receiveTime
          let buf ← Fault.ofBuffer (buf.retrieveUntil (crlf + 2))
          parseLoop receiveTime fuel ⟨.kExceptHeaders, request⟩ buf
        else return (false, ⟨state, request⟩, buf)
    | .kExceptHeaders =>
      match buf.findCRLF with
      | none => .ok (true, ⟨state, request⟩, buf)
      | some crlf => do
        let line := buf.contents.take (crlf - buf.readerIndex)
        let colon := line.idxOf 58
        let buf ← Fault.ofBuffer (buf.retrieveUntil (crlf + 2))
        if colon ≠ line.length then
          let request := request.addHeader (line.take colon) (line.drop (colon + 1))
          parseLoop receiveTime fuel ⟨state, request⟩ buf
        else return (true, ⟨.kGotAll, request⟩, buf)
    | .kExceptBody => parseLoop receiveTime fuel ⟨state, request⟩ buf
    | .kGotAll => parseLoop receiveTime fuel ⟨state, request⟩ buf

def parseRequest (c : HttpContext) (buf : Buffer) (receiveTime : ℤ) :
    Except Fault (Bool × HttpContext × Buffer) :=
  parseLoop receiveTime (buf.readableBytes + 1) c buf

/-- What the calls of `parseRequest` on a request come to. -/
inductive Verdict where
  | rejected
  | gotAll
  | incomplete
  deriving DecidableEq

/-- Segments are appended one by one, and `parseRequest` is called after each until it returns
`false` or has a request: the request, and the bytes that are in the buffer then or have not been
appended. -/
def parseSegments : List (List UInt8 × ℤ) → HttpContext → Buffer →
    Except Fault (Verdict × HttpRequest × List UInt8)
  | [], c, buf => .ok (.incomplete, c.request, buf.contents)
  | (segment, receiveTime) :: segments, c, buf => do
    let buf ← Fault.ofBuffer (buf.append segment)
    let (ok, c, buf) ← c.parseRequest buf receiveTime
    let left := buf.contents ++ (segments.map (·.1)).flatten
    if !ok then return (.rejected, c.request, left)
    else if c.gotAll then return (.gotAll, c.request, left)
    else parseSegments segments c buf

end HttpContext
end JKYi.Net
