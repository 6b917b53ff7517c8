import JKYi.Http.HttpParser
import JKYi.Stream.BufferStream

/-!
# Receiving requests and responses

`HttpSession::recvRequest` and `HttpConnection::recvResponse`. The buffer they read into is the
list of the bytes that are taken for read and not yet parsed. Loops that read have a bound on
their rounds that is not reached, since every round takes a byte from the socket or ends.
-/

namespace JKYi.Http

variable {ε : Type}

/-- `read(buffer, length)`: the result and the bytes put into the buffer. -/
def read (length : ℕ) : Run ε Socket (ℤ × List UInt8) :=
  Run.withObject [] (SocketStream.readBuffer length)

def closeNull {α : Type} (owner : Bool) : Run ε Socket (Option α) := do
  SocketStream.close owner
  pure none

def orCrash {α : Type} : Option α → Run ε Socket α
  | none => Run.crash
  | some a => pure a

def toInt64 (n : ℕ) : ℤ := if n < 2 ^ 63 then n else n - 2 ^ 64

structure HeadParser (π : Type) where
  execute : π → List UInt8 → Option (ℕ × π)
  hasError : π → Bool
  isFinished : π → Bool

section

variable {π : Type} (P : HeadParser π) (owner : Bool) (buffSize : ℕ)

/-- `buffSize` is below `2 ^ 31`, so that the casts to `int` keep it. -/
def headLoop : ℕ → π → List UInt8 → Run ε Socket (Option (π × List UInt8))
  | 0, _, _ => Run.crash
  | rounds + 1, x, data => do
    let (len, d) ← read (buffSize - data.length)
    if len ≤ 0 then closeNull owner
    else do
      let data := data ++ d
      let (nparse, x) ← orCrash (P.execute x data)
      if P.hasError x then closeNull owner
      else
        let data := data.drop nparse
        if data.length = buffSize then closeNull owner
        else if P.isFinished x then pure (some (x, data))
        else headLoop rounds x data

def recvHead (x : π) : Run ε Socket (Option (π × List UInt8)) := do
  let s ← Run.get
  headLoop P owner buffSize (s.incoming.length + 1) x []

end

def recvBody (owner : Bool) (length : ℤ) (data : List UInt8) :
    Run ε Socket (Option (List UInt8)) :=
  if length > 0 then
    let copied := if length ≥ data.length then data else data.take length.toNat
    let left := length - copied.length
    if left > 0 then do
      let (rt, d) ← SocketStream.readFixBuffer left.toNat
      if rt ≤ 0 then closeNull owner else pure (some (copied ++ d))
    else pure (some copied)
  else pure (some [])

namespace HttpSession

def headParser : HeadParser HttpRequestParser :=
  ⟨HttpRequestParser.execute, HttpRequestParser.hasError, HttpRequestParser.isFinished⟩

def recvRequest (owner : Bool) (buffSize : ℕ) (x : HttpRequestParser) :
    Run ε Socket (Option HttpRequest) := do
  match ← recvHead headParser owner buffSize x with
  | none => pure none
  | some (x, data) =>
    let length := toInt64 x.getContentLength
    match ← recvBody owner length data with
    | none => pure none
    | some body =>
      let data := if length > 0 then { x.data with body := body } else x.data
      pure (some data.init)

end HttpSession

namespace HttpConnection

def headParser : HeadParser HttpResponseParser :=
  ⟨fun x data => x.execute data false, HttpResponseParser.hasError, HttpResponseParser.isFinished⟩

variable (owner : Bool) (buffSize : ℕ)

def chunkHeadLoop : ℕ → Bool → HttpResponseParser → List UInt8 →
    Run ε Socket (Option (HttpResponseParser × List UInt8))
  | 0, _, _, _ => Run.crash
  | rounds + 1, begin, x, data => do
    let (rt, d) ← if begin = false ∨ data.length = 0 then read (buffSize - data.length)
      else pure (1, [])
    if rt ≤ 0 then closeNull owner
    else do
      let data := data ++ d
      let (nparse, x) ← orCrash (x.execute data true)
      if x.hasError then closeNull owner
      else
        let data := data.drop nparse
        if data.length = buffSize then closeNull owner
        else if x.isFinished then pure (some (x, data))
        else chunkHeadLoop rounds false x data

def recvChunkHead (x : HttpResponseParser) (data : List UInt8) :
    Run ε Socket (Option (HttpResponseParser × List UInt8)) := do
  let s ← Run.get
  chunkHeadLoop owner buffSize (s.incoming.length + 2) true x data

def readLeft : ℕ → ℤ → List UInt8 → Run ε Socket (Option (List UInt8))
  | 0, _, _ => Run.crash
  | rounds + 1, left, body =>
    if left > 0 then do
      let (rt, d) ← read (min left.toNat buffSize)
      if rt ≤ 0 then closeNull owner else readLeft rounds (left - rt) (body ++ d)
    else pure (some body)

def shorten (body : List UInt8) : Option (List UInt8) :=
  if 2 ≤ body.length then some (body.take (body.length - 2)) else none

/-- A chunk in the buffer is moved away with its line end, but `len` is reduced by the length of
the chunk only: the last two bytes that still count are what was there before. -/
def moveChunk (n : ℕ) (data : List UInt8) : List UInt8 :=
  data.drop (n + 2) ++ (data.drop (data.length - n - 2)).take 2

/-- The line end behind a chunk was read with it. -/
def endChunk : Option (List UInt8) → Run ε Socket (Option (List UInt8 × List UInt8))
  | none => pure none
  | some body => do
    let body ← orCrash (shorten body)
    pure (some ([], body))

/-- The data of a chunk of `contentLen` bytes; the sum `contentLen + 2` overflows an `int`, and a
negative length throws. -/
def recvChunk (contentLen : ℤ) (data body : List UInt8) :
    Run ε Socket (Option (List UInt8 × List UInt8)) :=
  if 2 ^ 31 ≤ contentLen + 2 then Run.crash
  else if contentLen + 2 ≤ data.length then
    if contentLen < 0 then Run.crash
    else pure (some (moveChunk contentLen.toNat data, body ++ data.take contentLen.toNat))
  else do
    let s ← Run.get
    endChunk (← readLeft owner buffSize (s.incoming.length + 1) (contentLen - data.length + 2)
      (body ++ data))

def chunkLoop : ℕ → HttpResponseParser → List UInt8 → List UInt8 →
    Run ε Socket (Option (HttpResponseParser × List UInt8))
  | 0, _, _, _ => Run.crash
  | rounds + 1, x, data, body => do
    match ← recvChunkHead owner buffSize x data with
    | none => pure none
    | some (x, data) =>
      match ← recvChunk owner buffSize x.parser.contentLen data body with
      | none => pure none
      | some (data, body) =>
        if x.parser.chunksDone then pure (some (x, body)) else chunkLoop rounds x data body

def recvResponseBody (x : HttpResponseParser) (data : List UInt8) :
    Run ε Socket (Option (HttpResponseParser × List UInt8)) :=
  if x.parser.chunked then do
    let s ← Run.get
    chunkLoop owner buffSize (data.length + s.incoming.length + 1) x data []
  else do
    match ← recvBody owner (toInt64 x.getContentLength) data with
    | none => pure none
    | some body => pure (some (x, body))

def recvResponse (x : HttpResponseParser) : Run ε Socket (Option HttpResponse) := do
  match ← recvHead headParser owner buffSize x with
  | none => pure none
  | some (x, data) =>
    match ← recvResponseBody owner buffSize x data with
    | none => pure none
    | some (x, body) => pure (some (if body = [] then x.data else { x.data with body := body }))

end HttpConnection
end JKYi.Http
