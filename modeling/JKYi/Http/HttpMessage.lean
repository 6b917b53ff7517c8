import JKYi.Foundation.Bytes

/-!
# Requests and responses

`HttpRequest` and `HttpResponse`, as far as receiving one fills them in, and the functions of the
C library that it uses. Strings are lists of bytes.
-/

namespace JKYi.Http

/-- The bytes of a literal. -/
def text (s : String) : List UInt8 := s.toList.map fun c => UInt8.ofNat c.toNat

def cStr (s : List UInt8) : List UInt8 := s.takeWhile (· != 0)

def strncmpEq (a : List UInt8) (s : String) (n : ℕ) : Bool :=
  (cStr a ++ [0]).take n == (text s ++ [0]).take n

theorem cStr_take (a : List UInt8) (n : ℕ) :
    (cStr a ++ [0]).take n = (cStr (a.take n) ++ [0]).take n := by
  induction a generalizing n with
  | nil => rw [List.take_nil]
  | cons c a ih =>
    cases n with
    | zero => rfl
    | succ n =>
      by_cases hc : c = 0
      · simp [cStr, hc]
      · simpa [cStr, hc] using ih n

theorem strncmpEq_take {a b : List UInt8} {n : ℕ} (h : a.take n = b.take n) (s : String) :
    strncmpEq a s n = strncmpEq b s n := by
  rw [strncmpEq, strncmpEq, cStr_take a, cStr_take b, h]

def lower (c : UInt8) : UInt8 := if 65 ≤ c ∧ c ≤ 90 then c + 32 else c

def caseLess : List UInt8 → List UInt8 → Bool
  | _, [] => false
  | [], _ :: _ => true
  | a :: as, b :: bs =>
    if lower a < lower b then true else if lower b < lower a then false else caseLess as bs

def digitValue (c : UInt8) : ℕ :=
  if 48 ≤ c ∧ c ≤ 57 then c.toNat - 48
  else if 65 ≤ c ∧ c ≤ 90 then c.toNat - 55
  else if 97 ≤ c ∧ c ≤ 122 then c.toNat - 87
  else 36

/-- The value of the digits at the start of `s`. -/
def digitsValue (base : ℕ) (s : List UInt8) : ℕ :=
  (s.takeWhile fun c => digitValue c < base).foldl (fun n c => n * base + digitValue c) 0

def isSpace (c : UInt8) : Bool := c == 32 || (9 ≤ c && c ≤ 13)

/-- `(int)strtol(s, NULL, base)`, also `atoi(s)`; a text that starts with `0x` does not occur. -/
def strtol (base : ℕ) (s : List UInt8) : ℤ :=
  match s.dropWhile isSpace with
  | 43 :: s => intOfSize (min (digitsValue base s) (2 ^ 63 - 1))
  | 45 :: s => (-(min (digitsValue base s) (2 ^ 63) : ℕ) : ℤ).bmod (2 ^ 32)
  | s => intOfSize (min (digitsValue base s) (2 ^ 63 - 1))

def lexicalCast (s : List UInt8) : Option ℕ :=
  let digits := fun s : List UInt8 =>
    if s ≠ [] ∧ s.all (fun c => 48 ≤ c && c ≤ 57) ∧ digitsValue 10 s < 2 ^ 64 then
      some (digitsValue 10 s)
    else none
  match s with
  | 43 :: s => digits s
  | 45 :: s => (digits s).map fun n => (2 ^ 64 - n) % 2 ^ 64
  | s => digits s

/-! Headers: `std::map` with `CaseInsensitiveLess`, in its order. -/

abbrev Headers := List (List UInt8 × List UInt8)

namespace Headers

def set (key value : List UInt8) : Headers → Headers
  | [] => [(key, value)]
  | (k, v) :: rest =>
    if caseLess (cStr key) (cStr k) then (key, value) :: (k, v) :: rest
    else if caseLess (cStr k) (cStr key) then (k, v) :: set key value rest
    else (k, value) :: rest

def get (key : List UInt8) (h : Headers) : Option (List UInt8) :=
  (h.find? fun p => !caseLess (cStr p.1) (cStr key) && !caseLess (cStr key) (cStr p.1)).map (·.2)

def contentLength (h : Headers) : ℕ :=
  ((h.get (text "content-length")).bind lexicalCast).getD 0

end Headers

inductive HttpMethod where
  | delete
  | get
  | head
  | post
  | put
  | connect
  | options
  | trace
  | copy
  | lock
  | mkcol
  | move
  | propfind
  | proppatch
  | search
  | unlock
  | bind
  | rebind
  | unbind
  | acl
  | report
  | mkactivity
  | checkout
  | merge
  | msearch
  | notify
  | subscribe
  | unsubscribe
  | patch
  | purge
  | mkcalendar
  | link
  | unlink
  | source
  | invalidMethod
  deriving DecidableEq, Repr

def httpMethodMap : List (HttpMethod × String) :=
  [(.delete, "DELETE"), (.get, "GET"), (.head, "HEAD"), (.post, "POST"), (.put, "PUT"),
    (.connect, "CONNECT"), (.options, "OPTIONS"), (.trace, "TRACE"), (.copy, "COPY"),
    (.lock, "LOCK"), (.mkcol, "MKCOL"), (.move, "MOVE"), (.propfind, "PROPFIND"),
    (.proppatch, "PROPPATCH"), (.search, "SEARCH"), (.unlock, "UNLOCK"), (.bind, "BIND"),
    (.rebind, "REBIND"), (.unbind, "UNBIND"), (.acl, "ACL"), (.report, "REPORT"),
    (.mkactivity, "MKACTIVITY"), (.checkout, "CHECKOUT"), (.merge, "MERGE"),
    (.msearch, "M-SEARCH"), (.notify, "NOTIFY"), (.subscribe, "SUBSCRIBE"),
    (.unsubscribe, "UNSUBSCRIBE"), (.patch, "PATCH"), (.purge, "PURGE"),
    (.mkcalendar, "MKCALENDAR"), (.link, "LINK"), (.unlink, "UNLINK"), (.source, "SOURCE")]

def charsToHttpMethod (s : List UInt8) : HttpMethod :=
  match httpMethodMap.find? fun m => (text m.2).isPrefixOf s with
  | some m => m.1
  | none => .invalidMethod

structure HttpRequest where
  method : HttpMethod
  version : ℕ
  close : Bool
  path : List UInt8
  query : List UInt8
  fragment : List UInt8
  body : List UInt8
  headers : Headers
  deriving DecidableEq

namespace HttpRequest

def create : HttpRequest := ⟨.get, 0x11, true, text "/", [], [], [], []⟩

def setHeader (r : HttpRequest) (key value : List UInt8) : HttpRequest :=
  { r with headers := r.headers.set key value }

def init (r : HttpRequest) : HttpRequest :=
  match r.headers.get (text "connection") with
  | none => r
  | some conn =>
    if conn = [] then r
    else { r with
      close := caseLess (cStr conn) (text "keep-alive") ||
        caseLess (text "keep-alive") (cStr conn) }

end HttpRequest

structure HttpResponse where
  status : ℤ
  version : ℕ
  reason : List UInt8
  body : List UInt8
  headers : Headers
  deriving DecidableEq

namespace HttpResponse

def create : HttpResponse := ⟨200, 0x11, [], [], []⟩

def setHeader (r : HttpResponse) (key value : List UInt8) : HttpResponse :=
  { r with headers := r.headers.set key value }

end HttpResponse
end JKYi.Http
