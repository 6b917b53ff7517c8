import JKYi.Foundation.Lines
import JKYi.Http.HttpMessage

/-!
# Messages as they are sent

`dump` writes the headers of the map and then a length of its own. The text is read as a peer
reads it: lines up to an empty one, and the body behind it.
-/

namespace JKYi.Http

open List

def httpStatusMap : List (ℤ × String) :=
  [(100, "Continue"), (101, "Switching Protocols"), (102, "Processing"), (200, "OK"),
    (201, "Created"), (202, "Accepted"), (203, "Non-Authoritative Information"),
    (204, "No Content"), (205, "Reset Content"), (206, "Partial Content"), (207, "Multi-Status"),
    (208, "Already Reported"), (226, "IM Used"), (300, "Multiple Choices"),
    (301, "Moved Permanently"), (302, "Found"), (303, "See Other"), (304, "Not Modified"),
    (305, "Use Proxy"), (307, "Temporary Redirect"), (308, "Permanent Redirect"),
    (400, "Bad Request"), (401, "Unauthorized"), (402, "Payment Required"), (403, "Forbidden"),
    (404, "Not Found"), (405, "Method Not Allowed"), (406, "Not Acceptable"),
    (407, "Proxy Authentication Required"), (408, "Request Timeout"), (409, "Conflict"),
    (410, "Gone"), (411, "Length Required"), (412, "Precondition Failed"),
    (413, "Payload Too Large"), (414, "URI Too Long"), (415, "Unsupported Media Type"),
    (416, "Range Not Satisfiable"), (417, "Expectation Failed"), (421, "Misdirected Request"),
    (422, "Unprocessable Entity"), (423, "Locked"), (424, "Failed Dependency"),
    (426, "Upgrade Required"), (428, "Precondition Required"), (429, "Too Many Requests"),
    (431, "Request Header Fields Too Large"), (451, "Unavailable For Legal Reasons"),
    (500, "Internal Server Error"), (501, "Not Implemented"), (502, "Bad Gateway"),
    (503, "Service Unavailable"), (504, "Gateway Timeout"), (505, "HTTP Version Not Supported"),
    (506, "Variant Also Negotiates"), (507, "Insufficient Storage"), (508, "Loop Detected"),
    (510, "Not Extended"), (511, "Network Authentication Required")]
def httpStatusToString (s : ℤ) : List UInt8 :=
  text (((httpStatusMap.find? fun x => x.1 = s).map (·.2)).getD "<unknow>")

def httpMethodToString (m : HttpMethod) : List UInt8 :=
  text (((httpMethodMap.find? fun x => x.1 = m).map (·.2)).getD "<unknow>")

def isWritten (websocket : Bool) (i : List UInt8 × List UInt8) : Bool :=
  websocket || caseLess (cStr i.1) (text "connection") || caseLess (text "connection") (cStr i.1)

def headerLine (i : List UInt8 × List UInt8) : List UInt8 := i.1 ++ text ": " ++ i.2

def fieldLines (websocket close : Bool) (headers : Headers) (cookies : List (List UInt8))
    (body : List UInt8) : List (List UInt8) :=
  (if websocket then []
    else [text "connection: " ++ text (if close then "close" else "keep-alive")]) ++
  (headers.filter (isWritten websocket)).map headerLine ++
  cookies.map (text "Set-Cookie: " ++ ·) ++
  if body = [] then [] else [text "content-length: " ++ decimal body.length]

def versionText (version : ℕ) : List UInt8 :=
  text "HTTP/" ++ decimal (version / 16) ++ text "." ++ decimal (version % 16)

namespace HttpRequest

variable (r : HttpRequest)

def requestLine : List UInt8 :=
  httpMethodToString r.method ++ text " " ++ r.path ++ (if r.query = [] then [] else text "?") ++
    r.query ++ (if r.fragment = [] then [] else text "#") ++ r.fragment ++ text " " ++
    versionText r.version

def dump (websocket : Bool) : List UInt8 :=
  let fields := fieldLines websocket r.close r.headers [] r.body
  joinLines 13 10 (r.requestLine :: fields ++ [[]]) ++ r.body

end HttpRequest

namespace HttpResponse

variable (r : HttpResponse)

def statusLine : List UInt8 :=
  versionText r.version ++ text " " ++ decimal (r.status % 2 ^ 32).toNat ++ text " " ++
    if r.reason = [] then httpStatusToString r.status else r.reason

/-- The fields that a received response does not have are arguments. -/
def dump (websocket close : Bool) (cookies : List (List UInt8)) : List UInt8 :=
  let fields := fieldLines websocket close r.headers cookies r.body
  joinLines 13 10 (r.statusLine :: fields ++ [[]]) ++ r.body

end HttpResponse

def isLength (line : List UInt8) : Bool :=
  (line.takeWhile (· != 58)).map lower == text "content-length"

/-- The value is `n` in decimal, with blanks around it or zeros in front. -/
def Announces (n : ℕ) (line : List UInt8) : Prop :=
  ∃ blanks zeros blanks', line.dropWhile (· != 58) =
      58 :: (blanks ++ zeros ++ decimal n ++ blanks') ∧
    (∀ c ∈ blanks ++ blanks', c = 32 ∨ c = 9) ∧ ∀ c ∈ zeros, c = 48

/-- At most one header line is a length, it is that of the body, and there is one if the body is
not empty. -/
def FramesBody (message : List UInt8) : Prop :=
  ∃ first fields body lengths, cutHead 13 10 message = some (first :: fields, body) ∧
    lengths = fields.filter isLength ∧ lengths.length ≤ 1 ∧
    (∀ line ∈ lengths, Announces body.length line) ∧ (body ≠ [] → lengths ≠ [])

def lengthHeaders (websocket : Bool) (headers : Headers) : List (List UInt8) :=
  ((headers.filter (isWritten websocket)).map headerLine).filter isLength

/-- There is none, or one, which says that there is no body, and there is none. -/
def LengthLeft (websocket : Bool) (headers : Headers) (body : List UInt8) : Prop :=
  lengthHeaders websocket headers = [] ∨
    body = [] ∧ ∃ line, lengthHeaders websocket headers = [line] ∧ Announces 0 line

def Headers.Clean (headers : Headers) : Prop := ∀ i ∈ headers, 10 ∉ i.1 ∧ 10 ∉ i.2

variable {websocket close : Bool} {headers : Headers} {cookies : List (List UInt8)}
  {first body : List UInt8}

theorem filter_fieldLines (websocket close : Bool) (headers : Headers)
    (cookies : List (List UInt8)) (body : List UInt8) :
    (fieldLines websocket close headers cookies body).filter isLength =
      lengthHeaders websocket headers ++
        if body = [] then [] else [text "content-length: " ++ decimal body.length] := by
  have hconnection : isLength (text "connection: " ++
      text (if close then "close" else "keep-alive")) = false := by cases close <;> rfl
  have hcookies : (cookies.map (text "Set-Cookie: " ++ ·)).filter isLength = [] := by
    refine filter_eq_nil_iff.2 fun line hline => ?_
    obtain ⟨cookie, -, rfl⟩ := mem_map.1 hline
    exact Bool.false_ne_true
  have hlength (n : ℕ) : isLength (text "content-length: " ++ decimal n) = true := rfl
  rw [fieldLines, filter_append, filter_append, filter_append, hcookies, append_nil,
    ← lengthHeaders]
  cases websocket <;> by_cases hbody : body = [] <;> simp [hconnection, hlength, hbody]

theorem announces_decimal (n : ℕ) : Announces n (text "content-length: " ++ decimal n) :=
  ⟨[32], [], [], by rw [append_nil, append_nil]; rfl, by simp, by simp⟩

theorem fieldLines_ok (websocket close : Bool) (body : List UInt8) (hheaders : headers.Clean)
    (hcookies : ∀ c ∈ cookies, 10 ∉ c) :
    ∀ line ∈ fieldLines websocket close headers cookies body, 10 ∉ line ∧ line ≠ [] := by
  have hcolon : 10 ∉ text ": " := by decide
  have hcookie : 10 ∉ text "Set-Cookie: " := by decide
  have hlength : 10 ∉ text "content-length: " := by decide
  have hdigits := linefeed_not_mem_decimal body.length
  refine forall_mem_append.2 ⟨forall_mem_append.2 ⟨forall_mem_append.2 ⟨?_, ?_⟩, ?_⟩, ?_⟩
  · cases websocket <;> cases close <;> decide
  · refine forall_mem_map.2 fun i hi => ⟨?_, by simp [headerLine, text]⟩
    simp [headerLine, hcolon, hheaders i (mem_filter.1 hi).1]
  · exact forall_mem_map.2 fun c hc => ⟨by simp [hcookie, hcookies c hc], cons_ne_nil _ _⟩
  · split_ifs
    · exact forall_mem_nil _
    · exact forall_mem_singleton.2 ⟨by simp [hlength, hdigits], cons_ne_nil _ _⟩

theorem framesBody_iff (hfirst : 10 ∉ first) (hne : first ≠ []) (hheaders : headers.Clean)
    (hcookies : ∀ c ∈ cookies, 10 ∉ c) :
    FramesBody (joinLines 13 10
      (first :: fieldLines websocket close headers cookies body ++ [[]]) ++ body) ↔
      LengthLeft websocket headers body := by
  have hok := fieldLines_ok websocket close body hheaders hcookies
  have hfilter := filter_fieldLines websocket close headers cookies body
  generalize fieldLines websocket close headers cookies body = fields at hok hfilter ⊢
  have hcut : cutHead 13 10 (joinLines 13 10 (first :: fields ++ [[]]) ++ body) =
      some (first :: fields, body) := by
    refine cutHead_eq_some_iff.2 ⟨fun line hline => ?_, rfl⟩
    obtain ⟨hlf, hne⟩ := forall_mem_cons.2 ⟨⟨hfirst, hne⟩, hok⟩ line hline
    exact ⟨unbroken_of_not_mem hlf (by decide), hne⟩
  rw [LengthLeft]
  generalize lengthHeaders websocket headers = lengths at hfilter ⊢
  constructor
  · rintro ⟨first', fields, body', _, hcut', rfl, hone, hall, -⟩
    cases hcut.symm.trans hcut'
    rw [hfilter] at hone hall
    by_cases hbody : body = []
    · subst hbody
      rcases lengths with - | ⟨line, - | ⟨line', rest⟩⟩
      · exact .inl rfl
      · exact .inr ⟨rfl, line, rfl, by simpa using hall⟩
      · simp at hone
    · exact .inl (by simpa [hbody] using hone)
  · intro hleft
    refine ⟨first, fields, body, _, hcut, rfl, ?_⟩
    rw [hfilter]
    rcases hleft with hnone | ⟨rfl, line, hline, hzero⟩
    · have hown := announces_decimal body.length
      rw [hnone]
      split_ifs with hbody <;> simp [hbody, hown]
    · simp [hline, hzero]

/-- The text has at most one length, which is right, and one if there is a body, exactly if the
headers of the map have none, or have one and say that there is no body. -/
theorem dump_framesBody_iff (q : HttpRequest) (r : HttpResponse) (websocket close : Bool)
    (cookies : List (List UInt8)) (hq : 10 ∉ q.requestLine ∧ q.headers.Clean)
    (hr : 10 ∉ r.statusLine ∧ r.headers.Clean) (hc : ∀ c ∈ cookies, 10 ∉ c) :
    (FramesBody (q.dump websocket) ↔ LengthLeft websocket q.headers q.body) ∧
      (FramesBody (r.dump websocket close cookies) ↔ LengthLeft websocket r.headers r.body) :=
  ⟨framesBody_iff hq.1 (by simp [HttpRequest.requestLine, text]) hq.2 (forall_mem_nil _),
    framesBody_iff hr.1 (by simp [HttpResponse.statusLine, text]) hr.2 hc⟩

theorem dump_framesBody_iff_hosted :
    FramesBody ({ HttpRequest.create with
      body := text "ab", headers := [(text "Host", text "x"), (text "Connection", text "close")]
      }.dump false) ∧
    FramesBody ({ HttpResponse.create with
      body := text "<p>", headers := [(text "Server", text "JKYi")] }.dump false true
        [text "id=1"]) :=
  have h := dump_framesBody_iff
    { HttpRequest.create with
      body := text "ab", headers := [(text "Host", text "x"), (text "Connection", text "close")] }
    { HttpResponse.create with body := text "<p>", headers := [(text "Server", text "JKYi")] }
    false true [text "id=1"] ⟨by decide, by simp [Headers.Clean, text]⟩
    ⟨by decide, by simp [Headers.Clean, text]⟩ (by decide)
  ⟨h.1.2 (.inl (by decide)), h.2.2 (.inl (by decide))⟩

/-- A length that has come with a received message is written in front of that of the body, and
also where there is no body. -/
theorem length_written_twice :
    ¬ FramesBody ({ HttpRequest.create with
      body := text "ab", headers := [(text "Content-Length", text "9")] }.dump false) ∧
    ¬ FramesBody ({ HttpResponse.create with
      headers := [(text "Content-Length", text "9")] }.dump false true []) := by
  have hclean : Headers.Clean [(text "Content-Length", text "9")] :=
    forall_mem_singleton.2 ⟨by decide, by decide⟩
  constructor
  · intro h
    rcases (framesBody_iff (by decide) (by decide) hclean (forall_mem_nil _)).1 h with h | h
    · exact absurd h (by decide)
    · exact absurd h.1 (by decide)
  · intro h
    rcases (framesBody_iff (by decide) (by decide) hclean (forall_mem_nil _)).1 h with h | h
    · exact absurd h (by decide)
    · obtain ⟨-, line, hline, blanks, zeros, blanks', hvalue, -⟩ := h
      cases hline
      have hzero : (48 : UInt8) ∈ blanks ++ zeros ++ decimal 0 ++ blanks' := by simp [decimal]
      have hmem := mem_cons_of_mem 58 hzero
      rw [← hvalue] at hmem
      exact absurd hmem (by decide)

end JKYi.Http
