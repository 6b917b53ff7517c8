import JKYi.Reactor.HttpContext

/-!
# Responses of the reactor

`appendToBuffer` writes the status line, the headers and the body. Every piece passes
through a `StringPiece`, whose length is an `int`, and numbers through an array of 32
characters.
-/

namespace JKYi.Net

open Buffer List

open Http (text)

def Buffer.appendPiece (s : List UInt8) (b : Buffer) : Option Buffer := do
  Buffer.assert (0 ≤ intOfSize s.length)
  b.append (s.take (intOfSize s.length).toNat)

def snprintf (s : List UInt8) : List UInt8 := s.take 31

namespace HttpResponse

inductive HttpStatusCode where
  | kUnknown
  | k200Ok
  | k301MovedPermanently
  | k400BadRequest
  | k404NotFound
  deriving DecidableEq

def HttpStatusCode.value : HttpStatusCode → ℕ
  | .kUnknown => 0
  | .k200Ok => 200
  | .k301MovedPermanently => 301
  | .k400BadRequest => 400
  | .k404NotFound => 404

end HttpResponse

open HttpResponse (HttpStatusCode)

structure HttpResponse where
  statusCode : HttpStatusCode
  statusMessage : List UInt8
  headers : StringMap
  body : List UInt8
  closeConnection : Bool
  deriving DecidableEq

namespace HttpResponse

/-- `HttpResponse(close)`. -/
def create (close : Bool) : HttpResponse := ⟨.kUnknown, [], [], [], close⟩

def appendHeader (output : Buffer) (header : List UInt8 × List UInt8) : Option Buffer := do
  let output ← output.appendPiece header.1
  let output ← output.appendPiece (text ": ")
  let output ← output.appendPiece header.2
  output.appendPiece (text "\r\n")

variable (rsp : HttpResponse)

def appendToBuffer (output : Buffer) : Option Buffer := do
  let buf := snprintf (text "HTTP/1.1 " ++ decimal rsp.statusCode.value ++ text " ")
  let output ← output.appendPiece buf
  let output ← output.appendPiece rsp.statusMessage
  let output ← output.appendPiece (text "\r\n")
  let output ← if rsp.closeConnection then
      output.appendPiece (text "Connection: close\r\x08")
    else do
      let buf := snprintf (text "Content-Length: " ++ decimal rsp.body.length ++ text "\r\n")
      let output ← output.appendPiece buf
      output.appendPiece (text "Connection: Keep-Alive\r\n")
  let output ← rsp.headers.foldlM appendHeader output
  let output ← output.appendPiece (text "\r\n")
  output.appendPiece rsp.body

/-- What `appendToBuffer` leaves in a new buffer. -/
def output : Option (List UInt8) := do
  let buf ← Buffer.create kInitialSize
  let buf ← rsp.appendToBuffer buf
  return buf.contents

def statusLine : List UInt8 :=
  text "HTTP/1.1 " ++ decimal rsp.statusCode.value ++ text " " ++ rsp.statusMessage

def settings : List (List UInt8) :=
  if rsp.closeConnection then [text "Connection: close"]
  else [text "Content-Length: " ++ decimal rsp.body.length, text "Connection: Keep-Alive"]

def headerLine (header : List UInt8 × List UInt8) : List UInt8 :=
  header.1 ++ text ": " ++ header.2

def head : List (List UInt8) := rsp.statusLine :: (rsp.settings ++ rsp.headers.map headerLine)

/-- The output falls into the lines of the head and the body. -/
def SplitsInto : Prop := ∃ w, rsp.output = some w ∧ cutHead 13 10 w = some (rsp.head, rsp.body)

/-- The strings that the user has set. -/
def strings : List (List UInt8) :=
  rsp.statusMessage :: rsp.body :: rsp.headers.flatMap fun header => [header.1, header.2]

/-- No CR and no LF in the message and in the headers. -/
def Clean : Prop :=
  (13 ∉ rsp.statusMessage ∧ 10 ∉ rsp.statusMessage) ∧
    ∀ header ∈ rsp.headers, (13 ∉ header.1 ∧ 10 ∉ header.1) ∧ 13 ∉ header.2 ∧ 10 ∉ header.2

/-! What is written, piece by piece. -/

section

def covered (s : List UInt8) : List UInt8 := s.take (intOfSize s.length).toNat

def appendPieces (pieces : List (List UInt8)) (b : Buffer) : Option Buffer :=
  pieces.foldlM (fun b s => b.appendPiece s) b

def statusText : List UInt8 :=
  snprintf (text "HTTP/1.1 " ++ decimal rsp.statusCode.value ++ text " ")

def settingPieces : List (List UInt8) :=
  if rsp.closeConnection then [text "Connection: close\r\x08"]
  else [snprintf (text "Content-Length: " ++ decimal rsp.body.length ++ text "\r\n"),
    text "Connection: Keep-Alive\r\n"]

def headerPieces (header : List UInt8 × List UInt8) : List (List UInt8) :=
  [header.1, text ": ", header.2, text "\r\n"]

def pieces : List (List UInt8) :=
  rsp.statusText :: rsp.statusMessage :: text "\r\n" ::
    (rsp.settingPieces ++ (rsp.headers.flatMap headerPieces ++ [text "\r\n", rsp.body]))

variable {rsp} {b b' : Buffer} {ps qs : List (List UInt8)}

@[simp] theorem bind_appendPieces_nil (x : Option Buffer) : x.bind (appendPieces []) = x := by
  cases x <;> rfl

@[simp] theorem appendPieces_cons (s : List UInt8) :
    appendPieces (s :: ps) b = (b.appendPiece s).bind (appendPieces ps) :=
  foldlM_cons

theorem appendPieces_append :
    appendPieces (ps ++ qs) b = (appendPieces ps b).bind (appendPieces qs) :=
  foldlM_append

theorem appendHeaders_eq (headers : StringMap) :
    headers.foldlM appendHeader b = appendPieces (headers.flatMap headerPieces) b := by
  induction headers generalizing b with
  | nil => rfl
  | cons header headers ih =>
    have hheader : appendHeader b header = appendPieces (headerPieces header) b := by
      simp [appendHeader, headerPieces]
    rw [foldlM_cons, flatMap_cons, appendPieces_append, hheader]
    exact congrArg _ (funext fun _ => ih)

theorem appendToBuffer_eq (rsp : HttpResponse) (b : Buffer) :
    rsp.appendToBuffer b = appendPieces rsp.pieces b := by
  simp only [appendToBuffer, pieces, settingPieces, statusText, appendHeaders_eq]
  cases rsp.closeConnection with
  | false | true => simp [appendPieces_append]

theorem appendPiece_spec {s : List UInt8} (h : b.Wf) (hs : 0 ≤ intOfSize s.length) :
    ∃ b', b.appendPiece s = some b' ∧ Buffer.Becomes b b' (b.contents ++ covered s) := by
  obtain ⟨b', hb', hspec⟩ := append_spec h (covered s)
  refine ⟨b', ?_, hspec⟩
  rw [appendPiece, assert_pos hs, Option.bind_eq_bind, Option.bind_some, ← covered, hb']

theorem appendPieces_eq_some_iff {w : List UInt8} (h : b.Wf) :
    (appendPieces ps b).map Buffer.contents = some w ↔
      (∀ s ∈ ps, 0 ≤ intOfSize s.length) ∧ w = b.contents ++ (ps.map covered).flatten := by
  induction ps generalizing b with
  | nil => simp [appendPieces, eq_comm]
  | cons s ps ih =>
    rw [appendPieces_cons, forall_mem_cons]
    by_cases hs : 0 ≤ intOfSize s.length
    · obtain ⟨b₁, h₁, hspec⟩ := appendPiece_spec h hs
      rw [h₁, Option.bind_some, and_iff_right hs, ih hspec.wf, hspec.contents_eq, map_cons,
        flatten_cons, append_assoc]
    · have hnone : b.appendPiece s = none := by
        rw [appendPiece, Buffer.assert, if_neg hs]
        rfl
      rw [hnone]
      exact iff_of_false (by simp) fun hall => hs hall.1.1

theorem output_eq_some_iff {w : List UInt8} : rsp.output = some w ↔
    (∀ s ∈ rsp.pieces, 0 ≤ intOfSize s.length) ∧ w = (rsp.pieces.map covered).flatten := by
  obtain ⟨b, hb, hwf, hempty, -⟩ := create_spec kInitialSize
  have hout : rsp.output = (appendPieces rsp.pieces b).map Buffer.contents := by
    rw [output, hb, Option.bind_eq_bind, Option.bind_some, appendToBuffer_eq, Option.map_eq_bind]
    rfl
  rw [hout, appendPieces_eq_some_iff hwf, hempty, nil_append]

end

section

variable {s : List UInt8} {ps : List (List UInt8)}

theorem covered_eq (h : s.length < 2 ^ 31) : covered s = s := by
  rw [covered, intOfSize_eq h, Int.toNat_natCast, take_length]

theorem length_covered_le (s : List UInt8) : (covered s).length ≤ s.length :=
  length_take_le' ..

theorem lt_of_length_covered (h : s.length ≤ (covered s).length) : s.length < 2 ^ 31 := by
  have hlt := intOfSize_lt s.length
  rw [covered, length_take] at h
  omega

theorem map_covered (h : ∀ s ∈ ps, s.length < 2 ^ 31) : ps.map covered = ps := by
  rw [map_congr_left fun s hs => covered_eq (h s hs), map_id']

theorem lt_of_length_flatten (h : ps.flatten.length ≤ (ps.map covered).flatten.length) :
    ∀ s ∈ ps, s.length < 2 ^ 31 := by
  have hle (ps : List (List UInt8)) : (ps.map covered).flatten.length ≤ ps.flatten.length := by
    induction ps with
    | nil => exact le_rfl
    | cons s ps ih =>
      have := length_covered_le s
      rw [map_cons, flatten_cons, flatten_cons, length_append, length_append]
      omega
  induction ps with
  | nil => exact fun s hs => absurd hs not_mem_nil
  | cons s ps ih =>
    rw [map_cons, flatten_cons, flatten_cons, length_append, length_append] at h
    have hs := length_covered_le s
    have hps := hle ps
    exact forall_mem_cons.mpr ⟨lt_of_length_covered (by omega), ih (by omega)⟩

end

section

theorem length_decimal_le {n : ℕ} (h : n < 10 ^ 13) : (decimal n).length ≤ 13 := by
  rw [decimal, length_map]
  exact (Nat.length_toDigits_le_iff (by decide) (by decide)).mpr h

variable {rsp : HttpResponse}

theorem statusText_eq : rsp.statusText =
    text "HTTP/1.1 " ++ decimal rsp.statusCode.value ++ text " " := by
  unfold statusText
  cases rsp.statusCode <;> rfl

theorem flatten_headerPieces (headers : StringMap) :
    (headers.flatMap headerPieces).flatten = joinLines 13 10 (headers.map headerLine) := by
  have hcrlf : text "\r\n" = [13, 10] := rfl
  induction headers with
  | nil => rfl
  | cons header headers ih =>
    rw [flatMap_cons, flatten_append, ih, map_cons, joinLines_cons]
    simp [headerPieces, headerLine, hcrlf]

theorem joinLines_head (rsp : HttpResponse) :
    joinLines 13 10 (rsp.head ++ [[]]) ++ rsp.body =
      rsp.statusText ++ (rsp.statusMessage ++ 13 :: 10 :: (joinLines 13 10 rsp.settings ++
        (joinLines 13 10 (rsp.headers.map headerLine) ++ 13 :: 10 :: rsp.body))) := by
  simp [head, statusLine, statusText_eq]

theorem flatten_pieces (rsp : HttpResponse) :
    rsp.pieces.flatten =
      rsp.statusText ++ (rsp.statusMessage ++ 13 :: 10 :: (rsp.settingPieces.flatten ++
        (joinLines 13 10 (rsp.headers.map headerLine) ++ 13 :: 10 :: rsp.body))) := by
  have hcrlf : text "\r\n" = [13, 10] := rfl
  simp [pieces, flatten_headerPieces, hcrlf]

theorem settingPieces_eq (h : rsp.closeConnection = false) (hbody : rsp.body.length < 10 ^ 13) :
    rsp.settingPieces.flatten = joinLines 13 10 rsp.settings := by
  have hdigits := length_decimal_le hbody
  have hfits : (text "Content-Length: " ++ decimal rsp.body.length ++ text "\r\n").length ≤ 31 := by
    rw [length_append, length_append]
    change 16 + _ + 2 ≤ 31
    omega
  rw [settingPieces, settings, h, if_neg Bool.false_ne_true, if_neg Bool.false_ne_true, snprintf,
    take_of_length_le hfits]
  simp
  rfl

theorem length_settingPieces_le (h : rsp.closeConnection = false) :
    rsp.settingPieces.flatten.length ≤ (joinLines 13 10 rsp.settings).length := by
  rw [settingPieces, settings, h, if_neg Bool.false_ne_true, if_neg Bool.false_ne_true]
  have htake : (snprintf (text "Content-Length: " ++ decimal rsp.body.length ++
      text "\r\n")).length ≤ _ := length_take_le' ..
  have hcrlf : (text "\r\n").length = 2 := rfl
  have hkeep : (text "Connection: Keep-Alive\r\n").length =
    (text "Connection: Keep-Alive").length + 2 := rfl
  simp only [flatten_cons, flatten_nil, length_append, joinLines_cons,
    joinLines_nil, length_cons, length_nil] at htake ⊢
  omega

theorem linefeed_not_mem_head (h : rsp.Clean) : ∀ line ∈ rsp.head, 10 ∉ line := by
  obtain ⟨⟨-, hmessage⟩, hheaders⟩ := h
  have hversion : 10 ∉ text "HTTP/1.1 " := by decide
  have hspace : 10 ∉ text " " := by decide
  have hcolon : 10 ∉ text ": " := by decide
  have hlength : 10 ∉ text "Content-Length: " := by decide
  refine forall_mem_cons.mpr ⟨?_, forall_mem_append.mpr ⟨?_, ?_⟩⟩
  · simp [statusLine, hversion, hspace, hmessage, linefeed_not_mem_decimal]
  · rw [settings]
    split
    · exact forall_mem_singleton.mpr (by decide)
    · refine forall_mem_cons.mpr ⟨?_, forall_mem_singleton.mpr (by decide)⟩
      simp [hlength, linefeed_not_mem_decimal]
  · refine forall_mem_map.mpr fun header hmem => ?_
    obtain ⟨⟨-, hname⟩, -, hvalue⟩ := hheaders header hmem
    simp [headerLine, hname, hvalue, hcolon]

theorem head_ne_nil : ∀ line ∈ rsp.head, line ≠ [] := by
  refine forall_mem_cons.mpr ⟨?_, forall_mem_append.mpr ⟨?_, ?_⟩⟩
  · exact cons_ne_nil _ _
  · rw [settings]
    split
    · exact forall_mem_singleton.mpr (cons_ne_nil _ _)
    · exact forall_mem_cons.mpr
        ⟨cons_ne_nil _ _, forall_mem_singleton.mpr (cons_ne_nil _ _)⟩
  · refine forall_mem_map.mpr fun header _ hnil => ?_
    have hcolon : text ": " = [] := (append_eq_nil_iff.mp (append_eq_nil_iff.mp hnil).1).2
    cases hcolon

theorem strings_subset : ∀ s ∈ rsp.strings, s ∈ rsp.pieces := by
  refine forall_mem_cons.mpr ⟨by simp [pieces], forall_mem_cons.mpr
    ⟨by simp [pieces], fun s hs => ?_⟩⟩
  obtain ⟨header, hmem, hs⟩ := mem_flatMap.mp hs
  have hpiece : s ∈ rsp.headers.flatMap headerPieces :=
    mem_flatMap.mpr ⟨header, hmem, by simp [headerPieces] at hs ⊢; tauto⟩
  simp [pieces, hpiece]

theorem length_pieces_lt (h : ∀ s ∈ rsp.strings, s.length < 2 ^ 31) :
    ∀ s ∈ rsp.pieces, s.length < 2 ^ 31 := by
  have hsmall {s : List UInt8} (hs : s.length ≤ 31) : s.length < 2 ^ 31 := by omega
  have hprint (s : List UInt8) : (snprintf s).length ≤ 31 := length_take_le ..
  obtain ⟨hmessage, h⟩ := forall_mem_cons.mp h
  obtain ⟨hbody, hheaders⟩ := forall_mem_cons.mp h
  have hsettings : ∀ s ∈ rsp.settingPieces, s.length < 2 ^ 31 := by
    rw [settingPieces]
    split
    · exact forall_mem_singleton.mpr (hsmall (by decide))
    · exact forall_mem_cons.mpr
        ⟨hsmall (hprint _), forall_mem_singleton.mpr (hsmall (by decide))⟩
  have hpieces : ∀ s ∈ rsp.headers.flatMap headerPieces, s.length < 2 ^ 31 := by
    intro s hs
    obtain ⟨header, hmem, hs⟩ := mem_flatMap.mp hs
    have hname := hheaders header.1 (mem_flatMap.mpr ⟨header, hmem, by simp⟩)
    have hvalue := hheaders header.2 (mem_flatMap.mpr ⟨header, hmem, by simp⟩)
    have hall : ∀ s ∈ headerPieces header, s.length < 2 ^ 31 :=
      forall_mem_cons.mpr ⟨hname, forall_mem_cons.mpr ⟨hsmall (by decide),
        forall_mem_cons.mpr ⟨hvalue, forall_mem_singleton.mpr (hsmall (by decide))⟩⟩⟩
    exact hall s hs
  refine forall_mem_cons.mpr ⟨hsmall (hprint _), forall_mem_cons.mpr ⟨hmessage,
    forall_mem_cons.mpr ⟨hsmall (by decide), forall_mem_append.mpr ⟨hsettings,
      forall_mem_append.mpr ⟨hpieces, forall_mem_cons.mpr ⟨hsmall (by decide),
        forall_mem_singleton.mpr hbody⟩⟩⟩⟩⟩⟩

theorem covered_short {s : List UInt8} (h : s.length ≤ 31) : covered s = s :=
  covered_eq (by omega)

theorem close_differs (hclean : rsp.Clean) (h : rsp.closeConnection = true) :
    (rsp.pieces.map covered).flatten ≠ joinLines 13 10 (rsp.head ++ [[]]) ++ rsp.body := by
  intro heq
  have hpieces : rsp.settingPieces = [text "Connection: close\r\x08"] := by
    rw [settingPieces, h, if_pos rfl]
  have hsettings : rsp.settings = [text "Connection: close"] := by
    rw [settings, h, if_pos rfl]
  have hstatus : covered rsp.statusText = rsp.statusText := covered_short (length_take_le ..)
  have hcrlf : covered (text "\r\n") = [13, 10] := covered_short (by decide)
  have hclose : covered (text "Connection: close\r\x08") = text "Connection: close\r\x08" :=
    covered_short (by decide)
  rw [joinLines_head, hsettings, pieces, hpieces] at heq
  simp only [map_cons, flatten_cons, map_append, hstatus, hcrlf, hclose,
    joinLines_cons, joinLines_nil, append_assoc, cons_append, nil_append] at heq
  have hmessage : Unbroken 13 10 rsp.statusMessage := unbroken_of_not_mem hclean.1.2 (by decide)
  have hpart : Unbroken 13 10 (covered rsp.statusMessage) :=
    unbroken_of_not_mem (fun hmem => hclean.1.2 (mem_of_mem_take hmem)) (by decide)
  have hline := congrArg (takeLine 13 10) (append_cancel_left heq)
  rw [takeLine_line hpart, takeLine_line hmessage] at hline
  have hbehind := congrArg Prod.snd (Option.some.inj hline)
  have hchar : some (8 : UInt8) = some 10 := congrArg (fun w => w[18]?) hbehind
  cases hchar

end

theorem output_eq {rsp : HttpResponse} (h : ∀ s ∈ rsp.strings, s.length < 2 ^ 31) :
    rsp.output = some rsp.pieces.flatten := by
  have hall := length_pieces_lt h
  refine output_eq_some_iff.mpr ⟨fun s hs => ?_, ?_⟩
  · rw [intOfSize_eq (hall s hs)]
    exact Int.natCast_nonneg _
  · rw [map_covered hall]

/-- A response falls into its lines and its body exactly if it keeps the connection alive and each
of its strings is shorter than `2 ^ 31` bytes. -/
theorem response_splits_iff (rsp : HttpResponse) (hclean : rsp.Clean) :
    rsp.SplitsInto ↔ rsp.closeConnection = false ∧ ∀ s ∈ rsp.strings, s.length < 2 ^ 31 := by
  constructor
  · rintro ⟨w, hout, hcut⟩
    obtain ⟨-, rfl⟩ := output_eq_some_iff.mp hout
    obtain ⟨-, htext⟩ := cutHead_eq_some_iff.mp hcut
    have hclose : rsp.closeConnection = false := by
      by_contra hclose
      exact close_differs hclean (eq_true_of_ne_false hclose) htext
    refine ⟨hclose, fun s hs => lt_of_length_flatten ?_ s (strings_subset s hs)⟩
    have hle := length_settingPieces_le hclose
    rw [htext, joinLines_head, flatten_pieces]
    simp only [length_append, length_cons]
    omega
  · rintro ⟨hclose, hshort⟩
    have hbody : rsp.body.length < 2 ^ 31 := hshort _ (by simp [strings])
    refine ⟨_, output_eq hshort, cutHead_eq_some_iff.mpr ⟨fun line hl => ?_, ?_⟩⟩
    · exact ⟨unbroken_of_not_mem (linefeed_not_mem_head hclean line hl) (by decide),
        head_ne_nil line hl⟩
    · rw [joinLines_head, flatten_pieces, settingPieces_eq hclose (by omega)]

/-- A page with a header. -/
theorem response_splits_page :
    HttpResponse.SplitsInto ⟨.k200Ok, text "OK", [(text "Content-Type", text "text/plain")],
      text "hi\r\n", false⟩ := by
  refine (response_splits_iff _ ?_).mpr ⟨rfl, ?_⟩
  · refine ⟨by decide, forall_mem_singleton.mpr (by decide)⟩
  · exact forall_mem_cons.mpr ⟨by decide, forall_mem_cons.mpr ⟨by decide,
      forall_mem_cons.mpr ⟨by decide, forall_mem_singleton.mpr (by decide)⟩⟩⟩

/-- The response of a server without a callback: the line of the connection runs on, and no empty
line comes. -/
theorem close_response_runs_on :
    HttpResponse.Clean ⟨.k404NotFound, text "Not Found", [], [], true⟩ ∧
    HttpResponse.output ⟨.k404NotFound, text "Not Found", [], [], true⟩ =
      some (text "HTTP/1.1 404 Not Found\r\nConnection: close\r\x08\r\n") ∧
    cutHead 13 10 (text "HTTP/1.1 404 Not Found\r\nConnection: close\r\x08\r\n") = none ∧
    ¬ HttpResponse.SplitsInto ⟨.k404NotFound, text "Not Found", [], [], true⟩ := by
  have hout : HttpResponse.output ⟨.k404NotFound, text "Not Found", [], [], true⟩ =
      some (text "HTTP/1.1 404 Not Found\r\nConnection: close\r\x08\r\n") := by
    refine (output_eq ?_).trans (by decide)
    exact forall_mem_cons.mpr ⟨by decide, forall_mem_singleton.mpr (by decide)⟩
  have hcut : cutHead 13 10 (text "HTTP/1.1 404 Not Found\r\nConnection: close\r\x08\r\n") =
      none := by decide
  refine ⟨⟨by decide, fun _ h => absurd h not_mem_nil⟩, hout, hcut, ?_⟩
  rintro ⟨w, hw, hsplit⟩
  rw [hout] at hw
  cases hw
  cases hsplit

end HttpResponse
end JKYi.Net
