import JKYi.Http.HeadRead

/-!
# Bodies of a given length

The body is put together from what was read with the head and a loop of reads. It is what follows
the head on the stream, or missing if the stream ends too early.
-/

namespace JKYi.Http

open Run Option List

variable {ε : Type}

theorem toInt64_eq {n : ℕ} (h : n < 2 ^ 31) : toInt64 n = n := by
  rw [toInt64, if_pos (by omega)]

theorem HttpRequest.body_init (r : HttpRequest) : r.init.body = r.body := by
  rw [HttpRequest.init]
  split
  · rfl
  · split <;> rfl

/-- The body is taken from the buffer and the stream together. The count of a read of 2 GiB or
more is no longer positive as an `int`. -/
theorem recvBody_ok (owner : Bool) {s : Socket} (data : List UInt8) {n : ℕ} (h0 : 0 < n)
    (hs : s.connected = true) : ∃ s',
      (recvBody owner n data : Run ε Socket _) s =
        .ok (if n ≤ (data ++ s.incoming).length ∧
            (n ≤ data.length ∨ 0 < intOfSize (n - data.length)) then
          some ((data ++ s.incoming).take n) else none) s' := by
  rw [recvBody, if_pos (by exact_mod_cast h0), length_append]
  by_cases hbuffer : n ≤ data.length
  · have hcopied : (if (n : ℤ) ≥ data.length then data else data.take (n : ℤ).toNat) =
        data.take n := by
      rw [Int.toNat_natCast]
      split
      · exact (take_of_length_le (by omega)).symm
      · rfl
    have hleft : ¬ (n : ℤ) - (data.take n).length > 0 := by
      rw [length_take]
      omega
    rw [hcopied, if_neg hleft, if_pos ⟨by omega, .inl hbuffer⟩,
      take_append_of_le_length hbuffer]
    exact ⟨s, rfl⟩
  · have hcopied : (if (n : ℤ) ≥ data.length then data else data.take (n : ℤ).toNat) = data :=
      if_pos (by omega)
    have hcount : ((n : ℤ) - data.length).toNat = n - data.length := by omega
    dsimp only
    rw [hcopied, if_pos (by omega), hcount]
    by_cases henough : n ≤ data.length + s.incoming.length
    · obtain ⟨s', hread, -⟩ :=
        SocketStream.readFixBuffer_ok (ε := ε) (n := n - data.length) hs (by omega)
      rw [bind_ok hread]
      by_cases hint : intOfSize (n - data.length) ≤ 0
      · rw [if_pos hint, if_neg fun h => h.2.elim hbuffer (not_lt.mpr hint)]
        exact closeNull_ok owner s'
      · have htake : (data ++ s.incoming).take n = data ++ s.incoming.take (n - data.length) := by
          rw [take_append, take_of_length_le (not_le.mp hbuffer).le]
        rw [if_neg hint, if_pos ⟨henough, .inr (not_le.mp hint)⟩, htake]
        exact ⟨s', rfl⟩
    · obtain ⟨d, s', hread⟩ :=
        SocketStream.readFixBuffer_short (ε := ε) (n := n - data.length) hs (by omega)
      rw [bind_ok hread]
      dsimp only
      rw [if_pos le_rfl, if_neg fun h => henough h.1]
      exact closeNull_ok owner s'

theorem recvBody_eq (owner : Bool) {s : Socket} (data : List UInt8) {n : ℕ} (h0 : 0 < n)
    (hn : n < 2 ^ 31) (hs : s.connected = true) : ∃ s',
      (recvBody owner n data : Run ε Socket _) s =
        .ok (if n ≤ (data ++ s.incoming).length then some ((data ++ s.incoming).take n)
          else none) s' := by
  have hcount : n ≤ data.length ∨ 0 < intOfSize (n - data.length) := by
    rw [intOfSize_eq (by omega)]
    omega
  obtain ⟨s', hbody⟩ := recvBody_ok (ε := ε) owner data h0 hs
  simp only [and_iff_left hcount] at hbody
  exact ⟨s', hbody⟩

theorem toInt64_pos {n : ℕ} (hn : n < 2 ^ 64) (h : 0 < toInt64 n) :
    0 < n ∧ n < 2 ^ 63 ∧ toInt64 n = n := by
  rw [toInt64] at h ⊢
  split at h
  · exact ⟨by omega, by assumption, if_pos (by assumption)⟩
  · omega

theorem lexicalCast_lt {t : List UInt8} {n : ℕ} (h : lexicalCast t = some n) : n < 2 ^ 64 := by
  have hdigits : ∀ {u : List UInt8} {m : ℕ}, (if u ≠ [] ∧ u.all (fun c => 48 ≤ c && c ≤ 57) ∧
      digitsValue 10 u < 2 ^ 64 then some (digitsValue 10 u) else none) = some m → m < 2 ^ 64 := by
    intro u m hu
    obtain ⟨hvalid, hm⟩ := ite_none_right_eq_some.mp hu
    cases hm
    exact hvalid.2.2
  unfold lexicalCast at h
  split at h
  · exact hdigits h
  · obtain ⟨m, -, rfl⟩ := map_eq_some_iff.mp h
    exact Nat.mod_lt _ (by simp)
  · exact hdigits h

theorem Headers.contentLength_lt (h : Headers) : h.contentLength < 2 ^ 64 := by
  rw [contentLength]
  cases hcast : (h.get (text "content-length")).bind lexicalCast with
  | none => norm_num
  | some n =>
    obtain ⟨v, -, hv⟩ := bind_eq_some_iff.mp hcast
    exact lexicalCast_lt hv

def HttpRequest.withBody (r : HttpRequest) (rest : List UInt8) : Option HttpRequest :=
  if 0 < toInt64 r.headers.contentLength then
    if r.headers.contentLength ≤ rest.length then
      some { r with body := rest.take r.headers.contentLength }.init
    else none
  else some r.init

def HttpRequest.LongBody (r : HttpRequest) (rest : List UInt8) : Prop :=
  2 ^ 31 ≤ r.headers.contentLength ∧ r.headers.contentLength < 2 ^ 63 ∧
    r.headers.contentLength ≤ rest.length

theorem recvRequest_body {owner : Bool} {buffSize : ℕ} {x y : HttpRequestParser}
    {s s₁ s₂ : Socket} {data : List UInt8} {body : Option (List UInt8)}
    (hrecv : (recvHead HttpSession.headParser owner buffSize x : Run ε Socket _) s =
      .ok (some (y, data)) s₁)
    (hpos : 0 < toInt64 y.getContentLength)
    (hbody : (recvBody owner (toInt64 y.getContentLength) data : Run ε Socket _) s₁ = .ok body s₂) :
    (HttpSession.recvRequest owner buffSize x : Run ε Socket _) s =
      .ok (body.map fun b => { y.data with body := b }.init) s₂ := by
  rw [HttpSession.recvRequest, bind_ok hrecv]
  dsimp only
  rw [bind_ok hbody]
  cases body with
  | none => rfl
  | some b =>
    dsimp only
    rw [if_pos hpos, pure_run, map_some]

theorem recvRequest_withBody {owner : Bool} {buffSize : ℕ} {x y : HttpRequestParser}
    {s s₁ : Socket} {data rest : List UInt8}
    (hrecv : (recvHead HttpSession.headParser owner buffSize x : Run ε Socket _) s =
      .ok (some (y, data)) s₁)
    (hrest : HeadRest HttpSession.headParser buffSize y data s₁ rest)
    (hlong : ¬ y.data.LongBody rest) :
    ∃ s₂, (HttpSession.recvRequest owner buffSize x : Run ε Socket _) s =
      .ok (y.data.withBody rest) s₂ := by
  have hlt := y.data.headers.contentLength_lt
  rw [HttpRequest.withBody]
  by_cases hpos : 0 < toInt64 y.data.headers.contentLength
  · obtain ⟨h0, h63, hcast⟩ := toInt64_pos hlt hpos
    obtain ⟨s₂, hbody⟩ := recvBody_ok (ε := ε) owner data h0 hrest.connected
    rw [hrest.incoming, ← hcast] at hbody
    refine ⟨s₂, (recvRequest_body hrecv hpos hbody).trans ?_⟩
    rw [if_pos hpos]
    by_cases hle : y.data.headers.contentLength ≤ rest.length
    · have hcount : y.data.headers.contentLength ≤ data.length ∨
          0 < intOfSize (y.data.headers.contentLength - data.length) := by
        have hshort : y.data.headers.contentLength < 2 ^ 31 := by
          by_contra h31
          exact hlong ⟨not_lt.mp h31, h63, hle⟩
        rw [intOfSize_eq (by omega)]
        omega
      rw [if_pos hle, if_pos ⟨hle, hcount⟩, map_some]
    · rw [if_neg hle, if_neg fun h => hle h.1, map_none]
  · have hbody : (recvBody owner (toInt64 y.data.headers.contentLength) data : Run ε Socket _) s₁ =
        .ok (some []) s₁ := by
      rw [recvBody, if_neg hpos]
      rfl
    refine ⟨s₁, ?_⟩
    rw [HttpSession.recvRequest, bind_ok hrecv]
    dsimp only
    rw [HttpRequestParser.getContentLength, bind_ok hbody]
    dsimp only
    rw [if_neg hpos, if_neg hpos, pure_run]

/-- With a `Content-Length` of `L` the body is the `L` bytes that follow the head, and there is
no request or response if the stream ends before. -/
theorem body_delivered (owner : Bool) (buffSize L : ℕ) (h0 : 0 < L) (hL : L < 2 ^ 31)
    (s s₁ : Socket) (head rest data : List UInt8) (hin : s.incoming = head ++ rest) :
    (∀ (queryStart : ℕ) (uriRelaxed : Bool) (y : HttpRequestParser),
      RequestMachine.table.halts uriRelaxed RequestMachine.stops head RequestMachine.start =
        some RequestMachine.firstFinal →
      (recvHead HttpSession.headParser owner buffSize (.create queryStart uriRelaxed) :
        Run ε Socket _) s = .ok (some (y, data)) s₁ →
      y.getContentLength = L →
      ∃ s₂, (HttpSession.recvRequest owner buffSize (.create queryStart uriRelaxed) :
        Run ε Socket _) s =
          .ok (if L ≤ rest.length then some { y.data with body := rest.take L }.init
            else none) s₂) ∧
    (∀ (status : ℤ) (y : HttpResponseParser),
      ResponseMachine.table.halts false ResponseMachine.stops head ResponseMachine.start =
        some ResponseMachine.firstFinal →
      (recvHead HttpConnection.headParser owner buffSize (.create status) : Run ε Socket _) s =
        .ok (some (y, data)) s₁ →
      y.parser.chunked = false → y.getContentLength = L →
      ∃ s₂, (HttpConnection.recvResponse owner buffSize (.create status) : Run ε Socket _) s =
        .ok (if L ≤ rest.length then some { y.data with body := rest.take L } else none) s₂) := by
  constructor
  · intro queryStart uriRelaxed y hhead hrecv hlength
    have hrest := recvHead_rest HttpRequestParser.follows hin hhead hrecv
    have hcontent : y.data.headers.contentLength = L := hlength
    obtain ⟨s₂, hrequest⟩ := recvRequest_withBody hrecv hrest fun hlong => by
      have := hlong.1
      omega
    refine ⟨s₂, hrequest.trans ?_⟩
    rw [HttpRequest.withBody, hcontent, toInt64_eq hL, if_pos (by exact_mod_cast h0)]
  · intro status y hhead hrecv hchunked hlength
    have hrest := recvHead_rest HttpResponseParser.follows hin hhead hrecv
    obtain ⟨s₂, hbody⟩ := recvBody_eq (ε := ε) owner data h0 hL hrest.connected
    rw [hrest.incoming] at hbody
    refine ⟨s₂, ?_⟩
    have hresponse : (HttpConnection.recvResponseBody owner buffSize y data : Run ε Socket _) s₁ =
        .ok (if L ≤ rest.length then some (y, rest.take L) else none) s₂ := by
      rw [HttpConnection.recvResponseBody, hchunked, if_neg Bool.false_ne_true, hlength,
        toInt64_eq hL, bind_ok hbody]
      split_ifs <;> rfl
    rw [HttpConnection.recvResponse, bind_ok hrecv]
    dsimp only
    rw [bind_ok hresponse]
    by_cases hle : L ≤ rest.length
    · have hne : rest.take L ≠ [] := by
        rw [← length_pos_iff, length_take]
        omega
      rw [if_pos hle, if_pos hle]
      dsimp only
      rw [if_neg hne, pure_run]
    · rw [if_neg hle, if_neg hle]
      rfl

theorem body_delivered_three :
    (∃ r s₂, (HttpSession.recvRequest true 100 (.create 0 false) : Run Unit Socket _)
      ⟨true, text "POST / HTTP/1.1\r\ncontent-length: 3\r\n\r\n" ++ text "abcd", [],
        fun i => if i = 0 then 39 else 1⟩ = .ok (some r) s₂ ∧ r.body = text "abc") ∧
    ∃ s₂, (HttpConnection.recvResponse true 100 (.create 0) : Run Unit Socket _)
      ⟨true, text "HTTP/1.1 200 OK\r\ncontent-length: 3\r\n\r\n" ++ text "ab", [],
        fun _ => 100⟩ = .ok none s₂ := by
  constructor
  · have hrun : ((recvHead HttpSession.headParser true 100 (.create 0 false) : Run Unit Socket _)
        ⟨true, text "POST / HTTP/1.1\r\ncontent-length: 3\r\n\r\n" ++ text "abcd", [],
          fun i => if i = 0 then 39 else 1⟩).value.map
        (Option.map fun r => r.1.getContentLength) = some (some 3) := by
      decide +kernel
    obtain ⟨_, hvalue, hsome⟩ := map_eq_some_iff.mp hrun
    obtain ⟨⟨y, data⟩, rfl, hlength⟩ := map_eq_some_iff.mp hsome
    obtain ⟨s₁, hrecv⟩ := Outcome.value_eq_some.mp hvalue
    obtain ⟨s₂, hrequest⟩ := (body_delivered true 100 3 (by simp) (by simp) _ s₁
      (text "POST / HTTP/1.1\r\ncontent-length: 3\r\n\r\n") (text "abcd") data rfl).1 0 false y
      (by decide +kernel) hrecv hlength
    exact ⟨_, s₂, hrequest, HttpRequest.body_init _⟩
  · have hrun : ((recvHead HttpConnection.headParser true 100 (.create 0) : Run Unit Socket _)
        ⟨true, text "HTTP/1.1 200 OK\r\ncontent-length: 3\r\n\r\n" ++ text "ab", [],
          fun _ => 100⟩).value.map
        (Option.map fun r => (r.1.parser.chunked, r.1.getContentLength)) =
          some (some (false, 3)) := by
      decide +kernel
    obtain ⟨_, hvalue, hsome⟩ := map_eq_some_iff.mp hrun
    obtain ⟨⟨y, data⟩, rfl, hboth⟩ := map_eq_some_iff.mp hsome
    obtain ⟨s₁, hrecv⟩ := Outcome.value_eq_some.mp hvalue
    obtain ⟨hchunked, hlength⟩ := Prod.mk.inj hboth
    exact (body_delivered true 100 3 (by simp) (by simp) _ s₁
      (text "HTTP/1.1 200 OK\r\ncontent-length: 3\r\n\r\n") (text "ab") data rfl).2 0 y
      (by decide +kernel) hrecv hchunked hlength

end JKYi.Http
