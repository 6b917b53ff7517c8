import JKYi.Http.HttpStream

/-!
# Where a head ends

Both loops over a head hand every byte to the machine once, so that they stop behind the word the
machine stops behind, however the bytes arrive.
-/

namespace JKYi.Http

open List Run Option

variable {ε : Type}

/-! Reading. -/

variable {s : Socket}

theorem read_eq (n : ℕ) (hs : s.connected = true) :
    (read n : Run ε Socket _) s =
      .ok ((s.arriving n : ℤ), s.incoming.take (s.arriving n)) (s.received (s.arriving n)) :=
  withObject_ok (SocketStream.readBuffer_eq n [] hs)

theorem read_closed (n : ℕ) (hs : s.connected = false) :
    (read n : Run ε Socket _) s = .ok (-1, []) s := by
  refine withObject_ok ?_
  rw [SocketStream.readBuffer, bind_ok (get_run _)]
  dsimp only
  rw [Socket.isConnected, hs]
  rfl

variable {n : ℕ} {s' : Socket}

/-- A read that is not refused takes some bytes off the stream. -/
theorem read_pos {len : ℤ} {d : List UInt8}
    (h : (read n : Run ε Socket _) s = .ok (len, d) s') (hlen : ¬ len ≤ 0) :
    s.connected = true ∧ d ≠ [] ∧ d.length ≤ n ∧ d.length < 2 ^ 31 ∧ s.Moved d [] s' := by
  cases hs : s.connected with
  | false =>
    cases (read_closed n hs).symm.trans h
    exact absurd (by simp) hlen
  | true =>
    obtain ⟨hres, rfl⟩ := Outcome.ok.inj ((read_eq n hs).symm.trans h)
    obtain ⟨rfl, rfl⟩ := Prod.mk.inj hres
    have hlength : (s.incoming.take (s.arriving n)).length = s.arriving n := by
      rw [length_take, Nat.min_eq_left (s.arriving_le_incoming n)]
    refine ⟨rfl, ?_, hlength.trans_le (s.arriving_le n), hlength.trans_lt (s.arriving_lt n),
      s.moved_received _ hs⟩
    rw [← length_pos_iff, hlength]
    omega

theorem read_arriving {len : ℤ} {d : List UInt8} (hs : s.connected = true)
    (h : (read n : Run ε Socket _) s = .ok (len, d) s') :
    d.length = s.arriving n ∧ s' = s.received (s.arriving n) := by
  obtain ⟨hres, rfl⟩ := Outcome.ok.inj ((read_eq n hs).symm.trans h)
  obtain ⟨-, rfl⟩ := Prod.mk.inj hres
  exact ⟨by rw [length_take, Nat.min_eq_left (s.arriving_le_incoming n)], rfl⟩

variable {α : Type}

theorem closeNull_ne_some {owner : Bool} {a : α} :
    (closeNull owner : Run ε Socket (Option α)) s ≠ .ok (some a) s' := by
  intro h
  obtain ⟨_, _, _, hnone⟩ := bind_eq_ok_iff.mp h
  cases hnone

theorem closeNull_ok (owner : Bool) (s : Socket) :
    ∃ s', (closeNull owner : Run ε Socket (Option α)) s = .ok none s' := by
  cases owner with
  | false => exact ⟨s, rfl⟩
  | true => exact ⟨_, rfl⟩

theorem orCrash_eq_ok_iff {o : Option α} {a : α} :
    (orCrash o : Run ε Socket α) s = .ok a s' ↔ o = some a ∧ s' = s := by
  cases o with
  | none => simp [orCrash]
  | some b => simp [orCrash, eq_comm]

/-! The loop over a head. -/

/-- The reads of a loop that empties its buffer each time, with the positions of the stream where
they begin and end. -/
def reads (buffSize : ℕ) : ℕ → ℕ → Socket → List (ℕ × ℕ)
  | 0, _, _ => []
  | rounds + 1, k, s =>
    (k, k + s.arriving buffSize) ::
      reads buffSize rounds (k + s.arriving buffSize) (s.received (s.arriving buffSize))

theorem le_of_mem_reads {buffSize rounds k : ℕ} {s : Socket} {r : ℕ × ℕ}
    (h : r ∈ reads buffSize rounds k s) : k ≤ r.1 := by
  induction rounds generalizing k s with
  | zero => cases h
  | succ rounds ih =>
    rcases mem_cons.mp h with rfl | hmem
    · exact le_rfl
    · exact (Nat.le_add_right ..).trans (ih hmem)

variable {data : List UInt8}

section

variable {π A : Type} {P : HeadParser π} {M : Scanner A} {stops : A → Bool} {final : ℕ}
  {guard : π → Bool} {state : π → ℕ} {owner : Bool} {buffSize : ℕ}

/-- The parser runs the machine: one call scans the bytes it is given and stops in the machine's
next state. -/
structure HeadParser.Follows (P : HeadParser π) (M : Scanner A) (stops : A → Bool) (final : ℕ)
    (guard : π → Bool) (state : π → ℕ) : Prop where
  execute : ∀ {x data n y}, data ≠ [] → P.execute x data = some (n, y) → P.hasError y = false →
    guard y = guard x ∧
    (M.path (guard x) stops data (state x) = some (state y) ∧ n = data.length ∧
        P.isFinished y = false ∨
      ∃ u v, data = u ++ v ∧ M.halts (guard x) stops u (state x) = some (state y) ∧
        n = u.length)
  finished : ∀ {y}, state y = final → P.isFinished y = true

/-- What `recvHead` leaves for the body: the bytes of the buffer and of the socket are the rest of
the stream. -/
structure HeadRest (P : HeadParser π) (buffSize : ℕ) (y : π) (data : List UInt8) (s : Socket)
    (rest : List UInt8) : Prop where
  connected : s.connected = true
  incoming : data ++ s.incoming = rest
  length_le : data.length ≤ buffSize
  length_lt : data.length < 2 ^ 31
  noError : P.hasError y = false

variable {rounds : ℕ} {s₁ : Socket}

theorem headLoop_round {x y : π} {data' : List UInt8}
    (h : (headLoop P owner buffSize (rounds + 1) x data : Run ε Socket _) s =
      .ok (some (y, data')) s₁) :
    ∃ len d t n z, (read (buffSize - data.length) : Run ε Socket _) s = .ok (len, d) t ∧
      ¬ len ≤ 0 ∧ P.execute x (data ++ d) = some (n, z) ∧ P.hasError z = false ∧
      (P.isFinished z = true ∧ y = z ∧ data' = (data ++ d).drop n ∧ s₁ = t ∨
        P.isFinished z = false ∧
          (headLoop P owner buffSize rounds z ((data ++ d).drop n) : Run ε Socket _) t =
            .ok (some (y, data')) s₁) := by
  obtain ⟨⟨len, d⟩, t, hread, h⟩ := bind_eq_ok_iff.mp h
  dsimp only at h
  split_ifs at h with hlen
  · exact absurd h closeNull_ne_some
  obtain ⟨⟨n, z⟩, t', hparse, hnext⟩ := bind_eq_ok_iff.mp h
  obtain ⟨hexec, rfl⟩ := orCrash_eq_ok_iff.mp hparse
  split_ifs at hnext with herror hfull hfin
  · exact absurd hnext closeNull_ne_some
  · exact absurd hnext closeNull_ne_some
  all_goals refine ⟨len, d, t', n, z, hread, hlen, hexec, eq_false_of_ne_true herror, ?_⟩
  · cases hnext
    exact .inl ⟨hfin, rfl, rfl, rfl⟩
  · exact .inr ⟨eq_false_of_ne_true hfin, hnext⟩

/-- `I b k x v` is kept by the reads of a head: `k` bytes of it have been parsed, `v` is still to
come, and all reads have been good if `b` holds. -/
structure HeadParser.Traced (P : HeadParser π) (I : Bool → ℕ → π → List UInt8 → Prop)
    (Good : ℕ × ℕ → Prop) (E : π → Prop) : Prop where
  path : ∀ {b k x d v y}, I b k x (d ++ v) → d ≠ [] → v ≠ [] →
    P.execute x d = some (d.length, y) → P.hasError y = false →
    ∃ b', I b' (k + d.length) y v ∧ (b' = true → b = true ∧ Good (k, k + d.length))
  last : ∀ {b k x v z y}, I b k x v → P.execute x (v ++ z) = some (v.length, y) →
    P.hasError y = false → E y ∨ b = true ∧ Good (k, k + (v ++ z).length)

/-- A head that is returned ends where the machine says, whatever the reads. -/
theorem headLoop_rest (hP : P.Follows M stops final guard state)
    {I : Bool → ℕ → π → List UInt8 → Prop} {G : ℕ × ℕ → Prop} {E : π → Prop}
    (hI : P.Traced I G E) {y : π} (rounds : ℕ) :
    ∀ {b : Bool} {k : ℕ} {x : π} {s : Socket} {head rest : List UInt8},
    s.incoming = head ++ rest → M.halts (guard x) stops head (state x) = some final →
    I b k x head →
    (headLoop P owner buffSize rounds x [] : Run ε Socket _) s = .ok (some (y, data)) s₁ →
    HeadRest P buffSize y data s₁ rest ∧
      (E y ∨ b = true ∧ ∀ r ∈ reads buffSize rounds k s, r.1 < k + head.length → G r) := by
  induction rounds with
  | zero =>
    intro b k x s head rest _ _ _ h
    cases h
  | succ rounds ih =>
    intro b k x s head rest hin hhead hx h
    obtain ⟨len, d, t, n, z, hread, hlen, hexec, herror, hround⟩ := headLoop_round h
    rw [length_nil, Nat.sub_zero] at hread
    obtain ⟨hs, hd, hle, hlt, hmoved⟩ := read_pos hread hlen
    obtain ⟨hcount, rfl⟩ := read_arriving hs hread
    rw [reads, forall_mem_cons]
    generalize s.arriving buffSize = m at hcount hread hmoved hround ⊢
    subst hcount
    have hsplit := hmoved.incoming.symm.trans hin
    rw [nil_append] at hexec hround
    obtain ⟨hguard, ⟨hpath, rfl, hgo⟩ | ⟨u, v, rfl, hhalts, rfl⟩⟩ := hP.execute hd hexec herror
    · obtain ⟨head', rfl, hhead'⟩ := Scanner.halts_of_path hpath hhead hsplit
      rw [append_assoc, append_cancel_left_eq] at hsplit
      rw [← hguard] at hhead'
      rcases hround with ⟨hfin, -⟩ | ⟨-, hnext⟩
      · exact absurd (hgo.symm.trans hfin) Bool.false_ne_true
      · rw [drop_length] at hnext
        have hne : head' ≠ [] := by
          rintro rfl
          cases hhead'
        obtain ⟨b', hz, hb'⟩ := hI.path hx hd hne hexec herror
        obtain ⟨hrest, hgood⟩ := ih hsplit hhead' hz hnext
        refine ⟨hrest, hgood.imp_right fun h => ?_⟩
        obtain ⟨hb, hgood'⟩ := hb' h.1
        rw [length_append, ← Nat.add_assoc]
        exact ⟨hb, fun _ => hgood', h.2⟩
    · rw [append_assoc] at hsplit
      obtain ⟨rfl, hfinal⟩ := Scanner.halts_unique hhalts hhead hsplit
      rcases hround with ⟨-, rfl, rfl, rfl⟩ | ⟨hgo, -⟩
      · rw [drop_left]
        have hlast := hI.last hx hexec herror
        have hlength : (u ++ v).length = _ := length_append
        refine ⟨⟨hmoved.connected hs, append_cancel_left hsplit, by omega, by omega, herror⟩,
          hlast.imp_right fun h => ⟨h.1, fun _ => h.2, fun r hr hend => ?_⟩⟩
        have := le_of_mem_reads hr
        omega
      · exact absurd (hgo.symm.trans (hP.finished hfinal)) Bool.false_ne_true

theorem recvHead_rest (hP : P.Follows M stops final guard state) {x y : π}
    {head rest : List UInt8} (hin : s.incoming = head ++ rest)
    (hhead : M.halts (guard x) stops head (state x) = some final)
    (h : (recvHead P owner buffSize x : Run ε Socket _) s = .ok (some (y, data)) s₁) :
    HeadRest P buffSize y data s₁ rest := by
  exact (headLoop_rest (I := fun _ _ _ _ => True) (G := fun _ => True) (E := fun _ => True)
    (b := false) (k := 0) hP ⟨fun _ _ _ _ _ => ⟨false, trivial, nofun⟩,
      fun _ _ _ => .inl trivial⟩ _ hin hhead trivial h).1

section

variable (owner) {x y : π} (hs : s.connected = true) (hpos : 0 < s.arriving buffSize)
  (hexec : P.execute x (s.incoming.take (s.arriving buffSize)) = some (n, y))
include hs hpos hexec

theorem headLoop_empty :
    (headLoop P owner buffSize (rounds + 1) x [] : Run ε Socket _) s =
      (if P.hasError y then closeNull owner
      else if ((s.incoming.take (s.arriving buffSize)).drop n).length = buffSize then
        closeNull owner
      else if P.isFinished y then
        pure (some (y, (s.incoming.take (s.arriving buffSize)).drop n))
      else headLoop P owner buffSize rounds y ((s.incoming.take (s.arriving buffSize)).drop n))
        (s.received (s.arriving buffSize)) := by
  rw [headLoop, length_nil, Nat.sub_zero, bind_ok (read_eq buffSize hs)]
  dsimp only
  rw [if_neg (by omega), nil_append, hexec,
    bind_ok (orCrash_eq_ok_iff.mpr ⟨rfl, rfl⟩)]

theorem headLoop_last (hn : 0 < n) (herror : P.hasError y = false) (hfin : P.isFinished y = true) :
    (headLoop P owner buffSize (rounds + 1) x [] : Run ε Socket _) s =
      .ok (some (y, (s.incoming.take (s.arriving buffSize)).drop n))
        (s.received (s.arriving buffSize)) := by
  have hle := s.arriving_le buffSize
  have hfull : ¬ ((s.incoming.take (s.arriving buffSize)).drop n).length = buffSize := by
    rw [length_drop, length_take]
    omega
  rw [headLoop_empty owner hs hpos hexec, herror, if_neg Bool.false_ne_true, if_neg hfull, hfin,
    if_pos rfl, pure_run]

end

/-- `W k x v` lets the loop go on over reads for which `Ok` holds, and `Stop` is the reason for
which it may end with an error. -/
structure HeadParser.Forward (P : HeadParser π) (W : ℕ → π → List UInt8 → Prop)
    (Ok : ℕ × ℕ → Prop) (Stop : Prop) (End : π → Prop) : Prop where
  ne_nil : ∀ {k x v}, W k x v → v ≠ []
  path : ∀ {k x d v}, W k x (d ++ v) → d ≠ [] → v ≠ [] → Ok (k, k + d.length) →
    ∃ y, P.execute x d = some (d.length, y) ∧ (P.hasError y = true ∧ Stop ∨
      P.hasError y = false ∧ P.isFinished y = false ∧ W (k + d.length) y v)
  last : ∀ {k x v} (z : List UInt8), W k x v → Ok (k, k + (v ++ z).length) →
    ∃ y, P.execute x (v ++ z) = some (v.length, y) ∧ (P.hasError y = true ∧ Stop ∨
      P.hasError y = false ∧ P.isFinished y = true ∧ End y)

theorem HeadParser.Forward.headLoop {W : ℕ → π → List UInt8 → Prop} {Ok : ℕ × ℕ → Prop}
    {Stop : Prop} {End : π → Prop} (h : P.Forward W Ok Stop End) (owner : Bool)
    (hbuff : 0 < buffSize) (rounds : ℕ) : ∀ {k : ℕ} {x : π} {s : Socket} {v rest : List UInt8},
    W k x v → s.connected = true → s.incoming = v ++ rest → s.incoming.length < rounds →
    (∀ r ∈ reads buffSize rounds k s, r.1 < k + v.length → Ok r) →
    (∃ s₁, (headLoop P owner buffSize rounds x [] : Run ε Socket _) s = .ok none s₁) ∧ Stop ∨
    ∃ y data s₁, (headLoop P owner buffSize rounds x [] : Run ε Socket _) s =
      .ok (some (y, data)) s₁ ∧ End y := by
  induction rounds with
  | zero =>
    intro k x s v rest _ _ _ hlt
    omega
  | succ rounds ih =>
    intro k x s v rest hx hs hin hlt hok
    have hv := length_pos_iff.mpr (h.ne_nil hx)
    have hpos := s.arriving_pos hbuff (hin.trans_ne (append_ne_nil_of_left_ne_nil (h.ne_nil hx) _))
    have hle := s.arriving_le_incoming buffSize
    rw [reads, forall_mem_cons] at hok
    by_cases hm : v.length ≤ s.arriving buffSize
    · have hread : s.incoming.take (s.arriving buffSize) =
          v ++ rest.take (s.arriving buffSize - v.length) := by
        rw [hin, take_append, take_of_length_le hm]
      have hlength := congrArg length hread
      rw [length_take, Nat.min_eq_left hle] at hlength
      obtain ⟨y, hexec, hend⟩ := h.last (rest.take (s.arriving buffSize - v.length)) hx
        (hlength ▸ hok.1 (Nat.lt_add_of_pos_right hv))
      rw [← hread] at hexec
      rcases hend with ⟨herror, hstop⟩ | ⟨herror, hfin, hend⟩
      · rw [headLoop_empty owner hs hpos hexec, herror, if_pos rfl]
        exact .inl ⟨closeNull_ok owner _, hstop⟩
      · exact .inr ⟨y, _, _, headLoop_last owner hs hpos hexec hv herror hfin, hend⟩
    · obtain ⟨d, v', rfl, hd⟩ : ∃ d v', v = d ++ v' ∧ d.length = s.arriving buffSize :=
        ⟨v.take (s.arriving buffSize), _, (take_append_drop _ v).symm, by rw [length_take]; omega⟩
      have hread : s.incoming.take (s.arriving buffSize) = d := by
        rw [hin, append_assoc, take_left' hd]
      have hv' : v' ≠ [] := by
        rintro rfl
        rw [append_nil] at hm
        omega
      obtain ⟨y, hexec, hnext⟩ := h.path hx (length_pos_iff.mp (hd ▸ hpos)) hv'
        (hd ▸ hok.1 (Nat.lt_add_of_pos_right hv))
      rw [hd] at hnext
      rw [headLoop_empty owner hs hpos (hread.symm ▸ hexec)]
      rcases hnext with ⟨herror, hstop⟩ | ⟨herror, hgo, hy⟩
      · rw [herror, if_pos rfl]
        exact .inl ⟨closeNull_ok owner _, hstop⟩
      · rw [herror, if_neg Bool.false_ne_true, hread, drop_length, length_nil,
          if_neg hbuff.ne, hgo, if_neg Bool.false_ne_true]
        refine ih hy hs (show _ = v' ++ rest from ?_) ?_ ?_
        · rw [Socket.received, hin, append_assoc, drop_left' hd]
        · rw [Socket.received, length_drop]
          omega
        · rw [length_append, hd, ← Nat.add_assoc] at hok
          exact hok.2

end

/-! The two parsers. -/

theorem RequestMachine.target_lt : ∀ row ∈ table, ∀ e ∈ row,
    e.actions.any stops = false → e.target < firstFinal := by
  decide +kernel

theorem ResponseMachine.target_ne : ∀ row ∈ table, ∀ e ∈ row,
    e.actions.any stops = false → e.target ≠ firstFinal := by
  decide +kernel

namespace HttpRequestParser

variable {x y : HttpRequestParser}

theorem perform_frame {buffer : List UInt8} {p : ℕ} {a : RequestMachine.Action}
    (h : perform buffer p a x = some y) :
    y.parser.uriRelaxed = x.parser.uriRelaxed ∧ y.parser.cs = x.parser.cs ∧
      (RequestMachine.stops a = false → y.parser.bodyStart = x.parser.bodyStart) ∧
      (x.error ≠ 0 → y.error ≠ 0) := by
  cases a <;> simp only [perform, onRequestMethod, onRequestVersion, onRequestHttpField,
    map_eq_some_iff, ite_none_right_eq_some, Option.some.injEq] at h <;>
    grind [RequestMachine.stops]

theorem execute_eq_some (hdata : data ≠ [])
    (h : x.execute data = some (n, y)) : ∃ e,
      RequestMachine.table.scan x.parser.uriRelaxed RequestMachine.stops (perform data) data
        x.parser.cs 0 x.rewind = some e ∧ n = e.position ∧
      (y.parser.cs = 0 ∨ y = { e.object with parser.cs := e.state }) := by
  rw [execute, if_neg (length_eq_zero_iff.not.mpr hdata)] at h
  split at h
  · cases h
  next e hscan =>
    simp only [ite_none_right_eq_some, Option.some.injEq, Prod.mk.injEq] at h
    obtain ⟨-, rfl, rfl⟩ := h
    refine ⟨e, hscan, rfl, ?_⟩
    split_ifs with hcs
    · exact .inl hcs
    · exact .inr rfl

theorem follows : HttpSession.headParser.Follows RequestMachine.table RequestMachine.stops
    RequestMachine.firstFinal (fun x => x.parser.uriRelaxed) (fun x => x.parser.cs) := by
  constructor
  · intro x data n y hdata hexec herror
    have hcs : y.parser.cs ≠ 0 := by
      intro hcs
      exact Bool.false_ne_true (herror.symm.trans (by simp [HttpSession.headParser, hasError, hcs]))
    obtain ⟨e, hscan, rfl, h0 | rfl⟩ := execute_eq_some hdata hexec
    · exact absurd h0 hcs
    have hguard := Scanner.scan_inv (I := fun t => t.parser.uriRelaxed = x.parser.uriRelaxed)
        (fun _ _ _ _ hp ht => (perform_frame hp).1.trans ht) hscan rfl
    refine ⟨hguard, ?_⟩
    rcases Scanner.scan_cases hscan with h0 | ⟨hpath, hpos⟩ | ⟨u, v, hsplit, hhalts, hpos⟩
    · exact absurd h0 hcs
    · have hlow :=
        Scanner.path_target (G := fun r => r < RequestMachine.firstFinal) RequestMachine.target_lt
          hpath hdata
      exact .inl ⟨hpath, by rw [hpos, Nat.zero_add], decide_eq_false (not_le.mpr hlow)⟩
    · exact .inr ⟨u, v, hsplit, hhalts, by rw [hpos, Nat.zero_add]⟩
  · intro y hy
    exact decide_eq_true hy.ge

end HttpRequestParser

namespace HttpResponseParser

variable {x y : HttpResponseParser}

theorem execute_eq_some (h : x.execute data false = some (n, y)) :
    ∃ e, ResponseMachine.table.scan false ResponseMachine.stops (perform data) data
        x.parser.cs 0 x.rewind = some e ∧ n = e.position ∧
      y = { e.object with parser.cs := e.state } := by
  rw [execute, if_neg Bool.false_ne_true] at h
  split at h
  · cases h
  next e hscan =>
    simp only [ite_none_right_eq_some, Option.some.injEq, Prod.mk.injEq] at h
    obtain ⟨-, rfl, rfl⟩ := h
    exact ⟨e, hscan, rfl, rfl⟩

theorem follows : HttpConnection.headParser.Follows ResponseMachine.table ResponseMachine.stops
    ResponseMachine.firstFinal (fun _ => false) (fun x => x.parser.cs) := by
  constructor
  · intro x data n y hdata hexec herror
    have hcs : y.parser.cs ≠ 0 := by
      intro hcs
      exact Bool.false_ne_true
        (herror.symm.trans (by simp [HttpConnection.headParser, hasError, hcs]))
    obtain ⟨e, hscan, rfl, rfl⟩ := execute_eq_some hexec
    refine ⟨rfl, ?_⟩
    rcases Scanner.scan_cases hscan with h0 | ⟨hpath, hpos⟩ | ⟨u, v, hsplit, hhalts, hpos⟩
    · exact absurd h0 hcs
    · have hother := Scanner.path_target (G := fun r => r ≠ ResponseMachine.firstFinal)
          ResponseMachine.target_ne hpath hdata
      exact .inl ⟨hpath, by rw [hpos, Nat.zero_add], beq_eq_false_iff_ne.mpr hother⟩
    · exact .inr ⟨u, v, hsplit, hhalts, by rw [hpos, Nat.zero_add]⟩
  · intro y hy
    exact beq_iff_eq.mpr hy

end HttpResponseParser
end JKYi.Http
