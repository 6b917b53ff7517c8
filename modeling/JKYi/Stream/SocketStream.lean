import JKYi.ByteArray.Reachable
import JKYi.ByteArray.IoVec

/-!
# Streams over a socket

`Stream::readFixSize` and `Stream::writeFixSize` repeat partial transfers until
all bytes have moved. The socket may cut every transfer short: it moves at
least one byte, as many as it likes beyond that, fills or drains the buffers in
order and returns the count.
-/

namespace JKYi

open JKYi.ByteArray List Run

variable {n : ℕ}

namespace Stream

variable {ε σ : Type}

/-- The loop of `readFixSize(ba, length)` and `writeFixSize(ba, length)` over the
`read` or `write` of the stream. A round that goes on has moved at least one
byte, so `length + 1` rounds are enough. -/
def fixSizeLoop (transfer : ℕ → Run ε σ ℤ) (length : ℕ) : ℕ → ℤ → Run ε σ ℤ
  | 0, _ => Run.crash
  | rounds + 1, left =>
    if 0 < left then do
      let len ← transfer left.toNat
      if len ≤ 0 then pure len else fixSizeLoop transfer length rounds (left - len)
    else pure (intOfSize length)

def fixSize (transfer : ℕ → Run ε σ ℤ) (length : ℕ) : Run ε σ ℤ :=
  fixSizeLoop transfer length (length + 1) length

theorem fixSize_fails {transfer : ℕ → Run ε σ ℤ} {rt : ℤ} {s s' : σ} (hn : 0 < n)
    (hrun : transfer n s = .ok rt s') (hrt : rt ≤ 0) : fixSize transfer n s = .ok rt s' := by
  rw [fixSize, fixSizeLoop, if_pos (by omega), Int.toNat_natCast, bind_ok hrun, if_pos hrt,
    pure_run]

/-- A transfer moves some of the bytes that are left and keeps `P`, indexed by the bytes moved so
far, or comes to an end where `Q` holds. -/
def Moves (transfer : ℕ → Run ε σ ℤ) (n : ℕ) (P : ℕ → σ → Prop) (Q : Prop) : Prop :=
  ∀ done left s, done + left = n → 0 < left → P done s →
    (∃ s', transfer left s = .ok 0 s' ∧ Q) ∨
    ∃ (k : ℕ) (s' : σ), transfer left s = .ok k s' ∧ 0 < k ∧ k ≤ left ∧ P (done + k) s'

variable {transfer : ℕ → Run ε σ ℤ} {P : ℕ → σ → Prop} {s : σ}

theorem fixSize_cases {Q : Prop} (hstep : Moves transfer n P Q) (h0 : P 0 s) :
    ∃ s', fixSize transfer n s = .ok (intOfSize n) s' ∧ P n s' ∨
      fixSize transfer n s = .ok 0 s' ∧ Q := by
  have hloop : ∀ rounds done left s, done + left = n → left < rounds → P done s →
      ∃ s', fixSizeLoop transfer n rounds left s = .ok (intOfSize n) s' ∧ P n s' ∨
        fixSizeLoop transfer n rounds left s = .ok 0 s' ∧ Q := by
    intro rounds
    induction rounds with
    | zero =>
      intro done left s _ hlt
      omega
    | succ rounds ih =>
      intro done left s hsum hlt hP
      rcases Nat.eq_zero_or_pos left with rfl | hpos
      · obtain rfl : done = n := by omega
        exact ⟨s, .inl ⟨by simp [fixSizeLoop], hP⟩⟩
      rw [fixSizeLoop, if_pos (by exact_mod_cast hpos), Int.toNat_natCast]
      rcases hstep done left s hsum hpos hP with ⟨s₁, hstop, hQ⟩ | ⟨k, s₁, hmove, hk, hle, hP₁⟩
      · exact ⟨s₁, .inr ⟨by rw [bind_ok hstop]; rfl, hQ⟩⟩
      · have hcast : ((left - k : ℕ) : ℤ) = (left : ℤ) - (k : ℤ) := by omega
        rw [bind_ok hmove, if_neg (by omega), ← hcast]
        exact ih (done + k) (left - k) s₁ (by omega) (by omega) hP₁
  exact hloop (n + 1) 0 n s (by omega) (by omega) h0

theorem fixSize_rule (hstep : Moves transfer n P False) (h0 : P 0 s) :
    ∃ s', fixSize transfer n s = .ok (intOfSize n) s' ∧ P n s' := by
  obtain ⟨s', hdone | ⟨-, hend⟩⟩ := fixSize_cases hstep h0
  · exact ⟨s', hdone⟩
  · exact hend.elim

end Stream

/-- A connected socket seen from one end: the bytes it will deliver, the bytes it
has accepted, and limits on the sizes of the transfers to come. -/
structure Socket where
  connected : Bool
  incoming : List UInt8
  outgoing : List UInt8
  cuts : ℕ → ℕ

namespace Socket

def isConnected (s : Socket) : Bool := s.connected

def nextTransfer (s : Socket) (available : ℕ) : ℕ := min (max 1 (s.cuts 0)) available

/-- The socket after it has delivered `k` bytes. -/
def received (s : Socket) (k : ℕ) : Socket :=
  { s with incoming := s.incoming.drop k, cuts := fun i => s.cuts (i + 1) }

def sent (s : Socket) (d : List UInt8) : Socket :=
  { s with outgoing := s.outgoing ++ d, cuts := fun i => s.cuts (i + 1) }

def recv (iovs : List IoVec) : Run Exn (Socket × ByteArray) ℤ := fun (s, ba) =>
  if s.isConnected then
    let k := s.nextTransfer (min (totalLen iovs) s.incoming.length)
    .ok (intOfSize k)
      (s.received k, { ba with nodes := ByteArray.scatter iovs (s.incoming.take k) ba.nodes })
  else .ok (-1) (s, ba)

def send (iovs : List IoVec) : Run Exn (Socket × ByteArray) ℤ := fun (s, ba) =>
  if s.isConnected then
    let k := s.nextTransfer (totalLen iovs)
    .ok (intOfSize k) (s.sent ((ByteArray.gather iovs ba.nodes).take k), ba)
  else .ok (-1) (s, ba)

end Socket

namespace SocketStream

def finish (rt : ℤ) : Run Exn (Socket × ByteArray) ℤ := do
  let (_, ba) ← Run.get
  if 0 < rt then do
    Run.onSnd (setPosition (ba.getPosition + rt.toNat))
    pure rt
  else pure rt

/-- `SocketStream::read(ba, length)`. -/
def read (length : ℕ) : Run Exn (Socket × ByteArray) ℤ := do
  let (s, _) ← Run.get
  if s.isConnected then do
    let (_, iovs) ← Run.onSnd (getWriteBuffers [] length)
    let rt ← Socket.recv iovs
    finish rt
  else pure (-1)

/-- `SocketStream::write(ba, length)`. -/
def write (length : ℕ) : Run Exn (Socket × ByteArray) ℤ := do
  let (s, _) ← Run.get
  if s.isConnected then do
    let (_, iovs) ← Run.onSnd (getReadBuffers [] length)
    let rt ← Socket.send iovs
    finish rt
  else pure (-1)

def readFixSize (length : ℕ) : Run Exn (Socket × ByteArray) ℤ := Stream.fixSize read length

def writeFixSize (length : ℕ) : Run Exn (Socket × ByteArray) ℤ := Stream.fixSize write length

variable {s : Socket} {ba : ByteArray}

theorem finish_pos {k : ℕ} {ba' : ByteArray} (hk : 0 < k)
    (hset : setPosition (ba.position + k) ba = .ok () ba') :
    finish k (s, ba) = .ok (k : ℤ) (s, ba') := by
  have hpos : (0 : ℤ) < k := by exact_mod_cast hk
  rw [finish, bind_ok (get_run _)]
  dsimp only
  rw [if_pos hpos, Int.toNat_natCast, getPosition, bind_ok (onSnd_ok s hset), pure_run]

theorem read_step {length : ℕ} (h : ba.Wf) (hs : s.connected = true) (h0 : 0 < length)
    (hlen : length < 2 ^ 31) (hin : s.incoming ≠ []) :
    ∃ (k : ℕ) (s' : Socket) (ba' : ByteArray), read length (s, ba) = .ok (k : ℤ) (s', ba') ∧
      0 < k ∧ k ≤ length ∧ k ≤ s.incoming.length ∧ s'.connected = true ∧
      s'.incoming = s.incoming.drop k ∧ s'.outgoing = s.outgoing ∧
      ba.Written (s.incoming.take k) ba' ∧
      (ba'.capacity = ba.capacity ∨ ba'.capacity < ba.position + length + ba.baseSize) := by
  obtain ⟨g, iovs, hg, hgrown, hroom, hcons, htotal, htight⟩ :=
    getWriteBuffers_ok h h0 (by omega)
  have hpos := length_pos_iff.mpr hin
  generalize hk : s.nextTransfer (min length s.incoming.length) = k
  have hbounds : 0 < k ∧ k ≤ length ∧ k ≤ s.incoming.length := by
    rw [← hk, Socket.nextTransfer]
    omega
  have htake : (s.incoming.take k).length = k := by
    rw [length_take]
    omega
  have hrecv : Socket.recv iovs (s, g) = .ok (k : ℤ)
      (s.received k, { g with nodes := ByteArray.scatter iovs (s.incoming.take k) g.nodes }) := by
    simp only [Socket.recv, Socket.isConnected, hs, if_true, htotal, hk,
      intOfSize_eq (by omega : k < 2 ^ 31)]
  obtain ⟨ba', hset, hwritten, hcap⟩ := fill_written h hgrown hcons
    (by omega : (s.incoming.take k).length ≤ _) (by omega)
  rw [htake] at hset
  refine ⟨k, s.received k, ba', ?_, hbounds.1, hbounds.2.1, hbounds.2.2, hs, rfl, rfl, hwritten,
    by rwa [hcap]⟩
  rw [read, bind_ok (get_run _)]
  dsimp only
  rw [Socket.isConnected, if_pos hs, bind_ok (onSnd_ok s hg)]
  rw [bind_ok hrecv]
  exact finish_pos hbounds.1 hset

theorem write_step {length : ℕ} (h : ba.Wf) (hs : s.connected = true) (h0 : 0 < length)
    (hlen : length < 2 ^ 31) (hread : length ≤ ba.getReadSize) :
    ∃ (k : ℕ) (s' : Socket), write length (s, ba) = .ok (k : ℤ) (s', ba.advance k) ∧
      0 < k ∧ k ≤ length ∧ s'.connected = true ∧ s'.incoming = s.incoming ∧
      s'.outgoing = s.outgoing ++ ba.unread.take k := by
  obtain ⟨iovs, hg, hcons, htotal⟩ := getReadBuffers_ok h h0 hread
  generalize hk : s.nextTransfer length = k
  have hbounds : 0 < k ∧ k ≤ length := by
    rw [← hk, Socket.nextTransfer]
    omega
  have hsend : Socket.send iovs (s, ba) = .ok (k : ℤ)
      (s.sent (ba.unread.take k), ba) := by
    simp only [Socket.send, Socket.isConnected, hs, if_true, htotal, hk,
      intOfSize_eq (by omega : k < 2 ^ 31),
      gather_unread h hcons (by omega : k ≤ _) (by omega)]
  have hset := setPosition_advance h (by omega : k ≤ ba.getReadSize)
  refine ⟨k, s.sent (ba.unread.take k), ?_, hbounds.1, hbounds.2, hs, rfl, rfl⟩
  rw [write, bind_ok (get_run _)]
  dsimp only
  rw [Socket.isConnected, if_pos hs, bind_ok (onSnd_ok s hg)]
  rw [bind_ok hsend]
  exact finish_pos hbounds.1 hset

theorem readFixSize_ok (h : ba.Wf) (hs : s.connected = true) (hn : n < 2 ^ 31)
    (hin : n ≤ s.incoming.length) :
    ∃ s' ba', readFixSize n (s, ba) = .ok (n : ℤ) (s', ba') ∧ s'.connected = true ∧
      s'.incoming = s.incoming.drop n ∧ s'.outgoing = s.outgoing ∧
      ba.Written (s.incoming.take n) ba' ∧
      (ba'.capacity = ba.capacity ∨ ba'.capacity < ba.position + n + ba.baseSize) := by
  let P : ℕ → Socket × ByteArray → Prop := fun done t =>
    t.1.connected = true ∧ t.1.incoming = s.incoming.drop done ∧ t.1.outgoing = s.outgoing ∧
      ba.Written (s.incoming.take done) t.2 ∧
      (t.2.capacity = ba.capacity ∨ t.2.capacity < ba.position + n + ba.baseSize)
  have hstep : Stream.Moves read n P False := by
    rintro done left ⟨s₁, ba₁⟩ hsum hleft ⟨hs₁, hin₁, hout₁, hw₁, hcap₁⟩
    have hne : s₁.incoming ≠ [] := by
      rw [hin₁, ← length_pos_iff, length_drop]
      omega
    obtain ⟨k, s₂, ba₂, hread, hk, hle, -, hs₂, hin₂, hout₂, hw₂, hcap₂⟩ :=
      read_step hw₁.wf hs₁ hleft (by omega) hne
    refine .inr ⟨k, (s₂, ba₂), hread, hk, hle, hs₂, ?_, hout₂.trans hout₁, ?_, ?_⟩
    · rw [hin₂, hin₁, drop_drop]
    · rw [take_add, ← hin₁]
      exact hw₁.append h hw₂
    · have hpos := hw₁.position_eq
      have hbase := hw₁.baseSize_eq
      rw [length_take] at hpos
      dsimp only at *
      omega
  have hstart : P 0 (s, ba) := ⟨hs, rfl, rfl, written_nil h, .inl rfl⟩
  obtain ⟨⟨s', ba'⟩, hrun, hP⟩ := Stream.fixSize_rule hstep hstart
  rw [intOfSize_eq hn] at hrun
  exact ⟨s', ba', hrun, hP⟩

theorem writeFixSize_ok (h : ba.Wf) (hs : s.connected = true) (hn : n < 2 ^ 31)
    (hread : n ≤ ba.getReadSize) :
    ∃ s', writeFixSize n (s, ba) = .ok (n : ℤ) (s', ba.advance n) ∧ s'.connected = true ∧
      s'.incoming = s.incoming ∧ s'.outgoing = s.outgoing ++ ba.unread.take n := by
  let P : ℕ → Socket × ByteArray → Prop := fun done t =>
    t.2 = ba.advance done ∧ t.1.connected = true ∧ t.1.incoming = s.incoming ∧
      t.1.outgoing = s.outgoing ++ ba.unread.take done
  have hstep : Stream.Moves write n P False := by
    rintro done left ⟨s₁, ba₁⟩ hsum hleft ⟨rfl, hs₁, hin₁, hout₁⟩
    have hwf := advance_wf h (by omega : done ≤ ba.getReadSize)
    have hrest : left ≤ (ba.advance done).getReadSize := by
      simp only [getReadSize, ByteArray.advance] at hread ⊢
      omega
    obtain ⟨k, s₂, hwrite, hk, hle, hs₂, hin₂, hout₂⟩ := write_step hwf hs₁ hleft (by omega) hrest
    refine .inr ⟨k, _, hwrite, hk, hle, advance_advance ba done k, hs₂, hin₂.trans hin₁, ?_⟩
    rw [hout₂, hout₁, advance_unread, append_assoc, ← take_add]
  have hstart : P 0 (s, ba) := ⟨(advance_zero h).symm, hs, rfl, by simp⟩
  obtain ⟨⟨s', ba'⟩, hrun, rfl, hP⟩ := Stream.fixSize_rule hstep hstart
  rw [intOfSize_eq hn] at hrun
  exact ⟨s', hrun, hP⟩

/-- Fixed size transfers over a socket that cuts them arbitrarily: receiving
leaves the array as one `write` of the bytes does, and sending hands over the
bytes at the cursor. Such a `write` returns whenever `base_size` is not zero. -/
theorem fixSize_transfers {ba : ByteArray} (h : ByteArray.Reachable ba) (s : Socket)
    (hs : s.connected = true) (n : ℕ) (h1 : 1 ≤ n) (hn : n < 2 ^ 31) :
    (n ≤ s.incoming.length → (∀ w, ByteArray.write (s.incoming.take n) ba = .ok () w →
        ∃ s' r, readFixSize n (s, ba) = .ok (n : ℤ) (s', r) ∧
          s'.incoming = s.incoming.drop n ∧
          r.contents = w.contents ∧ r.size = w.size ∧ r.position = w.position) ∧
      (0 < ba.baseSize → ∃ w, ByteArray.write (s.incoming.take n) ba = .ok () w)) ∧
    (n ≤ ba.getReadSize → ∃ s' r, writeFixSize n (s, ba) = .ok (n : ℤ) (s', r) ∧
        s'.outgoing = s.outgoing ++ ba.unread.take n ∧
        r.position = ba.position + n ∧ r.contents = ba.contents ∧ r.size = ba.size) := by
  rcases h.wf_or_hollow with hwf | hhollow
  · refine ⟨fun hin => ⟨fun w hw => ?_, fun _ => ?_⟩, fun hread => ?_⟩
    · obtain ⟨s', r, hrun, -, hrest, -, hr, -⟩ := readFixSize_ok hwf hs hn hin
      have hwritten := write_ok hwf hw
      refine ⟨s', r, hrun, hrest, ?_, ?_, ?_⟩
      · rw [hr.contents_eq, hwritten.contents_eq]
      · rw [hr.size_eq hwf, hwritten.size_eq hwf]
      · rw [hr.position_eq, hwritten.position_eq]
    · apply write_total hwf
      rw [length_take]
      omega
    · obtain ⟨s', hrun, -, -, hout⟩ := writeFixSize_ok hwf hs hn hread
      exact ⟨s', ba.advance n, hrun, hout, rfl, rfl, rfl⟩
  · refine ⟨fun hin => ⟨fun w hw => ?_, fun hb => ?_⟩, fun hread => ?_⟩
    · have hne : s.incoming.take n ≠ [] := by
        rw [← length_pos_iff, length_take]
        omega
      cases hw.symm.trans (hhollow.write_crash hne)
    · have := hhollow.baseSize_eq
      omega
    · rw [hhollow.getReadSize_eq] at hread
      omega

theorem fixSize_transfers_two : ∃ w s' r,
    ByteArray.write [5, 6] (ByteArray.create 1 fun _ => 0) = .ok () w ∧
    readFixSize 2 (⟨true, [5, 6, 7], [], fun _ => 1⟩, ByteArray.create 1 fun _ => 0) =
      .ok 2 (s', r) ∧ r.contents = w.contents := by
  have h := fixSize_transfers (.create 1 fun _ => 0) ⟨true, [5, 6, 7], [], fun _ => 1⟩ rfl 2
    (by simp) (by simp)
  obtain ⟨hsame, hreturns⟩ := h.1 (by decide)
  obtain ⟨w, hw⟩ := hreturns (by decide)
  obtain ⟨s', r, hrun, -, hcontents, -⟩ := hsame w hw
  exact ⟨w, s', r, hw, hrun, hcontents⟩

end SocketStream
end JKYi
