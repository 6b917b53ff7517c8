import JKYi.Stream.SocketStream

/-!
# Streams over plain buffers

The overloads of `read`, `write`, `readFixSize` and `writeFixSize` on plain
memory. A buffer that is read into is the list of the bytes filled so far; one
that is written from is the list of the bytes that are left.
-/

namespace JKYi

open List Run Socket JKYi.Stream

variable {ε : Type}

namespace Socket

def maxTransfer : ℕ := 0x7ffff000

def recvBuffer (len : ℕ) : Run ε Socket (ℤ × List UInt8) := fun s =>
  if s.isConnected then
    let k := s.nextTransfer (min (min len maxTransfer) s.incoming.length)
    .ok (intOfSize k, s.incoming.take k) (s.received k)
  else .ok (-1, []) s

def sendBuffer (buffer : List UInt8) : Run ε Socket ℤ := fun s =>
  if s.isConnected then
    let k := s.nextTransfer (min buffer.length maxTransfer)
    .ok (intOfSize k) (s.sent (buffer.take k))
  else .ok (-1) s

/-- How many bytes the next read of up to `len` bytes returns. -/
def arriving (s : Socket) (len : ℕ) : ℕ :=
  s.nextTransfer (min (min len maxTransfer) s.incoming.length)

/-- `Socket::close`. -/
def close : Run ε Socket Unit := fun s => .ok () { s with connected := false }

structure Moved (s : Socket) (i o : List UInt8) (s' : Socket) : Prop where
  connected : s.connected = true → s'.connected = true
  incoming : s.incoming = i ++ s'.incoming
  outgoing : s'.outgoing = s.outgoing ++ o

theorem Moved.refl (s : Socket) : Moved s [] [] s := ⟨id, rfl, by simp⟩

theorem Moved.trans {s s₁ s₂ : Socket} {i i' o o' : List UInt8} (h : Moved s i o s₁)
    (h' : Moved s₁ i' o' s₂) : Moved s (i ++ i') (o ++ o') s₂ := by
  refine ⟨h'.connected ∘ h.connected, ?_, ?_⟩
  · rw [h.incoming, h'.incoming, append_assoc]
  · rw [h'.outgoing, h.outgoing, append_assoc]

variable (s : Socket)

theorem arriving_le (len : ℕ) : s.arriving len ≤ len := by
  rw [arriving, nextTransfer]
  omega

theorem arriving_le_incoming (len : ℕ) : s.arriving len ≤ s.incoming.length := by
  rw [arriving, nextTransfer]
  omega

theorem arriving_lt (len : ℕ) : s.arriving len < 2 ^ 31 := by
  rw [arriving, nextTransfer, maxTransfer]
  omega

theorem arriving_pos {len : ℕ} (h0 : 0 < len) (hin : s.incoming ≠ []) : 0 < s.arriving len := by
  have hpos := length_pos_iff.mpr hin
  rw [arriving, nextTransfer, maxTransfer]
  omega

theorem moved_received (k : ℕ) (hs : s.connected = true) :
    s.Moved (s.incoming.take k) [] (s.received k) := by
  refine ⟨fun _ => hs, ?_, ?_⟩
  · rw [received, take_append_drop]
  · rw [received, append_nil]

end Socket

namespace SocketStream

def readBuffer (length : ℕ) : Run ε (List UInt8 × Socket) ℤ := do
  let (_, s) ← Run.get
  if s.isConnected then do
    let (rt, d) ← Run.onSnd (recvBuffer length)
    Run.assign fun buffer => buffer ++ d
    pure rt
  else pure (-1)

def writeBuffer (length : ℕ) : Run ε (List UInt8 × Socket) ℤ := do
  let (buffer, s) ← Run.get
  if s.isConnected then do
    let rt ← Run.onSnd (sendBuffer (buffer.take length))
    Run.assign fun buffer => buffer.drop rt.toNat
    pure rt
  else pure (-1)

def readFixBuffer (length : ℕ) : Run ε Socket (ℤ × List UInt8) :=
  Run.withObject [] (fixSize readBuffer length)

def writeFixBuffer (buffer : List UInt8) : Run ε Socket ℤ := do
  let (rt, _) ← Run.withObject buffer (fixSize writeBuffer buffer.length)
  pure rt

/-- `SocketStream::close`. -/
def close (owner : Bool) : Run ε Socket Unit := if owner then Socket.close else pure ()

variable {s : Socket}

theorem readBuffer_eq (length : ℕ) (buffer : List UInt8) (hs : s.connected = true) :
    (readBuffer length : Run ε _ ℤ) (buffer, s) =
      .ok (s.arriving length : ℤ)
        (buffer ++ s.incoming.take (s.arriving length), s.received (s.arriving length)) := by
  have hrecv : (recvBuffer length : Run ε _ _) s =
      .ok ((s.arriving length : ℤ), s.incoming.take (s.arriving length))
        (s.received (s.arriving length)) := by
    have hint := intOfSize_eq (s.arriving_lt length)
    rw [Socket.arriving] at hint ⊢
    simp only [recvBuffer, isConnected, hs, if_true, hint]
  rw [readBuffer, bind_ok (get_run _)]
  dsimp only
  rw [isConnected, if_pos hs, bind_ok (onSnd_ok buffer hrecv)]
  rfl

theorem readBuffer_step {length : ℕ} (buffer : List UInt8) (hs : s.connected = true)
    (h0 : 0 < length) (hin : s.incoming ≠ []) : ∃ (k : ℕ) (s' : Socket),
      (readBuffer length : Run ε _ ℤ) (buffer, s) = .ok k (buffer ++ s.incoming.take k, s') ∧
      0 < k ∧ k ≤ length ∧ k ≤ s.incoming.length ∧ s.Moved (s.incoming.take k) [] s' :=
  ⟨s.arriving length, _, readBuffer_eq length buffer hs, s.arriving_pos h0 hin,
    s.arriving_le length, s.arriving_le_incoming length, s.moved_received _ hs⟩

theorem readBuffer_end (length : ℕ) (buffer : List UInt8) (hs : s.connected = true)
    (hin : s.incoming = []) :
    (readBuffer length : Run ε _ ℤ) (buffer, s) = .ok 0 (buffer, s.received 0) := by
  have hnone : s.arriving length = 0 := by
    have hle := s.arriving_le_incoming length
    rw [hin] at hle
    exact Nat.le_zero.mp hle
  have hread := readBuffer_eq (ε := ε) length buffer hs
  rwa [hnone, take_zero, append_nil] at hread

theorem writeBuffer_step {length : ℕ} {buffer : List UInt8} (hs : s.connected = true)
    (h0 : 0 < length) (hlen : length ≤ buffer.length) : ∃ (k : ℕ) (s' : Socket),
      (writeBuffer length : Run ε _ ℤ) (buffer, s) = .ok k (buffer.drop k, s') ∧
      0 < k ∧ k ≤ length ∧ s.Moved [] (buffer.take k) s' := by
  generalize hk : s.nextTransfer (min length maxTransfer) = k
  have hbounds : 0 < k ∧ k ≤ length ∧ k < 2 ^ 31 := by
    rw [← hk, nextTransfer, maxTransfer]
    omega
  have htake : (buffer.take length).length = length := by
    rw [length_take, Nat.min_eq_left hlen]
  have hsend : (sendBuffer (buffer.take length) : Run ε _ _) s =
      .ok (k : ℤ) (s.sent (buffer.take k)) := by
    simp only [sendBuffer, isConnected, hs, if_true, htake, hk,
      intOfSize_eq hbounds.2.2, take_take, Nat.min_eq_left hbounds.2.1]
  refine ⟨k, s.sent (buffer.take k), ?_, hbounds.1, hbounds.2.1, fun _ => hs, rfl, rfl⟩
  rw [writeBuffer, bind_ok (get_run _)]
  dsimp only
  rw [isConnected, if_pos hs, bind_ok (onSnd_ok buffer hsend)]
  rfl

theorem readFixBuffer_ok {n : ℕ} (hs : s.connected = true) (hin : n ≤ s.incoming.length) :
    ∃ s', (readFixBuffer n : Run ε _ _) s = .ok (intOfSize n, s.incoming.take n) s' ∧
      s.Moved (s.incoming.take n) [] s' := by
  let P : ℕ → List UInt8 × Socket → Prop := fun done t =>
    t.1 = s.incoming.take done ∧ s.Moved (s.incoming.take done) [] t.2
  have hstep : Moves (readBuffer (ε := ε)) n P False := by
    rintro done left ⟨buffer, s₁⟩ hsum hleft ⟨rfl, hmoved⟩
    have hdrop : s₁.incoming = s.incoming.drop done := by
      have hsplit := hmoved.incoming
      conv_lhs at hsplit => rw [← take_append_drop done s.incoming]
      exact (append_cancel_left hsplit).symm
    have hne : s₁.incoming ≠ [] := by
      rw [hdrop, ← length_pos_iff, length_drop]
      omega
    obtain ⟨k, s₂, hread, hk, hle, -, hmoved₂⟩ :=
      readBuffer_step (s.incoming.take done) (hmoved.connected hs) hleft hne
    have htake : s.incoming.take (done + k) = s.incoming.take done ++ s₁.incoming.take k := by
      rw [hdrop, take_add]
    refine .inr ⟨k, _, hread, hk, hle, htake.symm, ?_⟩
    rw [htake]
    exact hmoved.trans hmoved₂
  obtain ⟨⟨buffer, s'⟩, hrun, rfl, hmoved⟩ :=
    fixSize_rule hstep (s := ([], s)) ⟨rfl, Socket.Moved.refl s⟩
  exact ⟨s', withObject_ok hrun, hmoved⟩

theorem readFixBuffer_short {n : ℕ} (hs : s.connected = true) (hin : s.incoming.length < n) :
    ∃ d s', (readFixBuffer n : Run ε _ _) s = .ok (0, d) s' := by
  let P : ℕ → List UInt8 × Socket → Prop := fun done t =>
    t.2.connected = true ∧ t.2.incoming.length + done < n
  have hstep : Moves (readBuffer (ε := ε)) n P True := by
    rintro done left ⟨buffer, s₁⟩ - hleft ⟨hs₁, hshort⟩
    by_cases hne : s₁.incoming = []
    · exact .inl ⟨_, readBuffer_end left buffer hs₁ hne, trivial⟩
    · obtain ⟨k, s₂, hread, hk, hle, hin₁, hmoved⟩ := readBuffer_step (ε := ε) buffer hs₁ hleft hne
      have hlen := congrArg List.length hmoved.incoming
      rw [length_append, length_take, Nat.min_eq_left hin₁] at hlen
      refine .inr ⟨k, _, hread, hk, hle, hmoved.connected hs₁, ?_⟩
      dsimp only
      omega
  obtain ⟨⟨d, s'⟩, ⟨-, -, hend⟩ | ⟨hrun, -⟩⟩ :=
    fixSize_cases hstep (s := ([], s)) ⟨hs, by simpa using hin⟩
  · omega
  · exact ⟨d, s', withObject_ok hrun⟩

theorem readFixBuffer_closed {n : ℕ} (hs : s.connected = false) (hn : 0 < n) :
    (readFixBuffer n : Run ε _ _) s = .ok (-1, []) s := by
  have hread : (readBuffer n : Run ε _ ℤ) ([], s) = .ok (-1) ([], s) := by
    rw [readBuffer, bind_ok (get_run _)]
    dsimp only
    rw [isConnected, if_neg (by simp [hs]), pure_run]
  exact withObject_ok (fixSize_fails hn hread (by simp))

theorem writeFixBuffer_closed {buffer : List UInt8} (hs : s.connected = false)
    (hbuffer : buffer ≠ []) : (writeFixBuffer buffer : Run ε _ _) s = .ok (-1) s := by
  have hwrite : (writeBuffer buffer.length : Run ε _ ℤ) (buffer, s) = .ok (-1) (buffer, s) := by
    rw [writeBuffer, bind_ok (get_run _)]
    dsimp only
    rw [isConnected, if_neg (by simp [hs]), pure_run]
  have hrun := fixSize_fails (length_pos_iff.mpr hbuffer) hwrite (by simp)
  exact bind_ok (withObject_ok hrun)

theorem writeFixBuffer_ok (buffer : List UInt8) (hs : s.connected = true) :
    ∃ s', (writeFixBuffer buffer : Run ε _ _) s = .ok (intOfSize buffer.length) s' ∧
      s.Moved [] buffer s' := by
  let P : ℕ → List UInt8 × Socket → Prop := fun done t =>
    t.1 = buffer.drop done ∧ s.Moved [] (buffer.take done) t.2
  have hstep : Moves (writeBuffer (ε := ε)) buffer.length P False := by
    rintro done left ⟨rest, s₁⟩ hsum hleft ⟨rfl, hmoved⟩
    have hlen : left ≤ (buffer.drop done).length := by
      rw [length_drop]
      omega
    obtain ⟨k, s₂, hwrite, hk, hle, hmoved₂⟩ :=
      writeBuffer_step (hmoved.connected hs) hleft hlen
    refine .inr ⟨k, _, hwrite, hk, hle, ?_, ?_⟩
    · rw [drop_drop]
    · rw [take_add]
      exact hmoved.trans hmoved₂
  obtain ⟨⟨rest, s'⟩, hrun, -, hmoved⟩ :=
    fixSize_rule hstep (s := (buffer, s)) ⟨rfl, by simpa [P] using Socket.Moved.refl s⟩
  rw [take_length] at hmoved
  exact ⟨s', bind_ok (withObject_ok hrun), hmoved⟩

end SocketStream
end JKYi
