import JKYi.ByteArray.Codec

/-!
# Readers on two arrays

Two arrays that agree on the next bytes, on how many are left and on whether the memory ends
behind them look the same to a reader that takes no more than these bytes. `Takes` is a
single read with a conversion; `Twin.bind` is the rule for a sequence of reads, and
`Takes.fails_bind` the one for a sequence that throws.
-/

namespace JKYi.ByteArray

open Run List

/-- The same result up to `φ`, or both throw, or both crash. -/
inductive Alike {σ α γ : Type} (φ : α → γ) : Outcome Exn σ α → Outcome Exn σ α → Prop
  | ok {a a' : α} (s s' : σ) (h : φ a' = φ a) : Alike φ (.ok a s) (.ok a' s')
  | raised (e e' : Exn) (s s' : σ) : Alike φ (.raised e s) (.raised e' s')
  | crash : Alike φ .crash .crash

/-- Two arrays that a reader of at most `k` bytes cannot tell apart. -/
structure Twin (k : ℕ) (ba ba' : ByteArray) : Prop where
  wf : ba.Wf
  wf' : ba'.Wf
  endian_eq : ba.endian = .big
  endian_eq' : ba'.endian = .big
  left_eq : ba'.getReadSize = ba.getReadSize
  full_iff : ba'.size = ba'.capacity ↔ ba.size = ba.capacity
  bytes_eq : ba'.unread.take k = ba.unread.take k

def taken {α : Type} (n : ℕ) (v : List UInt8 → α) (ba : ByteArray) : Outcome Exn ByteArray α :=
  if ba.getReadSize < n then .raised (.outOfRange "not enough data to read") ba
  else if n = 0 ∧ ba.getReadSize = 0 ∧ ba.size = ba.capacity then .crash
  else .ok (v (ba.unread.take n)) (ba.advance n)

def Takes {α : Type} (n : ℕ) (x : Run Exn ByteArray α) : Prop :=
  ∃ v : List UInt8 → α, ∀ ba : ByteArray, ba.Wf → ba.endian = .big → x ba = taken n v ba

def Fails {σ α : Type} (x : Run Exn σ α) (s : σ) : Prop := ∃ e s', x s = .raised e s'

section

variable {α β : Type} {x : Run Exn ByteArray α} {n k : ℕ} {ba ba' : ByteArray}

theorem read_eq_taken (hwf : ba.Wf) : read n ba = taken n id ba := by
  have hpos := hwf.position_le
  have hsize := hwf.size_le
  unfold taken
  split_ifs with hlt hend
  · exact read_raised hlt
  · obtain ⟨rfl, hempty, hfull⟩ := hend
    unfold getReadSize at hempty
    exact read_crash hwf (by omega)
  · rcases read_cases hwf (not_lt.mp hlt) with ⟨-, hok⟩ | ⟨h0, hcap, -⟩
    · exact hok
    · unfold getReadSize at hend
      omega

theorem takes_read (n : ℕ) : Takes n (read n) := ⟨id, fun _ hwf _ => read_eq_taken hwf⟩

theorem Takes.map (hx : Takes n x) (f : α → β) : Takes n (x >>= fun a => pure (f a)) := by
  obtain ⟨v, hv⟩ := hx
  refine ⟨fun d => f (v d), fun ba hwf he => ?_⟩
  have hrun := hv ba hwf he
  unfold taken at hrun ⊢
  split_ifs at hrun ⊢
  · exact bind_raised hrun
  · exact bind_crash hrun
  · exact bind_ok hrun

theorem takes_readFuint8 : Takes 1 readFuint8 := (takes_read 1).map _

theorem takes_readFixed (n : ℕ) : Takes n (readFixed n) := by
  obtain ⟨v, hv⟩ := (takes_read n).map fun d => byteswap n (ofLeBytes d)
  refine ⟨v, fun ba hwf he => ?_⟩
  rw [← hv ba hwf he, readFixed]
  have hrun := read_eq_taken (n := n) hwf
  have hswap : (ba.advance n).endian ≠ hostByteOrder := by
    change ba.endian ≠ _
    rw [he]
    decide
  unfold taken at hrun
  split_ifs at hrun
  · rw [bind_raised hrun, bind_raised hrun]
  · rw [bind_crash hrun, bind_crash hrun]
  · rw [bind_ok hrun, bind_ok hrun, bind_ok (get_run _), if_pos hswap]

theorem takes_readFuint16 : Takes 2 readFuint16 := (takes_readFixed 2).map _

theorem takes_readFuint32 : Takes 4 readFuint32 := (takes_readFixed 4).map _

theorem takes_readResized (hn : n ≤ stringMaxSize) : Takes n (readResized n) := by
  rw [readResized, if_neg (not_lt.mpr hn)]
  exact takes_read n

theorem Takes.cases (hx : Takes n x) (hwf : ba.Wf) (he : ba.endian = .big) :
    (∃ a, n ≤ ba.getReadSize ∧ x ba = .ok a (ba.advance n)) ∨
    (ba.getReadSize < n ∧ Fails x ba) ∨
    (n = 0 ∧ ba.getReadSize = 0 ∧ ba.size = ba.capacity ∧ x ba = .crash) := by
  obtain ⟨v, hv⟩ := hx
  rw [Fails, hv ba hwf he, taken]
  split_ifs with hlt hend
  · exact .inr (.inl ⟨hlt, _, _, rfl⟩)
  · exact .inr (.inr ⟨hend.1, hend.2.1, hend.2.2, rfl⟩)
  · exact .inl ⟨_, not_lt.mp hlt, rfl⟩

theorem Fails.bind_left {σ : Type} {y : Run Exn σ α} {f : α → Run Exn σ β} {s : σ}
    (h : Fails y s) : Fails (y >>= f) s := by
  obtain ⟨e, s', h⟩ := h
  exact ⟨e, s', bind_raised h⟩

theorem Fails.bind_right {σ : Type} {y : Run Exn σ α} {f : α → Run Exn σ β} {s s' : σ} {a : α}
    (hy : y s = .ok a s') (h : Fails (f a) s') : Fails (y >>= f) s := by
  obtain ⟨e, s'', h⟩ := h
  exact ⟨e, s'', (bind_ok hy).trans h⟩

theorem Takes.fails_bind (hx : Takes n x) (hroom : 0 < n ∨ ba.size < ba.capacity) (hwf : ba.Wf)
    (he : ba.endian = .big) {f : α → Run Exn ByteArray β}
    (hf : ∀ a, n ≤ ba.getReadSize → x ba = .ok a (ba.advance n) → Fails (f a) (ba.advance n)) :
    Fails (x >>= f) ba := by
  rcases hx.cases hwf he with ⟨a, hle, hok⟩ | ⟨-, hfail⟩ | ⟨h0, -, hfull, -⟩
  · exact .bind_right hok (hf a hle hok)
  · exact hfail.bind_left
  · omega

end

variable {α β γ : Type} {x : Run Exn ByteArray α} {n k : ℕ} {ba ba' : ByteArray} {φ : β → γ}

theorem alike_of_fails {σ : Type} {y y' : Run Exn σ β} {s s' : σ} (h : Fails y s)
    (h' : Fails y' s') : Alike φ (y s) (y' s') := by
  obtain ⟨e, t, h⟩ := h
  obtain ⟨e', t', h'⟩ := h'
  rw [h, h']
  exact .raised ..

theorem getReadSize_advance (ba : ByteArray) (n : ℕ) :
    (ba.advance n).getReadSize = ba.getReadSize - n := by
  simp only [getReadSize, advance]
  omega

theorem Twin.advance (h : Twin k ba ba') (hn : n ≤ ba.getReadSize) :
    Twin (k - n) (ba.advance n) (ba'.advance n) := by
  refine ⟨advance_wf h.wf hn, advance_wf h.wf' (by rwa [h.left_eq]), h.endian_eq, h.endian_eq',
    ?_, h.full_iff, ?_⟩
  · rw [getReadSize_advance, getReadSize_advance, h.left_eq]
  · have hbytes := congrArg (drop n) h.bytes_eq
    rw [advance_unread, advance_unread]
    rwa [drop_take, drop_take] at hbytes

theorem Twin.bind (h : Twin k ba ba') (hx : Takes n x) (hk : n ≤ k ∨ ba.getReadSize < n)
    {f : α → Run Exn ByteArray β}
    (hf : ∀ a, n ≤ ba.getReadSize → n ≤ k → x ba = .ok a (ba.advance n) →
      Twin (k - n) (ba.advance n) (ba'.advance n) →
      Alike φ (f a (ba.advance n)) (f a (ba'.advance n))) :
    Alike φ ((x >>= f) ba) ((x >>= f) ba') := by
  obtain ⟨v, hv⟩ := hx
  have hrun := hv ba h.wf h.endian_eq
  have hrun' := hv ba' h.wf' h.endian_eq'
  simp only [taken, h.left_eq, h.full_iff] at hrun hrun'
  split_ifs at hrun hrun' with hlt hend
  · rw [bind_raised hrun, bind_raised hrun']
    exact .raised ..
  · rw [bind_crash hrun, bind_crash hrun']
    exact .crash
  · have hnk : n ≤ k := hk.resolve_right hlt
    have hle := not_lt.mp hlt
    have hbytes := congrArg (take n) h.bytes_eq
    rw [take_take, take_take, min_eq_left hnk] at hbytes
    rw [hbytes] at hrun'
    rw [bind_ok hrun, bind_ok hrun']
    exact hf _ hle hnk hrun (h.advance hle)

theorem readFuint8_inv {a : UInt8} (h : ba.Wf) (hrun : readFuint8 ba = .ok a ba') :
    ∃ rest, ba.unread = a :: rest := by
  obtain ⟨d, s, hread, hpure⟩ := bind_eq_ok_iff.mp hrun
  obtain ⟨hlen, rfl, -⟩ := read_inv h hread
  rw [← length_unread h] at hlen
  cases hd : ba.unread with
  | nil => simp [hd] at hlen
  | cons b rest =>
    have ha : UInt8.ofNat (ofLeBytes [b]) = a := by
      rw [hd] at hpure
      cases hpure
      rfl
    refine ⟨rest, ?_⟩
    rw [← ha]
    simp [ofLeBytes]

/-- A variable length integer takes up to `rounds` bytes, and all of them only if it goes on
behind each byte but the last. -/
theorem Twin.bind_varint (w : ℕ) {f : ℕ → Run Exn ByteArray β} : ∀ (rounds i result k : ℕ)
    (ba ba' : ByteArray), Twin k ba ba' → rounds ≤ k ∨ ba.getReadSize ≤ k →
    (∀ a v, v ≤ rounds → v ≤ ba.getReadSize →
      (v = rounds → ∀ b ∈ ba.unread.take (rounds - 1), 0x80 ≤ b) →
      Twin (k - v) (ba.advance v) (ba'.advance v) →
      Alike φ (f a (ba.advance v)) (f a (ba'.advance v))) →
    Alike φ ((readVarint w rounds i result >>= f) ba)
      ((readVarint w rounds i result >>= f) ba') := by
  intro rounds
  induction rounds with
  | zero =>
    intro i result k ba ba' h _ hf
    have hdone := hf result 0 le_rfl (Nat.zero_le _) (by simp) (h.advance (Nat.zero_le _))
    rwa [advance_zero h.wf, advance_zero h.wf'] at hdone
  | succ rounds ih =>
    intro i result k ba ba' h hk hf
    rw [readVarint, bind_assoc]
    refine h.bind takes_readFuint8 (by omega) fun b hb hbk hread hnext => ?_
    have hsize := getReadSize_advance ba 1
    obtain ⟨rest, hrest⟩ := readFuint8_inv h.wf hread
    have htail : (ba.advance 1).unread = rest := by rw [advance_unread, hrest]; rfl
    split_ifs with hlast
    · refine hf _ 1 (by omega) hb (fun hone => ?_) hnext
      obtain rfl : rounds = 0 := by omega
      simp
    · refine ih _ _ _ _ _ hnext (by omega) fun a v hv hleft hall hfar => ?_
      rw [advance_advance, advance_advance] at hfar ⊢
      rw [Nat.sub_sub] at hfar
      refine hf a (1 + v) (by omega) (by omega) (fun hv' => ?_) hfar
      obtain rfl : v = rounds := by omega
      cases v with
      | zero => simp
      | succ v =>
        rw [htail] at hall
        rw [hrest]
        intro c hc
        rcases mem_cons.mp hc with rfl | hc
        · exact UInt8.not_lt.mp hlast
        · exact hall rfl c hc

theorem readVarint_ne_crash (w : ℕ) : ∀ (rounds i result : ℕ) (ba : ByteArray), ba.Wf →
    ba.endian = .big → readVarint w rounds i result ba ≠ .crash := by
  intro rounds
  induction rounds with
  | zero =>
    intro i result ba _ _ h
    cases h
  | succ rounds ih =>
    intro i result ba hwf he
    rw [readVarint]
    rcases takes_readFuint8.cases hwf he with ⟨a, hle, hok⟩ | ⟨-, e, s, hraised⟩ | ⟨h0, -⟩
    · rw [bind_ok hok]
      split_ifs
      · intro h
        cases h
      · exact ih _ _ _ (advance_wf hwf hle) he
    · rw [bind_raised hraised]
      intro h
      cases h
    · omega

theorem readVarint_continued (w : ℕ) : ∀ (rounds i result : ℕ) (ba : ByteArray), ba.Wf →
    ba.endian = .big → rounds ≤ ba.getReadSize →
    (∀ b ∈ ba.unread.take (rounds - 1), 0x80 ≤ b) →
    ∃ a, readVarint w rounds i result ba = .ok a (ba.advance rounds) := by
  intro rounds
  induction rounds with
  | zero =>
    intro i result ba hwf _ _ _
    refine ⟨result, ?_⟩
    rw [advance_zero hwf]
    rfl
  | succ rounds ih =>
    intro i result ba hwf he hleft hall
    rw [readVarint]
    rcases takes_readFuint8.cases hwf he with ⟨b, hle, hok⟩ | ⟨hlt, -⟩ | ⟨h0, -⟩
    · obtain ⟨rest, hrest⟩ := readFuint8_inv hwf hok
      have htail : (ba.advance 1).unread = rest := by rw [advance_unread, hrest]; rfl
      have hsize := getReadSize_advance ba 1
      rw [bind_ok hok]
      cases rounds with
      | zero =>
        split_ifs
        · exact ⟨_, rfl⟩
        · exact ⟨_, rfl⟩
      | succ rounds =>
        rw [hrest, Nat.add_sub_cancel, take_succ_cons, forall_mem_cons] at hall
        rw [if_neg (UInt8.not_lt.mpr hall.1)]
        have hnext := ih (i + 7) (result ||| ((b &&& 0x7f).toNat <<< i) % 2 ^ w) (ba.advance 1)
          (advance_wf hwf hle) he (by omega) (by rw [htail]; exact hall.2)
        rw [advance_advance, Nat.add_comm 1] at hnext
        exact hnext
    · omega
    · omega

end JKYi.ByteArray
