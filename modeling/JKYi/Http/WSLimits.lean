import JKYi.Http.WSRecv
import JKYi.Foundation.Interleaving

/-!
# The limit for the length of a message

`WSRecvMessage` adds the length that a frame declares to `cur_len`, an `int`, and compares the sum
of `uint64_t` with the limit. Where the sum wraps around, or `cur_len` has become negative, a frame
passes that does not fit.
-/

namespace JKYi.Http

open Assembly List Run

def RecvStep (owner client : Bool) (maxSize : ℕ) (p : Assembly × Socket) (head : WSFrameHead)
    (p' : Assembly × Socket) : Prop :=
  ∃ s r, readHead p.2 = .ok head s ∧ recvFrame owner client maxSize head p.1 s = .ok r p'.2 ∧
    (r = none ∧ p'.1 = p.1 ∨ r = some p'.1 ∧ head.fin = false)

/-- The states before the rounds of a call of `WSRecvMessage`, on any stream. -/
def Collected (owner client : Bool) (maxSize : ℕ) : Assembly × Socket → Prop :=
  Reachable (fun p => p.1 = ⟨0, [], 0⟩) (RecvStep owner client maxSize) fun _ _ => True

/-- The next frame carries data, with the length `length`. -/
def Declares (client : Bool) (s : Socket) (length : ℕ) : Prop :=
  ∃ head s₁ s₂, readHead s = .ok head s₁ ∧
    (head.opcode = WSOpcode.cont.code ∨ head.opcode = WSOpcode.textFrame.code ∨
      head.opcode = WSOpcode.binFrame.code) ∧
    (client = false → head.mask = true) ∧ readLength head s₁ = .ok length s₂

variable {owner : Bool} {s s' : Socket} {a' : Assembly} {head : WSFrameHead}

theorem RecvStep.recvLoop {client : Bool} {maxSize : ℕ} {a : Assembly}
    (h : RecvStep owner client maxSize (a, s) head (a', s')) (rounds : ℕ) :
    recvLoop owner client maxSize (rounds + 1) a s =
      recvLoop owner client maxSize rounds a' s' := by
  obtain ⟨s₁, r, hhead, hframe, ⟨rfl, ha⟩ | ⟨rfl, hfin⟩⟩ := h
  · rw [Http.recvLoop, bind_ok hhead, bind_ok hframe]
    dsimp only at ha ⊢
    rw [ha]
  · rw [Http.recvLoop, bind_ok hhead, bind_ok hframe]
    dsimp only
    rw [if_neg (by simp [hfin])]

variable {d : List UInt8}

theorem breakIf_eq_ok_iff {σ : Type} {c : Prop} [Decidable c] {t t' : σ} {u : Unit} :
    breakIf c t = .ok u t' ↔ ¬ c ∧ t' = t := by
  by_cases hc : c
  · rw [breakIf_pos hc]
    simp [hc]
  · rw [breakIf_neg hc]
    simp [hc, eq_comm]

theorem readOrBreak_inv {n : ℕ} (h : readOrBreak n s = .ok d s') :
    0 < intOfSize n ∧ n ≤ s.incoming.length ∧ d = s.incoming.take n ∧
      s'.incoming = s.incoming.drop n := by
  obtain ⟨⟨rt, d₁⟩, t, hread, hrest⟩ := bind_eq_ok_iff.mp h
  obtain ⟨_, t', hbreak, hd⟩ := bind_eq_ok_iff.mp hrest
  obtain ⟨hrt, rfl⟩ := breakIf_eq_ok_iff.mp hbreak
  cases hd
  by_cases hn : n = 0
  · subst hn
    cases hread
    exact absurd (intOfSize_eq (n := 0) (by simp)).le hrt
  cases hs : s.connected with
  | false =>
    rw [SocketStream.readFixBuffer_closed hs (by omega)] at hread
    cases hread
    exact absurd (by simp) hrt
  | true =>
    by_cases hin : n ≤ s.incoming.length
    · obtain ⟨s₁, hok, hmoved⟩ := SocketStream.readFixBuffer_ok (ε := Unit) hs hin
      cases hok.symm.trans hread
      refine ⟨not_le.mp hrt, hin, rfl, ?_⟩
      have hsplit := hmoved.incoming
      conv_lhs at hsplit => rw [← take_append_drop n s.incoming]
      exact (append_cancel_left hsplit).symm
    · obtain ⟨d₂, s₁, hshort⟩ := SocketStream.readFixBuffer_short (ε := Unit) hs (not_le.mp hin)
      cases hshort.symm.trans hread
      exact absurd le_rfl hrt

theorem length_of_readOrBreak {n : ℕ} (h : readOrBreak n s = .ok d s') :
    d.length = n := by
  obtain ⟨-, hle, rfl, -⟩ := readOrBreak_inv h
  exact length_take_of_le hle

theorem readLength_lt {length : ℕ}
    (h : readLength head s = .ok length s') : length < 2 ^ 64 := by
  have hfield {k : ℕ} (hk : k ≤ 8) (hrun : (do
      let len ← readOrBreak k
      pure (toLittleEndian (ofLeBytes len)) : Run Unit Socket ℕ) s = .ok length s') :
      length < 2 ^ 64 := by
    obtain ⟨len, t, hread, hvalue⟩ := bind_eq_ok_iff.mp hrun
    cases hvalue
    have hbound := ofLeBytes_lt len
    rw [length_of_readOrBreak hread] at hbound
    calc ofLeBytes len < 256 ^ k := hbound
      _ ≤ 256 ^ 8 := Nat.pow_le_pow_right (by simp) hk
      _ = 2 ^ 64 := by norm_num
  rw [readLength] at h
  split at h
  · exact hfield (by simp) h
  · split at h
    · exact hfield (by simp) h
    · cases h
      omega

theorem Declares.lt {client : Bool} {length : ℕ} (h : Declares client s length) :
    length < 2 ^ 64 := by
  obtain ⟨_, _, _, -, -, -, hlength⟩ := h
  exact readLength_lt hlength

/-! The count of what has been collected. -/

section

variable {client : Bool} {maxSize : ℕ} {a : Assembly} {length : ℕ}

/-- `cur_len` is the length of the string as an `int`, and the string is below the limit. -/
structure Counted (maxSize : ℕ) (a : Assembly) : Prop where
  curLen : a.curLen = intOfSize a.data.length
  below : a.data.length = 0 ∨ a.data.length < maxSize

theorem Assembly.length_resize (a : Assembly) (length : ℕ) :
    (a.resize length).data.length = ((a.curLen + length) % 2 ^ 64).toNat := by
  simp only [Assembly.resize, length_append, length_take, length_replicate]
  omega

theorem Assembly.append_inv {a : Assembly} {mask : List UInt8}
    (h : a.append head mask d length s = .ok a' s') :
    s' = s ∧ (head.mask = true → a.curLen + length ≤ 2 ^ 31) ∧
      a'.data.length = (a.data.take a.curLen.toNat).length + d.length ∧
      a'.curLen = intOfSize (a.curLen + length).toNat := by
  rw [Assembly.append] at h
  split at h
  · cases h
  · rename_i hindex
    cases h
    refine ⟨rfl, fun hmask => not_lt.mp fun hlarge => hindex ⟨hmask, hlarge⟩, ?_, rfl⟩
    rw [length_append]
    split <;> simp

theorem Counted.exact (ha : Counted maxSize a) (hmax : maxSize < 2 ^ 32) (hlength : length < 2 ^ 64)
    (hindex : ¬ (a.curLen < 0 ∨ (a.resize length).data.length < a.curLen)) :
    a.curLen = a.data.length ∧ a.data.length + length < 2 ^ 64 := by
  have hsmall : a.data.length < 2 ^ 31 := by
    by_contra hlarge
    have hcur := ha.curLen
    rw [intOfSize_high (by omega) (by have := ha.below; omega)] at hcur
    have := ha.below
    omega
  have hcur := ha.curLen
  rw [intOfSize_eq hsmall] at hcur
  rw [length_resize] at hindex
  exact ⟨hcur, by omega⟩

theorem recvData_inv (hmax : maxSize < 2 ^ 32) (ha : Counted maxSize a)
    (h : recvData client maxSize head a s = .ok a' s') :
    ∃ length s₁ mask s₂ d, (client = false → head.mask = true) ∧
      readLength head s = .ok length s₁ ∧ readMask head s₁ = .ok mask s₂ ∧
      readOrBreak length s₂ = .ok d s' ∧ a.curLen = a.data.length ∧
      a.data.length + length < maxSize ∧
      (head.mask = true → a.data.length + length ≤ 2 ^ 31) ∧
      a'.data.length = a.data.length + length ∧
      a'.curLen = intOfSize (a.data.length + length) := by
  obtain ⟨_, s₀, hmask, h₁⟩ := bind_eq_ok_iff.mp h
  obtain ⟨hmasked, hs₀⟩ := breakIf_eq_ok_iff.mp hmask
  obtain ⟨length, s₂, hlength, h₂⟩ := bind_eq_ok_iff.mp h₁
  obtain ⟨_, s₃, hbreak, h₃⟩ := bind_eq_ok_iff.mp h₂
  obtain ⟨hshort, hs₃⟩ := breakIf_eq_ok_iff.mp hbreak
  obtain ⟨mask, s₄, hkey, h₄⟩ := bind_eq_ok_iff.mp h₃
  obtain ⟨d, s₅, hd, h₅⟩ := bind_eq_ok_iff.mp h₄
  subst hs₀ hs₃
  have hindex : ¬ (a.curLen < 0 ∨ (a.resize length).data.length < a.curLen) := by
    intro hout
    rw [readPayload, curLen_resize, if_pos hout] at hd
    cases hd
  obtain ⟨hcur, hsum⟩ := ha.exact hmax (readLength_lt hlength) hindex
  rw [readPayload_resize hcur hsum] at hd
  obtain ⟨rfl, hroom, hdata', hcur'⟩ := append_inv h₅
  rw [length_of_readOrBreak hd, data_resize hcur hsum, curLen_resize, hcur,
    Int.toNat_natCast, take_left] at hdata'
  rw [curLen_resize, hcur] at hcur' hroom
  rw [tooLong, hcur] at hshort
  refine ⟨length, s₃, mask, s₄, d, ?_, hlength, hkey, hd, hcur, by omega, ?_, hdata', hcur'⟩
  · exact fun hc => eq_true_of_ne_false fun hm => hmasked ⟨hc, hm⟩
  · intro hm
    have := hroom hm
    omega

theorem recvData_counted (hmax : maxSize < 2 ^ 32) (ha : Counted maxSize a)
    (h : recvData client maxSize head a s = .ok a' s') : Counted maxSize a' := by
  obtain ⟨length, _, _, _, _, -, -, -, -, -, hbelow, -, hdata, hcur⟩ := recvData_inv hmax ha h
  refine ⟨?_, .inr ?_⟩
  · rw [hcur, hdata]
  · rw [hdata]
    exact hbelow

theorem recvFrame_some (h : recvFrame owner client maxSize head a s = .ok (some a') s') :
    recvData client maxSize head a s = .ok a' s' := by
  rw [recvFrame] at h
  split at h
  · obtain ⟨_, _, -, h⟩ := bind_eq_ok_iff.mp h
    obtain ⟨_, _, -, h⟩ := bind_eq_ok_iff.mp h
    cases h
  · split at h
    · cases h
    · split at h
      · obtain ⟨_, _, hdata, h⟩ := bind_eq_ok_iff.mp h
        cases h
        exact hdata
      · cases h

theorem Collected.counted {p : Assembly × Socket} (hmax : maxSize < 2 ^ 32)
    (h : Collected owner client maxSize p) : Counted maxSize p.1 := by
  refine h.invariant (P := fun p => Counted maxSize p.1) ?_ ?_
  · intro p hp
    rw [hp]
    exact ⟨(intOfSize_eq (by simp)).symm, .inl rfl⟩
  · rintro p head p' hp - ⟨s, r, -, hframe, ⟨-, hsame⟩ | ⟨rfl, -⟩⟩
    · rwa [hsame]
    · exact recvData_counted hmax hp (recvFrame_some hframe)

end

/-- A frame of this length is below the limit, the string is resized to the sum of the lengths,
and the frame is read into it, without undefined behaviour. -/
structure Fits (maxSize : ℕ) (a : Assembly) (length : ℕ) : Prop where
  below : a.data.length + length < maxSize
  resized : (a.resize length).data.length = a.data.length + length
  inside : 0 ≤ a.curLen ∧ a.curLen + length ≤ (a.resize length).data.length
  read : readPayload (a.resize length) length = readOrBreak length

/-- Neither the sum of `uint64_t` nor `cur_len` takes a frame that is too long for a short one. -/
def NoWrap (maxSize : ℕ) (a : Assembly) (length : ℕ) : Prop :=
  if a.data.length < 2 ^ 31 then a.data.length + length < 2 ^ 64
  else a.data.length + length < 2 ^ 32 ∨ 2 ^ 32 + maxSize ≤ a.data.length + length

theorem Fits.of_exact {maxSize length : ℕ} {a : Assembly} (hcur : a.curLen = a.data.length)
    (hsum : a.data.length + length < 2 ^ 64) (hbelow : a.data.length + length < maxSize) :
    Fits maxSize a length := by
  have hresized : (a.resize length).data.length = a.data.length + length := by
    rw [data_resize hcur hsum, length_append, length_replicate]
  exact ⟨hbelow, hresized, by omega, readPayload_resize hcur hsum⟩

/-- A frame that passes the limit fits, exactly if nothing has wrapped around. -/
theorem accepted_fits_iff_noWrap (owner client : Bool) (maxSize : UInt32) (a : Assembly)
    (s : Socket) (hcollected : Collected owner client maxSize.toNat (a, s)) (length : ℕ)
    (hdeclares : Declares client s length) :
    (¬ a.tooLong maxSize.toNat length → Fits maxSize.toNat a length) ↔
      NoWrap maxSize.toNat a length := by
  have hmax := maxSize.toNat_lt
  have hlength := hdeclares.lt
  obtain ⟨hcur, hbelow⟩ : Counted maxSize.toNat a := hcollected.counted hmax
  rw [tooLong, NoWrap]
  split
  · rename_i hsmall
    rw [intOfSize_eq hsmall] at hcur
    constructor
    · intro h
      by_contra hwrap
      have hfits := h (by omega)
      have := hfits.below
      omega
    · intro hsum hshort
      exact Fits.of_exact hcur hsum (by omega)
  · rw [intOfSize_high (by omega) (by omega)] at hcur
    constructor
    · intro h
      by_contra hwrap
      have hfits := h (by omega)
      have := hfits.below
      omega
    · intro hsum hshort
      exact absurd (by omega) hshort

theorem accepted_fits_two : Fits 100 ⟨0, [], 0⟩ 2 := by
  have hdeclares : Declares true ⟨true, [0x81, 2, 104, 105], [], fun _ => 1⟩ 2 := by
    obtain ⟨s, hhead, -⟩ := takes_readHead (sendHead ⟨1, [104, 105]⟩ false true)
      ⟨true, [0x81, 2, 104, 105], [], fun _ => 1⟩ [104, 105] rfl rfl
    exact ⟨_, s, s, hhead, .inr (.inl rfl), by simp, rfl⟩
  exact (accepted_fits_iff_noWrap true true 100 ⟨0, [], 0⟩ _ (.start rfl) 2 hdeclares).mpr
    (by norm_num [NoWrap]) (by decide)

/-- With the default limit of 32 MB, a frame behind one of a single byte declares 2^64 - 1 bytes
and passes. The string is resized to nothing, with the index 1 behind its end. -/
theorem wrapped_length_accepted : ∃ (a : Assembly) (s : Socket) (length : ℕ),
    Collected true true 33554432 (a, s) ∧ a.data = [65] ∧ Declares true s length ∧
    length = 2 ^ 64 - 1 ∧ ¬ a.tooLong 33554432 length ∧ (a.resize length).data = [] ∧
    readPayload (a.resize length) length = Run.crash ∧ ¬ Fits 33554432 a length := by
  let s₀ : Socket := ⟨true, [1, 1, 65, 128, 127] ++ replicate 8 255, [], fun _ => 1⟩
  have hruns : ∃ s, (do
      let head ← readHead
      let r ← recvFrame true true 33554432 head ⟨0, [], 0⟩
      let second ← readHead
      let length ← readLength second
      pure (head.fin, r.map fun a => (a.data, a.curLen), second.opcode, length) :
        Run Unit Socket _) s₀ = .ok (false, some ([65], 1), 0, 2 ^ 64 - 1) s := by
    decide +kernel
  obtain ⟨s, hrun⟩ := hruns
  obtain ⟨head, s₁, hhead, hrun⟩ := bind_eq_ok_iff.mp hrun
  obtain ⟨r, s₂, hframe, hrun⟩ := bind_eq_ok_iff.mp hrun
  obtain ⟨second, s₃, hsecond, hrun⟩ := bind_eq_ok_iff.mp hrun
  obtain ⟨length, s₄, hlength, hrun⟩ := bind_eq_ok_iff.mp hrun
  simp only [pure_run, Outcome.ok.injEq, Prod.mk.injEq, Option.map_eq_some_iff] at hrun
  obtain ⟨⟨hfin, ⟨a, rfl, hdata, hcur⟩, hopcode, hmax⟩, -⟩ := hrun
  have hsize : (a.curLen + length) % 2 ^ 64 = 0 := by omega
  have hresized : (a.resize length).data = [] := by
    apply eq_nil_of_length_eq_zero
    rw [length_resize, hsize]
    rfl
  have hstep : RecvStep true true 33554432 (⟨0, [], 0⟩, s₀) head (a, s₂) :=
    ⟨s₁, some a, hhead, hframe, .inr ⟨rfl, hfin⟩⟩
  refine ⟨a, s₂, length, Reachable.next (.start rfl) trivial hstep, hdata,
    ⟨second, s₃, s₄, hsecond, .inl hopcode, by simp, hlength⟩, hmax, ?_, hresized, ?_, ?_⟩
  · rw [tooLong, hsize]
    norm_num
  · rw [readPayload, hresized, curLen_resize, hcur, if_pos (by simp)]
  · intro hfits
    have := hfits.below
    omega

end JKYi.Http
