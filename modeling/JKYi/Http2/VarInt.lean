import JKYi.Http2.HPackPack

/-!
# Integers with a prefix

`WriteVarInt` marks a continuation with `0x8` instead of `0x80`, so its bytes are those of the
format as long as there is no continuation, and no longer. Both overloads of `ReadVarInt` read
the format. On bytes of any origin they may shift beyond the word, and the length that
`ReadString` takes from them may not fit its `int`.
-/

namespace JKYi.Http2

open List Nat JKYi.ByteArray Format HPack Run

variable {pre : ℕ} {ba : ByteArray}

/-- Both overloads of `ReadVarInt` return `value` and pass exactly `bytes`, whatever follows. -/
def ReadsBack (pre value : ℕ) (bytes : List UInt8) : Prop :=
  ∀ (ba : ByteArray) (rest : List UInt8), ba.Wf → ba.unread = bytes ++ rest →
    readVarIntAt pre ba = .ok value (ba.advance bytes.length) ∧
    (do let b ← readFuint8; readVarInt b pre) ba = .ok value (ba.advance bytes.length)

theorem toNat_prefixMask (h : pre ≤ 8) : (UInt8.ofNat (2 ^ pre - 1)).toNat = 2 ^ pre - 1 := by
  have hle : 2 ^ pre ≤ 2 ^ 8 := Nat.pow_le_pow_right (by simp) h
  exact UInt8.toNat_ofNat_of_lt' (by rw [UInt8.size]; omega)

theorem and_prefixMask_eq (h : pre ≤ 8) {b : UInt8}
    (hb : ¬ b &&& UInt8.ofNat (2 ^ pre - 1) < UInt8.ofNat (2 ^ pre - 1)) :
    b &&& UInt8.ofNat (2 ^ pre - 1) = UInt8.ofNat (2 ^ pre - 1) := by
  apply UInt8.toNat_inj.mp
  rw [UInt8.lt_iff_toNat_lt, UInt8.toNat_and, toNat_prefixMask h,
    Nat.and_two_pow_sub_one_eq_mod] at hb
  rw [UInt8.toNat_and, toNat_prefixMask h, Nat.and_two_pow_sub_one_eq_mod]
  omega

theorem readVarIntAt_eq (h : pre ≤ 8) :
    readVarIntAt pre = (do let b ← readFuint8; readVarInt b pre) := by
  have hsame : ∀ b : UInt8, (if b &&& UInt8.ofNat (2 ^ pre - 1) < UInt8.ofNat (2 ^ pre - 1) then
      pure (b &&& UInt8.ofNat (2 ^ pre - 1)).toNat
      else readVarIntRest 10 0 (b &&& UInt8.ofNat (2 ^ pre - 1)).toNat) = readVarInt b pre := by
    intro b
    rw [readVarInt]
    split_ifs with hb
    · rfl
    · rw [and_prefixMask_eq h hb]
  rw [readVarIntAt]
  simp only [hsame]

theorem flags_add_le {flags : ℕ} (hpre8 : pre ≤ 8) (hflags : 2 ^ pre ∣ flags)
    (hbyte : flags < 256) : flags + 2 ^ pre ≤ 256 := by
  obtain ⟨k, hk⟩ : 2 ^ pre ∣ 256 := pow_dvd_pow 2 hpre8
  obtain ⟨c, rfl⟩ := hflags
  have hlt : c < k := by
    rw [hk] at hbyte
    exact Nat.lt_of_mul_lt_mul_left hbyte
  calc 2 ^ pre * c + 2 ^ pre = 2 ^ pre * (c + 1) := by ring
    _ ≤ 2 ^ pre * k := Nat.mul_le_mul_left _ hlt
    _ = 256 := hk.symm

theorem readsBack_prefixInt {flags n : ℕ} (hpre : 1 ≤ pre) (hpre8 : pre ≤ 8)
    (hflags : 2 ^ pre ∣ flags) (hbyte : flags < 256) (hn : n < 2 ^ 64) :
    ReadsBack pre n (prefixInt pre flags n) := by
  intro ba rest h hunread
  obtain ⟨b, d, heq, -, -, hread⟩ :=
    prefixInt_cases (e := ba.endian) pre flags n hpre hpre8 hflags
      (flags_add_le hpre8 hflags hbyte) hn
  have hboth : Reads ba.endian (do let b ← readFuint8; readVarInt b pre) n ([b] ++ d) :=
    (reads_readFuint8 b).bind hread
  rw [heq] at hunread ⊢
  rw [readVarIntAt_eq hpre8]
  exact ⟨hboth ba rest h rfl hunread, hboth ba rest h rfl hunread⟩

/-- Both overloads of `ReadVarInt` read the format, with any bits above the prefix. -/
theorem readVarInt_format (pre flags n : ℕ) (hpre : 1 ≤ pre) (hpre8 : pre ≤ 8)
    (hflags : 2 ^ pre ∣ flags) (hbyte : flags < 256) (hn : n < 2 ^ 64) (ba : ByteArray)
    (rest : List UInt8) (h : ba.Wf) (hunread : ba.unread = prefixInt pre flags n ++ rest) :
    readVarIntAt pre ba = .ok n (ba.advance (prefixInt pre flags n).length) ∧
    (do let b ← readFuint8; readVarInt b pre) ba =
      .ok n (ba.advance (prefixInt pre flags n).length) :=
  readsBack_prefixInt hpre hpre8 hflags hbyte hn ba rest h hunread

theorem readVarInt_format_1337 : prefixInt 5 0xA0 1337 = [0xBF, 0x9A, 0x0A] ∧
    ∃ ba : ByteArray, readVarIntAt 5 (wrap [0xBF, 0x9A, 0x0A, 0xFF] fun _ => 0) = .ok 1337 ba ∧
      ba.getPosition = 3 := by
  have hbytes : prefixInt 5 0xA0 1337 = [0xBF, 0x9A, 0x0A] := by
    rw [prefixInt, if_neg (by simp), varintBytes_of_le (by simp),
      varintBytes_of_lt (by simp)]
    decide
  have h := (readVarInt_format 5 0xA0 1337 (by simp) (by simp) (by simp) (by simp)
    (by simp) (wrap [0xBF, 0x9A, 0x0A, 0xFF] fun _ => 0) [0xFF] (wrap_wf (by decide) _)
    (by rw [hbytes]; rfl)).1
  rw [hbytes] at h
  exact ⟨hbytes, _, h, rfl⟩

/-! Writing. -/

theorem length_varIntRest (n : ℕ) : (varIntRest n).length = (varintBytes n).length := by
  induction n using Nat.strong_induction_on with
  | _ n ih =>
    rw [varIntRest, varintBytes]
    split_ifs with h
    · rfl
    · have hlt : n >>> 7 < n := by
        rw [Nat.shiftRight_eq_div_pow]
        omega
      rw [length_cons, length_cons, ih _ hlt]

theorem length_varIntBytes_le {value : ℕ} (pre : ℕ) (flags : UInt8) (h : value < 2 ^ 64) :
    (varIntBytes pre value flags).length ≤ 11 := by
  unfold varIntBytes
  split_ifs
  · simp
  · have hle := length_varintBytes_le (n := value - (2 ^ pre - 1)) (by norm_num : 0 < 10) (by omega)
    rw [length_cons, length_varIntRest]
    omega

theorem writeVarInt_ok (h : ba.Wf) (pre value : ℕ) (flags : UInt8)
    (hvalue : value < 2 ^ 64) : ∃ ba',
      writeVarInt pre value flags ba = .ok ((varIntBytes pre value flags).length : ℤ) ba' ∧
      Written ba (varIntBytes pre value flags) ba' := by
  have hlen := length_varIntBytes_le pre flags hvalue
  obtain ⟨hwritten, htotal⟩ := writes_writeVarInt pre value flags ba h rfl
  obtain ⟨ba', hrun⟩ := htotal (by omega)
  have hdone := hwritten () ba' hrun
  obtain ⟨n, hn⟩ := discard_eq_ok_iff.mp hrun
  refine ⟨ba', ?_, hdone⟩
  suffices hcount : n = ((varIntBytes pre value flags).length : ℤ) by rw [hn, hcount]
  rw [writeVarInt, bind_ok (get_run ba)] at hn
  split_ifs at hn with hsmall
  · obtain ⟨_, _, -, hlast⟩ := bind_eq_ok_iff.mp hn
    cases hlast
    rw [varIntBytes, if_pos hsmall]
    rfl
  · obtain ⟨_, ba₁, -, hn₁⟩ := bind_eq_ok_iff.mp hn
    obtain ⟨_, ba₂, -, hn₂⟩ := bind_eq_ok_iff.mp hn₁
    cases hn₂
    rw [getPosition, getPosition, hdone.position_eq, Nat.add_sub_cancel_left,
      intOfSize_eq (by omega)]

theorem varIntRest_of_le {n : ℕ} (h : 128 ≤ n) :
    varIntRest n = UInt8.ofNat (0x8 ||| n % 128) :: varIntRest (n / 128) := by
  rw [varIntRest, if_neg (by omega), and_7f, shiftRight_eq_div_pow]

section

variable {value : ℕ} {flags : UInt8}

theorem varIntBytes_cases (value : ℕ) (hpre : 1 ≤ pre) (hpre8 : pre ≤ 8)
    (hflags : 2 ^ pre ∣ flags.toNat) :
    ∃ n d, varIntBytes pre value flags = prefixInt pre flags.toNat n ++ d ∧ n < 2 ^ pre + 127 ∧
      (value < 2 ^ pre + 127 → n = value ∧ d = []) := by
  obtain ⟨n, d, hbytes, hn, -, hexact⟩ := varIntBytes_wire pre flags.toNat value hpre hflags
    (flags_add_le hpre8 hflags flags.toNat_lt)
  have hpos := Nat.two_pow_pos pre
  rw [UInt8.ofNat_toNat] at hbytes
  exact ⟨n, d, hbytes, by omega, fun hlt => hexact (by omega)⟩

theorem readsBack_varIntBytes_iff (hpre : 1 ≤ pre) (hpre8 : pre ≤ 8)
    (hflags : 2 ^ pre ∣ flags.toNat) (hvalue : value < 2 ^ 64) :
    ReadsBack pre value (varIntBytes pre value flags) ↔ value < 2 ^ pre + 127 := by
  obtain ⟨n, d, hbytes, hn, hexact⟩ := varIntBytes_cases value hpre hpre8 hflags
  constructor
  · intro hback
    obtain ⟨ba, h, hunread⟩ := exists_unread (varIntBytes pre value flags)
    have hvalue' := (hback ba [] h hunread).1
    rw [hbytes, append_assoc] at hunread
    have hread := (readsBack_prefixInt hpre hpre8 hflags flags.toNat_lt (by omega) ba _ h hunread).1
    obtain ⟨rfl, -⟩ := Outcome.ok.inj (hvalue'.symm.trans hread)
    exact hn
  · intro hsmall
    obtain ⟨rfl, rfl⟩ := hexact hsmall
    rw [hbytes, append_nil]
    exact readsBack_prefixInt hpre hpre8 hflags flags.toNat_lt hvalue

theorem varIntBytes_eq_iff (hpre : 1 ≤ pre) (hpre8 : pre ≤ 8) (hflags : 2 ^ pre ∣ flags.toNat)
    (hvalue : value < 2 ^ 64) :
    varIntBytes pre value flags = prefixInt pre flags.toNat value ↔ value < 2 ^ pre + 127 := by
  constructor
  · intro hbytes
    rw [← readsBack_varIntBytes_iff hpre hpre8 hflags hvalue, hbytes]
    exact readsBack_prefixInt hpre hpre8 hflags flags.toNat_lt hvalue
  · intro hsmall
    obtain ⟨n, d, hbytes, -, hexact⟩ := varIntBytes_cases value hpre hpre8 hflags
    obtain ⟨rfl, rfl⟩ := hexact hsmall
    rw [hbytes, append_nil]

/-- `WriteVarInt` returns the number of bytes it writes. They are those of the format, and are read
back, exactly if at most one byte follows the first. -/
theorem writeVarInt_format (pre value : ℕ) (flags : UInt8) (hpre : 1 ≤ pre) (hpre8 : pre ≤ 8)
    (hvalue : value < 2 ^ 64) (hflags : 2 ^ pre ∣ flags.toNat) (ba : ByteArray) (h : ba.Wf) :
    ∃ ba' bytes,
      writeVarInt pre value flags ba = .ok (bytes.length : ℤ) ba' ∧ Written ba bytes ba' ∧
      (bytes = prefixInt pre flags.toNat value ↔ value < 2 ^ pre + 127) ∧
      (ReadsBack pre value bytes ↔ value < 2 ^ pre + 127) := by
  obtain ⟨ba', hrun, hwritten⟩ := writeVarInt_ok h pre value flags hvalue
  exact ⟨ba', varIntBytes pre value flags, hrun, hwritten,
    varIntBytes_eq_iff hpre hpre8 hflags hvalue,
    readsBack_varIntBytes_iff hpre hpre8 hflags hvalue⟩

end

theorem writeVarInt_format_ten : ∃ ba' bytes,
    writeVarInt 5 10 0 (create 16 fun _ => 0) = .ok (bytes.length : ℤ) ba' ∧
    Written (create 16 fun _ => 0) bytes ba' ∧ bytes = prefixInt 5 0 10 ∧ ReadsBack 5 10 bytes := by
  obtain ⟨ba', bytes, hrun, hwritten, hformat, hback⟩ := writeVarInt_format 5 10 0 (by simp)
    (by simp) (by simp) (by decide) _ (create_wf (by norm_num : 0 < 16) fun _ => 0)
  exact ⟨ba', bytes, hrun, hwritten, hformat.mpr (by simp), hback.mpr (by simp)⟩

/-- 1337 with a prefix of five bits is written as `1f 1a 0a`, which is read as 57. -/
theorem writeVarInt_1337 : ∃ ba' : ByteArray,
    writeVarInt 5 1337 0 (create 16 fun _ => 0) = .ok 3 ba' ∧
    Written (create 16 fun _ => 0) [0x1F, 0x1A, 0x0A] ba' ∧
    prefixInt 5 0 1337 = [0x1F, 0x9A, 0x0A] ∧ ¬ ReadsBack 5 1337 [0x1F, 0x1A, 0x0A] := by
  have hbytes : varIntBytes 5 1337 0 = [0x1F, 0x1A, 0x0A] := by
    rw [varIntBytes, if_neg (by simp), varIntRest_of_le (by simp), varIntRest,
      if_pos (by simp)]
    decide
  have hformat : prefixInt 5 0 1337 = [0x1F, 0x9A, 0x0A] := by
    rw [prefixInt, if_neg (by simp), varintBytes_of_le (by simp),
      varintBytes_of_lt (by simp)]
    decide
  obtain ⟨ba', hrun, hwritten⟩ := writeVarInt_ok (create_wf (by norm_num : 0 < 16) fun _ => 0) 5
    1337 0 (by simp)
  rw [hbytes] at hrun hwritten
  refine ⟨ba', hrun, hwritten, hformat, ?_⟩
  rw [← hbytes, readsBack_varIntBytes_iff (by simp) (by simp) (by decide) (by simp)]
  norm_num

/-! Bytes of any origin. -/

def continued (w : List UInt8) : ℕ := (w.takeWhile fun c => decide (128 ≤ c.toNat)).length

def groupValue : List UInt8 → ℕ
  | [] => 0
  | b :: bs => b.toNat % 128 + 128 * groupValue bs

theorem continued_cons_of_ge {c : UInt8} (h : 128 ≤ c.toNat) (w : List UInt8) :
    continued (c :: w) = continued w + 1 := by
  simp [continued, h]

theorem continued_cons_of_lt {c : UInt8} (h : c.toNat < 128) (w : List UInt8) :
    continued (c :: w) = 0 := by
  simp [continued, h]

theorem readFuint8_end (h : ba.Wf) (hunread : ba.unread = []) :
    readFuint8 ba = .raised (.outOfRange "not enough data to read") ba := by
  have hsize : ba.getReadSize < 1 := by
    rw [← length_unread h, hunread]
    exact one_pos
  rw [readFuint8, bind_raised (read_raised hsize)]

theorem readVarIntRest_cons {c : UInt8} {w : List UInt8} (h : ba.Wf)
    (hunread : ba.unread = c :: w) (rounds m iv : ℕ) : readVarIntRest (rounds + 1) m iv ba =
      if 128 ≤ c.toNat then
        readVarIntRest rounds (m + 7) ((iv + c.toNat % 128 * 2 ^ m) % 2 ^ 64) (ba.advance 1)
      else .ok ((iv + c.toNat % 128 * 2 ^ m) % 2 ^ 64) (ba.advance 1) := by
  rw [readVarIntRest, bind_ok (reads_readFuint8 c ba w h rfl hunread), and_7f_toNat,
    shiftLeft_eq, length_singleton]
  by_cases hc : 128 ≤ c.toNat
  · rw [if_pos hc, if_pos (by rw [ne_eq, and_80_eq_zero]; omega)]
  · rw [if_neg hc, if_neg (by rw [ne_eq, not_not, and_80_eq_zero]; omega), pure_run]

theorem advance_one {b : UInt8} {w : List UInt8} (h : ba.Wf) (hunread : ba.unread = b :: w) :
    (ba.advance 1).Wf ∧ (ba.advance 1).unread = w :=
  ⟨advance_wf h (length_le_getReadSize (d := [b]) h hunread),
    unread_advance_append (d := [b]) hunread⟩

/-- How the loop ends: the last byte comes in time, the shift gets too wide, or the data ends. -/
theorem readVarIntRest_cases (rounds : ℕ) : ∀ {ba : ByteArray} (m iv : ℕ), ba.Wf →
    (continued ba.unread < rounds ∧ continued ba.unread < ba.unread.length ∧
      readVarIntRest rounds m iv ba =
        .ok ((iv + groupValue (ba.unread.take (continued ba.unread + 1)) * 2 ^ m) % 2 ^ 64)
          (ba.advance (continued ba.unread + 1))) ∨
    (rounds ≤ continued ba.unread ∧ rounds < ba.unread.length ∧
      readVarIntRest rounds m iv ba = .crash) ∨
    (ba.unread.length ≤ rounds ∧ continued ba.unread = ba.unread.length ∧ ∃ ba',
      readVarIntRest rounds m iv ba = .raised (.outOfRange "not enough data to read") ba') := by
  induction rounds with
  | zero =>
    intro ba m iv h
    cases hunread : ba.unread with
    | nil =>
      refine .inr (.inr ⟨le_rfl, rfl, ba, ?_⟩)
      rw [readVarIntRest, bind_raised (readFuint8_end h hunread)]
    | cons c w =>
      refine .inr (.inl ⟨zero_le _, succ_pos _, ?_⟩)
      rw [readVarIntRest, bind_ok (reads_readFuint8 c ba w h rfl hunread), crash_run]
  | succ rounds ih =>
    intro ba m iv h
    cases hunread : ba.unread with
    | nil =>
      refine .inr (.inr ⟨zero_le _, rfl, ba, ?_⟩)
      rw [readVarIntRest, bind_raised (readFuint8_end h hunread)]
    | cons c w =>
      rw [readVarIntRest_cons h hunread, length_cons]
      by_cases hc : 128 ≤ c.toNat
      · obtain ⟨hnext, hrest⟩ := advance_one h hunread
        have hcases := ih (m + 7) ((iv + c.toNat % 128 * 2 ^ m) % 2 ^ 64) hnext
        rw [hrest] at hcases
        rw [if_pos hc, continued_cons_of_ge hc]
        rcases hcases with ⟨hk, hlen, hrun⟩ | ⟨hk, hlen, hrun⟩ | ⟨hlen, hk, ba', hrun⟩
        · refine .inl ⟨by omega, by omega, ?_⟩
          rw [hrun, mod_add_mod, advance_advance, add_comm 1, take_succ_cons, groupValue]
          congr 2
          ring
        · exact .inr (.inl ⟨by omega, by omega, hrun⟩)
        · exact .inr (.inr ⟨by omega, by omega, ba', hrun⟩)
      · rw [if_neg hc, continued_cons_of_lt (not_le.mp hc)]
        refine .inl ⟨succ_pos _, succ_pos _, ?_⟩
        simp [groupValue]

/-- An integer with more than ten bytes behind its first: the eleventh is shifted by 70. -/
def Overlong (pre : ℕ) : List UInt8 → Prop
  | [] => False
  | b :: w => b.toNat % 2 ^ pre = 2 ^ pre - 1 ∧ 10 ≤ continued w ∧ 10 < w.length

/-- A length with a prefix of seven bits that an `int` does not hold. -/
def Oversized : List UInt8 → Prop
  | [] => False
  | b :: w => b.toNat % 2 ^ 7 = 2 ^ 7 - 1 ∧ continued w < 10 ∧ continued w < w.length ∧
      2 ^ 31 ≤ (127 + groupValue (w.take (continued w + 1))) % 2 ^ 64

/-- A run that returns, or throws because the data ends. -/
def EndsWell {α : Type} (o : Outcome Exn ByteArray α) : Prop :=
  (∃ a ba, o = .ok a ba) ∨ ∃ ba, o = .raised (.outOfRange "not enough data to read") ba

/-- `ReadString` asks for as many bytes as the length that it has read says, in whatever way it
asks. -/
def LengthKept (ba : ByteArray) : Prop :=
  ∀ (type : UInt8) (len : ℕ) (ba₁ ba₂ : ByteArray), readFuint8 ba = .ok type ba₁ →
    readVarInt type 7 ba₁ = .ok len ba₂ →
    ∀ ask : ℤ → Run Exn ByteArray (List UInt8),
      readStringBy ask ba = readContent ask type (len : ℤ) ba₂

section

variable {b : UInt8} {w : List UInt8}

theorem readVarInt_of_lt (hpre8 : pre ≤ 8) (hb : b.toNat % 2 ^ pre < 2 ^ pre - 1) :
    readVarInt b pre = pure (b.toNat % 2 ^ pre) := by
  have hmask : (b &&& UInt8.ofNat (2 ^ pre - 1)).toNat = b.toNat % 2 ^ pre := by
    rw [UInt8.toNat_and, toNat_prefixMask hpre8, and_two_pow_sub_one_eq_mod]
  have hless : b &&& UInt8.ofNat (2 ^ pre - 1) < UInt8.ofNat (2 ^ pre - 1) := by
    rw [UInt8.lt_iff_toNat_lt, hmask, toNat_prefixMask hpre8]
    exact hb
  rw [readVarInt, if_pos hless, hmask]

theorem readVarInt_of_eq (hpre8 : pre ≤ 8) (hb : b.toNat % 2 ^ pre = 2 ^ pre - 1) :
    readVarInt b pre = readVarIntRest 10 0 (2 ^ pre - 1) := by
  have hnot : ¬ b &&& UInt8.ofNat (2 ^ pre - 1) < UInt8.ofNat (2 ^ pre - 1) := by
    rw [UInt8.lt_iff_toNat_lt, UInt8.toNat_and, toNat_prefixMask hpre8, and_two_pow_sub_one_eq_mod]
    omega
  rw [readVarInt, if_neg hnot, toNat_prefixMask hpre8]

theorem first_byte_cases (pre : ℕ) (b : UInt8) :
    b.toNat % 2 ^ pre < 2 ^ pre - 1 ∨ b.toNat % 2 ^ pre = 2 ^ pre - 1 := by
  omega

theorem bind_readVarInt_cons (h : ba.Wf) (hunread : ba.unread = b :: w) (pre : ℕ) :
    (do let b ← readFuint8; readVarInt b pre) ba = readVarInt b pre (ba.advance 1) := by
  rw [bind_ok (reads_readFuint8 b ba w h rfl hunread)]
  rfl

theorem endsWell_iff (hpre8 : pre ≤ 8) (h : ba.Wf) :
    EndsWell ((do let b ← readFuint8; readVarInt b pre) ba) ↔ ¬ Overlong pre ba.unread := by
  cases hunread : ba.unread with
  | nil =>
    refine iff_of_true (.inr ⟨ba, ?_⟩) not_false
    rw [bind_raised (readFuint8_end h hunread)]
  | cons b w =>
    obtain ⟨hwf, hrest⟩ := advance_one h hunread
    rw [bind_readVarInt_cons h hunread]
    rcases first_byte_cases pre b with hb | hb
    · rw [readVarInt_of_lt hpre8 hb]
      refine iff_of_true (.inl ⟨_, _, rfl⟩) ?_
      rintro ⟨hfull, -, -⟩
      omega
    · rw [readVarInt_of_eq hpre8 hb]
      have hcases := readVarIntRest_cases 10 0 (2 ^ pre - 1) hwf
      rw [hrest] at hcases
      rcases hcases with ⟨hk, hlen, hrun⟩ | ⟨hk, hlen, hrun⟩ | ⟨hlen, hk, ba', hrun⟩
      · refine iff_of_true (.inl ⟨_, _, hrun⟩) ?_
        rintro ⟨-, hlong, -⟩
        omega
      · refine iff_of_false ?_ (not_not.mpr ⟨hb, hk, hlen⟩)
        rw [hrun]
        rintro (⟨a, ba', hok⟩ | ⟨ba', hraised⟩)
        · cases hok
        · cases hraised
      · refine iff_of_true (.inr ⟨ba', hrun⟩) ?_
        rintro ⟨-, -, hlong⟩
        omega

/-- What is asked shows in how the asking ends. -/
theorem exists_ask_ne (b : UInt8) (ba : ByteArray) {n m : ℤ} (hm : m ≠ 0) (hother : n ≠ m) :
    ∃ ask, readContent ask b n ba ≠ readContent ask b m ba := by
  refine ⟨fun k => if k = m then Run.throw (.outOfRange "") else Run.crash, fun hsame => ?_⟩
  rw [readContent, readContent, if_neg hm, if_pos rfl, if_neg hother,
    bind_raised (throw_run ..)] at hsame
  by_cases hzero : n = 0
  · rw [if_pos hzero] at hsame
    cases hsame
  · rw [if_neg hzero, bind_crash (crash_run _)] at hsame
    cases hsame

theorem readContent_same_iff (b : UInt8) (ba : ByteArray) {len : ℕ} :
    (∀ ask, readContent ask b (intOfSize len) ba = readContent ask b len ba) ↔ len < 2 ^ 31 := by
  constructor
  · intro hsame
    by_contra hbig
    have hint := intOfSize_lt len
    obtain ⟨ask, hask⟩ := exists_ask_ne b ba (n := intOfSize len) (m := len) (by omega) (by omega)
    exact hask (hsame ask)
  · intro hsmall ask
    rw [intOfSize_eq hsmall]

theorem lengthKept_cons_iff (h : ba.Wf) (hunread : ba.unread = b :: w) :
    LengthKept ba ↔ ∀ len ba₂, readVarInt b 7 (ba.advance 1) = .ok len ba₂ → len < 2 ^ 31 := by
  have hbyte : readFuint8 ba = .ok b (ba.advance 1) := reads_readFuint8 b ba w h rfl hunread
  have hrun {len : ℕ} {ba₂ : ByteArray} (hread : readVarInt b 7 (ba.advance 1) = .ok len ba₂)
      (ask : ℤ → Run Exn ByteArray (List UInt8)) :
      readStringBy ask ba = readContent ask b (intOfSize len) ba₂ := by
    rw [readStringBy, bind_ok hbyte, bind_ok hread]
  constructor
  · intro hkept len ba₂ hread
    refine (readContent_same_iff b ba₂).mp fun ask => ?_
    rw [← hkept b len _ ba₂ hbyte hread ask, hrun hread]
  · intro hsmall type len ba₁ ba₂ htype hread ask
    cases hbyte.symm.trans htype
    rw [hrun hread, intOfSize_eq (hsmall len ba₂ hread)]

theorem lengthKept_iff (h : ba.Wf) : LengthKept ba ↔ ¬ Oversized ba.unread := by
  cases hunread : ba.unread with
  | nil =>
    refine iff_of_true ?_ not_false
    intro type len ba₁ ba₂ htype
    cases htype.symm.trans (readFuint8_end h hunread)
  | cons b w =>
    obtain ⟨hwf, hrest⟩ := advance_one h hunread
    rw [lengthKept_cons_iff h hunread]
    rcases first_byte_cases 7 b with hb | hb
    · rw [readVarInt_of_lt (by simp) hb]
      refine iff_of_true ?_ ?_
      · rintro len ba₂ ⟨⟩
        omega
      · rintro ⟨hfull, -⟩
        omega
    · rw [readVarInt_of_eq (by simp) hb]
      have hcases := readVarIntRest_cases 10 0 (2 ^ 7 - 1) hwf
      rw [hrest] at hcases
      rcases hcases with ⟨hk, hlen, hrun⟩ | ⟨hk, hlen, hrun⟩ | ⟨hlen, hk, ba', hrun⟩
      · rw [pow_zero, mul_one, show 2 ^ 7 - 1 = 127 from rfl] at hrun
        constructor
        · rintro hkept ⟨-, -, -, hbig⟩
          exact absurd (hkept _ _ hrun) (not_lt.mpr hbig)
        · intro hfits len ba₂ hok
          obtain ⟨rfl, -⟩ := Outcome.ok.inj (hrun.symm.trans hok)
          by_contra hbig
          exact hfits ⟨hb, hk, hlen, not_lt.mp hbig⟩
      · refine iff_of_true ?_ ?_
        · intro len ba₂ hok
          cases hrun.symm.trans hok
        · rintro ⟨-, hshort, -⟩
          omega
      · refine iff_of_true ?_ ?_
        · intro len ba₂ hok
          cases hrun.symm.trans hok
        · rintro ⟨-, -, hshort, -⟩
          omega

end

/-- On every input: both overloads of `ReadVarInt` stay within the word, or throw because the data
ends, exactly if the integer is not overlong, and `ReadString` works with the length it has read
exactly if an `int` holds it. -/
theorem readVarInt_any_bytes (pre : ℕ) (hpre8 : pre ≤ 8) (ba : ByteArray) (h : ba.Wf) :
    (EndsWell (readVarIntAt pre ba) ↔ ¬ Overlong pre ba.unread) ∧
    (EndsWell ((do let b ← readFuint8; readVarInt b pre) ba) ↔ ¬ Overlong pre ba.unread) ∧
    (LengthKept ba ↔ ¬ Oversized ba.unread) := by
  rw [readVarIntAt_eq hpre8]
  exact ⟨endsWell_iff hpre8 h, endsWell_iff hpre8 h, lengthKept_iff h⟩

theorem readVarInt_any_bytes_three : EndsWell (readVarIntAt 7 (wrap [3] fun _ => 0)) ∧
    LengthKept (wrap [3] fun _ => 0) := by
  obtain ⟨hat, -, hkept⟩ := readVarInt_any_bytes 7 (by simp)
    (wrap [3] fun _ => 0) (wrap_wf (by decide) _)
  have hunread : (wrap [3] fun _ => 0).unread = [3] := rfl
  refine ⟨hat.mpr ?_, hkept.mpr ?_⟩
  · rintro ⟨hfull, -⟩
    exact absurd hfull (by decide)
  · rintro ⟨hfull, -⟩
    exact absurd hfull (by decide)

/-- Eleven bytes behind the first are shifted too far. The length of `7f 81 ff ff ff 0f` is
`2 ^ 32` and becomes 0. -/
theorem readVarInt_hostile :
    ¬ EndsWell (readVarIntAt 7 (wrap (0x7F :: replicate 11 0x80) fun _ => 0)) ∧
    ¬ LengthKept (wrap [0x7F, 0x81, 0xFF, 0xFF, 0xFF, 0x0F] fun _ => 0) := by
  rw [readVarIntAt_eq (by simp), endsWell_iff (by simp) (wrap_wf (by decide) _),
    lengthKept_iff (wrap_wf (by decide) _), not_not, not_not]
  exact ⟨⟨by decide, by decide, by decide⟩, ⟨by decide, by decide, by decide, by decide⟩⟩

end JKYi.Http2
