import JKYi.ByteArray.Typed

/-!
# What the typed operations do to the stored bytes

`Writes e x d` says that `x` puts the bytes `d` at the cursor of any array with
byte order `e`; `Reads e x a d` says that `x` returns `a` and passes `d` when
the unread bytes start with `d`. Both compose along `++`, so a format built
from typed operations never looks at nodes again.
-/

namespace JKYi.ByteArray

open List Run

variable {ba ba' : ByteArray} {α β : Type} {e : Endian}

variable {d d' : List UInt8}

theorem Written.append {ba₁ ba₂ : ByteArray} (h : ba.Wf)
    (h₁ : Written ba d ba₁) (h₂ : Written ba₁ d' ba₂) : Written ba (d ++ d') ba₂ := by
  have hpos := h.position_le_length
  refine ⟨h₂.wf, ?_, ?_, h₂.baseSize_eq.trans h₁.baseSize_eq, h₂.endian_eq.trans h₁.endian_eq⟩
  · rw [h₂.contents_eq, h₁.contents_eq, h₁.position_eq, splice_splice hpos]
  · rw [h₂.position_eq, h₁.position_eq, length_append, Nat.add_assoc]

theorem written_nil (h : ba.Wf) : Written ba [] ba :=
  ⟨h, by rw [splice_nil], rfl, rfl, rfl⟩

theorem Written.unique (h : ba.Wf) (h₁ : Written ba d ba')
    (h₂ : Written ba d' ba') : d = d' := by
  have hpos := h.position_le_length
  have hlen : d.length = d'.length := by
    have hsame := h₁.position_eq.symm.trans h₂.position_eq
    omega
  have hsame := congrArg (List.drop ba.position) (h₁.contents_eq.symm.trans h₂.contents_eq)
  rw [drop_splice hpos, drop_splice hpos] at hsame
  exact (append_inj hsame hlen).1

/-- Whenever `x` returns, it has written `d`; it does return below `2 ^ 53` bytes. -/
def Writes (e : Endian) (x : Run Exn ByteArray Unit) (d : List UInt8) : Prop :=
  ∀ ba : ByteArray, ba.Wf → ba.endian = e →
    (∀ u ba', x ba = .ok u ba' → Written ba d ba') ∧
    (d.length < 2 ^ 53 → ∃ ba', x ba = .ok () ba')

theorem writes_write (d : List UInt8) : Writes e (write d) d := fun _ h _ =>
  ⟨fun _ _ hw => write_ok h hw, fun hlen => write_total h hlen⟩

theorem Writes.bind {x y : Run Exn ByteArray Unit} (hx : Writes e x d)
    (hy : Writes e y d') : Writes e (do x; y) (d ++ d') := by
  intro ba h he
  obtain ⟨hdone, htotal⟩ := hx ba h he
  constructor
  · intro u ba₂ hrun
    obtain ⟨_, ba₁, hrun₁, hrun₂⟩ := bind_eq_ok_iff.mp hrun
    have h₁ := hdone _ _ hrun₁
    exact h₁.append h ((hy ba₁ h₁.wf (h₁.endian_eq.trans he)).1 _ _ hrun₂)
  · intro hlen
    rw [length_append] at hlen
    obtain ⟨ba₁, hrun₁⟩ := htotal (by omega)
    have h₁ := hdone _ _ hrun₁
    obtain ⟨ba₂, hrun₂⟩ := (hy ba₁ h₁.wf (h₁.endian_eq.trans he)).2 (by omega)
    exact ⟨ba₂, (bind_ok hrun₁).trans hrun₂⟩

def Reads (e : Endian) (x : Run Exn ByteArray α) (a : α) (d : List UInt8) : Prop :=
  ∀ (ba : ByteArray) (rest : List UInt8), ba.Wf → ba.endian = e → ba.unread = d ++ rest →
    x ba = .ok a (ba.advance d.length)

variable {rest : List UInt8}

theorem length_le_getReadSize (h : ba.Wf) (hd : ba.unread = d ++ rest) :
    d.length ≤ ba.getReadSize := by
  rw [← length_unread h, hd, length_append]
  omega

theorem unread_advance_append (hd : ba.unread = d ++ rest) :
    (ba.advance d.length).unread = rest := by
  rw [advance_unread, hd, drop_left]

theorem reads_read (hd : d ≠ []) : Reads e (read d.length) d d := by
  intro ba rest h _ hunread
  rw [read_pos h (length_pos_iff.mpr hd) (length_le_getReadSize h hunread), hunread, take_left]

theorem reads_pure (a : α) : Reads e (pure a) a [] := by
  intro ba rest h _ _
  rw [pure_run, length_nil, advance_zero h]

theorem Reads.bind {x : Run Exn ByteArray α} {f : α → Run Exn ByteArray β} {a : α} {b : β}
    {c : List UInt8} (hx : Reads e x a d) (hf : Reads e (f a) b c) :
    Reads e (x >>= f) b (d ++ c) := by
  intro ba rest h he hunread
  rw [append_assoc] at hunread
  rw [bind_ok (hx ba _ h he hunread),
    hf _ rest (advance_wf h (length_le_getReadSize h hunread)) he (unread_advance_append hunread),
    advance_advance, length_append]

theorem Reads.map {x : Run Exn ByteArray α} {a : α} (hx : Reads e x a d)
    (f : α → β) : Reads e (x >>= fun v => pure (f v)) (f a) d := by
  have h := hx.bind (f := fun v => pure (f v)) (reads_pure (f a))
  rwa [append_nil] at h

/-! Fixed width. -/

def fixedBytes (e : Endian) (k n : ℕ) : List UInt8 :=
  if e ≠ hostByteOrder then (leBytes k n).reverse else leBytes k n

@[simp] theorem length_fixedBytes (e : Endian) (k n : ℕ) : (fixedBytes e k n).length = k := by
  unfold fixedBytes
  split_ifs <;> simp

theorem writeFixed_eq (k n : ℕ) (ba : ByteArray) :
    writeFixed k n ba = write (fixedBytes ba.endian k n) ba := by
  simp only [writeFixed, bind_ok (get_run ba), fixedBytes]
  split_ifs
  · rw [leBytes_byteswap]
  · rfl

theorem writes_writeFixed (k n : ℕ) : Writes e (writeFixed k n) (fixedBytes e k n) := by
  rintro ba h rfl
  rw [writeFixed_eq]
  exact writes_write _ ba h rfl

variable {n : ℕ}

theorem reads_readFixed {k : ℕ} (hk : 0 < k) (hn : n < 256 ^ k) :
    Reads e (readFixed k) n (fixedBytes e k n) := by
  intro ba rest h he hunread
  have hne : fixedBytes e k n ≠ [] := by
    rw [← length_pos_iff, length_fixedBytes]
    exact hk
  have hread := reads_read hne ba rest h he hunread
  have hval : ofLeBytes (leBytes k n) = n := by rw [ofLeBytes_leBytes, Nat.mod_eq_of_lt hn]
  rw [length_fixedBytes] at hread ⊢
  rw [readFixed, bind_ok hread, bind_ok (get_run _), pure_run]
  congr 1
  change (if ba.endian ≠ _ then _ else _) = n
  rw [he, fixedBytes]
  split_ifs with hswap
  · have hsw := byteswap_ofLeBytes (leBytes k n).reverse
    rwa [length_reverse, length_leBytes, reverse_reverse, hval] at hsw
  · exact hval

theorem leBytes_one (v : UInt8) : leBytes 1 v.toNat = [v] := by simp [leBytes]

theorem writes_writeFuint8 (v : UInt8) : Writes e (writeFuint8 v) [v] := by
  rw [writeFuint8, leBytes_one]
  exact writes_write _

theorem reads_byte {f : ℕ → α} {a : α} {v : UInt8} (hf : f v.toNat = a) :
    Reads e (read 1 >>= fun d => pure (f (ofLeBytes d))) a [v] := by
  have h := (reads_read (e := e) (cons_ne_nil v [])).map (fun d => f (ofLeBytes d))
  have hv : ofLeBytes [v] = v.toNat := by simp [ofLeBytes]
  rwa [hv, hf] at h

theorem reads_readFuint8 (v : UInt8) : Reads e readFuint8 v [v] := reads_byte UInt8.ofNat_toNat

theorem reads_word {f : ℕ → α} {a : α} {k : ℕ} (hk : 0 < k) (hn : n < 256 ^ k) (hf : f n = a) :
    Reads e (readFixed k >>= fun n => pure (f n)) a (fixedBytes e k n) :=
  hf ▸ (reads_readFixed hk hn).map f

theorem reads_readFuint16 (v : UInt16) : Reads e readFuint16 v (fixedBytes e 2 v.toNat) :=
  reads_word (by simp) v.toNat_lt UInt16.ofNat_toNat

theorem reads_readFuint32 (v : UInt32) : Reads e readFuint32 v (fixedBytes e 4 v.toNat) :=
  reads_word (by simp) v.toNat_lt UInt32.ofNat_toNat

theorem reads_readFuint64 (v : UInt64) : Reads e readFuint64 v (fixedBytes e 8 v.toNat) :=
  reads_word (by simp) v.toNat_lt UInt64.ofNat_toNat

/-! Variable width. -/

/-- The rounds of the reading loop from bit `i` on; `result` holds the bits below. -/
theorem reads_readVarint {w : ℕ} (hn : n < 2 ^ w) :
    ∀ rounds i : ℕ, i < w → w ≤ i + 7 * rounds →
      Reads e (readVarint w rounds i (n % 2 ^ i)) n (varintBytes (n / 2 ^ i)) := by
  intro rounds
  induction rounds with
  | zero =>
    intro i hi hw
    omega
  | succ rounds ih =>
    intro i hi hw
    have hgroup : ((n / 2 ^ i % 128) <<< i) % 2 ^ w = (n / 2 ^ i % 128) <<< i := by
      apply Nat.mod_eq_of_lt
      rw [Nat.shiftLeft_eq]
      calc n / 2 ^ i % 128 * 2 ^ i ≤ n / 2 ^ i * 2 ^ i :=
            Nat.mul_le_mul_right _ (Nat.mod_le _ _)
        _ ≤ n := Nat.div_mul_le_self _ _
        _ < 2 ^ w := hn
    rw [readVarint]
    rcases lt_or_ge (n / 2 ^ i) 128 with hlast | hmore
    · have hbyte : (UInt8.ofNat (n / 2 ^ i)).toNat = n / 2 ^ i :=
        UInt8.toNat_ofNat_of_lt (by rw [UInt8.size]; omega)
      have hval : n % 2 ^ i ||| (n / 2 ^ i) <<< i = n := by
        rw [← Nat.mod_eq_of_lt hlast, or_shiftLeft_group, Nat.mod_eq_of_lt]
        rwa [pow_add, Nat.mul_comm, ← Nat.div_lt_iff_lt_mul (Nat.two_pow_pos i)]
      rw [varintBytes_of_lt hlast]
      refine (reads_readFuint8 _).bind (c := []) ?_
      rw [if_pos (UInt8.lt_iff_toNat_lt.mpr (by rw [hbyte]; exact hlast)), hbyte,
        ← Nat.mod_eq_of_lt hlast, hgroup, Nat.mod_eq_of_lt hlast, hval]
      exact reads_pure n
    · have hbyte : (UInt8.ofNat (n / 2 ^ i % 128 + 128)).toNat = n / 2 ^ i % 128 + 128 :=
        UInt8.toNat_ofNat_of_lt (by rw [UInt8.size]; omega)
      have hlow : (UInt8.ofNat (n / 2 ^ i % 128 + 128) &&& 0x7f).toNat = n / 2 ^ i % 128 := by
        rw [UInt8.toNat_and, hbyte]
        exact (and_7f _).trans (by omega)
      have hnext : i + 7 < w := by
        by_contra hge
        have : n / 2 ^ i < 2 ^ 7 := by
          rw [Nat.div_lt_iff_lt_mul (Nat.two_pow_pos i), ← pow_add]
          exact hn.trans_le (Nat.pow_le_pow_right (by simp) (by omega))
        omega
      have hrest : n / 2 ^ i / 128 = n / 2 ^ (i + 7) := by
        rw [pow_add, Nat.div_div_eq_div_mul]
        rfl
      rw [varintBytes_of_le hmore, hrest]
      refine (reads_readFuint8 _).bind (d := [_]) ?_
      rw [if_neg (by rw [UInt8.lt_iff_toNat_lt, hbyte]; exact not_lt.mpr (Nat.le_add_left _ _)),
        hlow, hgroup, or_shiftLeft_group]
      exact ih (i + 7) hnext (by omega)

theorem reads_readUint32 (v : UInt32) : Reads e readUint32 v (varintBytes v.toNat) := by
  have h := (reads_readVarint (e := e) v.toNat_lt 5 0 (by simp) (by simp)).map UInt32.ofNat
  rwa [UInt32.ofNat_toNat, pow_zero, Nat.div_one, Nat.mod_one] at h

theorem reads_readUint64 (v : UInt64) : Reads e readUint64 v (varintBytes v.toNat) := by
  have h := (reads_readVarint (e := e) v.toNat_lt 10 0 (by simp) (by simp)).map UInt64.ofNat
  rwa [UInt64.ofNat_toNat, pow_zero, Nat.div_one, Nat.mod_one] at h

/-! Strings. -/

/-- The four ways to store the length in front of a string. -/
inductive StringForm where
  | f16 | f32 | f64 | vint
  deriving DecidableEq

namespace StringForm

def write : StringForm → List UInt8 → Run Exn ByteArray Unit
  | f16 => writeStringF16
  | f32 => writeStringF32
  | f64 => writeStringF64
  | vint => writeStringVint

def read : StringForm → Run Exn ByteArray (List UInt8)
  | f16 => readStringF16
  | f32 => readStringF32
  | f64 => readStringF64
  | vint => readStringVint

/-- The longest string whose length fits its field. -/
def maxLength : StringForm → ℕ
  | f16 => 2 ^ 16 - 1
  | f32 => 2 ^ 32 - 1
  | f64 | vint => stringMaxSize

def lengthField (e : Endian) : StringForm → ℕ → List UInt8
  | f16, n => fixedBytes e 2 (UInt16.ofNat n).toNat
  | f32, n => fixedBytes e 4 (UInt32.ofNat n).toNat
  | f64, n => fixedBytes e 8 (UInt64.ofNat n).toNat
  | vint, n => varintBytes (UInt64.ofNat n).toNat

end StringForm

theorem string_write_eq (f : StringForm) (s : List UInt8) (ba : ByteArray) :
    f.write s ba = (do write (f.lengthField ba.endian s.length); write s) ba := by
  cases f with
  | f16 | f32 | f64 => exact bind_congr (writeFixed_eq _ _ ba) _
  | vint => rfl

theorem writes_string (f : StringForm) (s : List UInt8) :
    Writes e (f.write s) (f.lengthField e s.length ++ s) := by
  cases f with
  | f16 | f32 | f64 => exact (writes_writeFixed _ _).bind (writes_write s)
  | vint => exact (writes_write _).bind (writes_write s)

theorem readResized_eq {readLen : Run Exn ByteArray α} {toNat : α → ℕ} {len : α}
    (hread : Reads ba.endian readLen len d) (hlen : toNat len = n)
    (hmax : n ≤ stringMaxSize) (h : ba.Wf) (hd : ba.unread = d ++ rest) :
    (readLen >>= fun len => readResized (toNat len)) ba = read n (ba.advance d.length) := by
  rw [bind_ok (hread ba rest h rfl hd), readResized, hlen, if_neg (not_lt.mpr hmax)]

theorem string_read_eq {f : StringForm} (hn : n ≤ f.maxLength)
    (h : ba.Wf) (hd : ba.unread = f.lengthField ba.endian n ++ rest) :
    f.read ba = read n (ba.advance (f.lengthField ba.endian n).length) := by
  have hmax : n ≤ stringMaxSize := by
    refine hn.trans ?_
    cases f <;> simp [StringForm.maxLength, stringMaxSize]
  have h64 : (UInt64.ofNat n).toNat = n := by
    apply UInt64.toNat_ofNat_of_lt'
    unfold stringMaxSize at hmax
    rw [UInt64.size]
    omega
  cases f with
  | f16 =>
    have hlen := UInt16.toNat_ofNat_of_lt' (Nat.lt_succ_of_le hn)
    exact readResized_eq (reads_readFuint16 _) hlen hmax h hd
  | f32 =>
    have hlen := UInt32.toNat_ofNat_of_lt' (Nat.lt_succ_of_le hn)
    exact readResized_eq (reads_readFuint32 _) hlen hmax h hd
  | f64 => exact readResized_eq (reads_readFuint64 _) h64 hmax h hd
  | vint => exact readResized_eq (reads_readUint64 _) h64 hmax h hd

theorem reads_string {f : StringForm} {s : List UInt8} (hs : s ≠ [])
    (hlen : s.length ≤ f.maxLength) : Reads e f.read s (f.lengthField e s.length ++ s) := by
  rintro ba rest h rfl hd
  rw [append_assoc] at hd
  rw [string_read_eq hlen h hd, reads_read hs _ rest
    (advance_wf h (length_le_getReadSize h hd)) rfl (unread_advance_append hd),
    advance_advance, length_append]

end JKYi.ByteArray
