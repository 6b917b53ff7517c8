import JKYi.Foundation.Bytes
import JKYi.ByteArray.Basic
import JKYi.Http2.HuffmanTable

/-!
# Huffman encoding of strings

The encoder packs code words into a buffer that the caller has sized; a write
outside of it is `none`. `Filled` says which bits the buffer holds while the
current byte still has room for `remain` more.
-/

namespace JKYi.Http2

open Nat List

def setByte (buff : List UInt8) (i : ℕ) (t : UInt8) : Option (List UInt8) :=
  if i < buff.length then some (buff.set i t) else none

def orByte (buff : List UInt8) (i t : ℕ) : Option (List UInt8) :=
  setByte buff i (buff.getD i 0 ||| UInt8.ofNat t)

/-- The loop of `hf_byte_encode`. Every round but the last one uses up bits of the
code, so there are at most `nbits + 1` of them. -/
def hfByteEncodeLoop (codes : ℕ) : ℕ → ℕ → ℕ → ℕ → List UInt8 → Option (ℕ × List UInt8)
  | 0, _, _, _, _ => none
  | rounds + 1, nbits, remain, i, buff =>
    if nbits < remain then do
      let buff ← orByte buff i (codes <<< (remain - nbits))
      pure (remain - nbits, buff)
    else do
      let buff ← orByte buff i (codes >>> (nbits - remain))
      let buff ← setByte buff (i + 1) 0
      if nbits - remain = 0 then pure (8, buff)
      else hfByteEncodeLoop codes rounds (nbits - remain) 8 (i + 1) buff

def hfByteEncode (ch : UInt8) (remain j : ℕ) (buff : List UInt8) : Option (ℕ × List UInt8) :=
  hfByteEncodeLoop (hexToHfCode ch) (hexToHfCodeLen ch + 1) (hexToHfCodeLen ch) remain j buff

def encodedBytes (nbits remain : ℕ) : ℕ :=
  if nbits < remain then (remain - nbits) / 8 else (nbits - remain) / 8 + 1

def hfStringEncodeLoop : List UInt8 → ℕ → ℕ → List UInt8 → Option (ℕ × ℕ × List UInt8)
  | [], remain, j, buff => some (remain, j, buff)
  | ch :: input, remain, j, buff => do
    let nbytes := encodedBytes (hexToHfCodeLen ch) remain
    let (remain, buff) ← hfByteEncode ch remain j buff
    hfStringEncodeLoop input remain (j + nbytes) buff

def hfStringEncode (input : List UInt8) (pre : ℕ) (buff : List UInt8) :
    Option (ℕ × List UInt8) := do
  let (remain, j, buff) ← hfStringEncodeLoop input (8 - pre) 0 buff
  if remain < 8 then do
    let buff ← orByte buff j (0x3fffffff >>> (30 - remain))
    pure (j + 1, buff)
  else pure (j, buff)

/-- `std::string::resize`. -/
def resize (s : List UInt8) (n : ℕ) : List UInt8 := s.take n ++ List.replicate (n - s.length) 0

/-- `JKYI_MAX_HUFFMAN_BUFF_LEN`. -/
def maxHuffmanBuffLen (l : ℕ) : ℕ := l * 8 + 1

/-- `Huffman::EncodeString(in, out, prefix)`: the result and `out`. A buffer size
beyond `int` is undefined. -/
def encodeString {σ : Type} (input out : List UInt8) (pre : ℕ) :
    Run Exn σ (ℤ × List UInt8) :=
  if 2 ^ 31 ≤ maxHuffmanBuffLen input.length then Run.crash
  else
    match hfStringEncode input pre (resize out (maxHuffmanBuffLen input.length)) with
    | none => Run.crash
    | some (len, buff) => pure (0, resize buff len)

/-- `Huffman::EncodeLen`, with a length in bits that an `int` holds. -/
def encodeLen (input : List UInt8) : Option ℤ :=
  let len := ((input.take (intOfSize input.length).toNat).map hexToHfCodeLen).sum
  if len + 7 < 2 ^ 31 then some ((len + 7) / 8 : ℕ) else none

def shouldEncode (input : List UInt8) : Option Bool :=
  (encodeLen input).map fun len => decide (len < intOfSize input.length)

def encodeBits (s : List UInt8) : List Bool := s.flatMap codeWord

theorem encodeBits_cons (ch : UInt8) (s : List UInt8) :
    encodeBits (ch :: s) = codeWord ch ++ encodeBits s := rfl

variable {r x : ℕ}

theorem byte_or_bits {v : UInt8} {k : ℕ} (hv : v.toNat % 2 ^ r = 0) (hk : k ≤ r) (hr : r ≤ 8)
    (hx : x < 2 ^ k) :
    (v ||| UInt8.ofNat (x * 2 ^ (r - k))).toNat % 2 ^ (r - k) = 0 ∧
    bits (8 - (r - k)) ((v ||| UInt8.ofNat (x * 2 ^ (r - k))).toNat >>> (r - k)) =
      bits (8 - r) (v.toNat >>> r) ++ bits k x := by
  obtain ⟨l, rfl⟩ := Nat.exists_eq_add_of_le hk
  have hl : k + l - k = l := by omega
  obtain ⟨m, hm⟩ : ∃ m, v.toNat = 2 ^ (k + l) * m := by
    obtain ⟨m, hm⟩ := Nat.dvd_of_mod_eq_zero hv
    exact ⟨m, hm⟩
  have hsmall : x * 2 ^ l < 2 ^ (k + l) := by
    rw [pow_add]
    exact Nat.mul_lt_mul_of_pos_right hx (Nat.two_pow_pos l)
  have hbyte := hsmall.trans_le (Nat.pow_le_pow_right (by simp) hr)
  have hor : (v ||| UInt8.ofNat (x * 2 ^ l)).toNat = 2 ^ l * (2 ^ k * m + x) := by
    rw [UInt8.toNat_or, UInt8.toNat_ofNat_of_lt' hbyte, hm, ← Nat.two_pow_add_eq_or_of_lt hsmall,
      pow_add]
    ring
  rw [hl, hor, Nat.mul_mod_right]
  refine ⟨rfl, ?_⟩
  have hsplit : 8 - l = 8 - (k + l) + k := by omega
  have hshift : (2 ^ l * (2 ^ k * m + x)) >>> l = 2 ^ k * m + x := by
    rw [Nat.shiftRight_eq_div_pow, Nat.mul_div_cancel_left _ (Nat.two_pow_pos l)]
  have hhigh : (2 ^ k * m + x) >>> k = v.toNat >>> (k + l) := by
    rw [Nat.shiftRight_eq_div_pow, Nat.shiftRight_eq_div_pow, hm,
      Nat.mul_div_cancel_left _ (Nat.two_pow_pos _), Nat.mul_add_div (Nat.two_pow_pos k),
      Nat.div_eq_of_lt hx, Nat.add_zero]
  have hlow : bits k (2 ^ k * m + x) = bits k x := by
    rw [bits_inj, Nat.mul_add_mod]
  rw [hsplit, hshift, bits_append, hhigh, hlow]

/-- The first `j` bytes of the buffer and the used bits of byte `j` are `w`; the
`remain` bits left there are zero. -/
structure Filled (buff : List UInt8) (j remain : ℕ) (w : List Bool) : Prop where
  room : j < buff.length
  remain_pos : 0 < remain
  remain_le : remain ≤ 8
  low : (buff.getD j 0).toNat % 2 ^ remain = 0
  bits_eq : byteBits (buff.take j) ++ bits (8 - remain) ((buff.getD j 0).toNat >>> remain) = w

variable {buff : List UInt8} {j remain : ℕ} {w : List Bool}

theorem Filled.length_eq
    (h : Filled buff j remain w) : w.length = 8 * j + (8 - remain) := by
  have hroom := h.room
  rw [← h.bits_eq, length_append, length_byteBits, length_bits, length_take, min_eq_left hroom.le]

variable {t : ℕ}

theorem orByte_eq (hj : j < buff.length) (ht : t % 256 = x) :
    orByte buff j t = some (buff.set j (buff.getD j 0 ||| UInt8.ofNat x)) := by
  have hbyte : UInt8.ofNat t = UInt8.ofNat x := by
    apply UInt8.toNat_inj.mp
    rw [UInt8.toNat_ofNat', UInt8.toNat_ofNat', ← ht]
    exact (mod_mod t 256).symm
  rw [orByte, setByte, if_pos hj, hbyte]

theorem getD_set_self (hj : j < buff.length) (v : UInt8) :
    (buff.set j v).getD j 0 = v := by
  simp [hj]

theorem Filled.put {k : ℕ}
    (h : Filled buff j remain w) (hk : k < remain) (hx : x < 2 ^ k)
    (ht : t % 256 = x * 2 ^ (remain - k)) :
    ∃ buff', orByte buff j t = some buff' ∧ buff'.length = buff.length ∧
      Filled buff' j (remain - k) (w ++ bits k x) := by
  obtain ⟨hroom, hpos, hle, hlow, hbits⟩ := h
  obtain ⟨hlow', hbits'⟩ := byte_or_bits hlow hk.le hle hx
  refine ⟨_, orByte_eq hroom ht, by simp, by simpa using hroom, by omega, by omega, ?_, ?_⟩
  · rw [getD_set_self hroom, hlow']
  · rw [getD_set_self hroom, hbits', take_set_of_le le_rfl, ← append_assoc, hbits]

theorem Filled.fill
    (h : Filled buff j remain w) (hx : x < 2 ^ remain) (ht : t % 256 = x) :
    ∃ buff', orByte buff j t = some buff' ∧ buff'.length = buff.length ∧
      byteBits (buff'.take (j + 1)) = w ++ bits remain x := by
  obtain ⟨hroom, hpos, hle, hlow, hbits⟩ := h
  obtain ⟨-, hbits'⟩ := byte_or_bits hlow le_rfl hle hx
  rw [Nat.sub_self, pow_zero, Nat.mul_one, Nat.sub_zero, Nat.shiftRight_zero] at hbits'
  refine ⟨_, orByte_eq hroom ht, by simp, ?_⟩
  rw [take_succ_eq_append_getElem (by simpa using hroom), getElem_set_self,
    take_set_of_le le_rfl, byteBits_append, byteBits_cons, byteBits_nil, append_nil,
    hbits', ← append_assoc, hbits]

theorem filled_next (hroom : j + 1 < buff.length)
    (hw : byteBits (buff.take (j + 1)) = w) :
    ∃ buff', setByte buff (j + 1) 0 = some buff' ∧ buff'.length = buff.length ∧
      Filled buff' (j + 1) 8 w := by
  refine ⟨buff.set (j + 1) 0, if_pos hroom, by simp, by simpa using hroom, by norm_num, le_rfl,
    ?_, ?_⟩
  · rw [getD_set_self hroom]
    rfl
  · rw [take_set_of_le le_rfl, hw]
    exact append_nil w

variable {nbits : ℕ}

theorem encodedBytes_of_lt (h0 : 0 < nbits) (h : nbits < remain)
    (hle : remain ≤ 8) : encodedBytes nbits remain = 0 := by
  rw [encodedBytes, if_pos h]
  omega

theorem encodedBytes_of_ge (h : remain ≤ nbits) :
    encodedBytes nbits remain =
      1 + if nbits - remain = 0 then 0 else encodedBytes (nbits - remain) 8 := by
  unfold encodedBytes
  split_ifs <;> omega

theorem bits_mod_byte (hr : r ≤ 8) (n : ℕ) : bits r (n % 256) = bits r n := by
  rw [bits_inj]
  exact mod_mod_of_dvd n (pow_dvd_pow 2 hr)

variable {codes : ℕ}

theorem code_shiftLeft (hlt : nbits < remain) (hle : remain ≤ 8)
    (hcode : codes % 2 ^ (nbits + 8 - remain) < 2 ^ nbits) :
    (codes <<< (remain - nbits)) % 256 = codes % 2 ^ nbits * 2 ^ (remain - nbits) := by
  have hpow : 256 = 2 ^ (nbits + 8 - remain) * 2 ^ (remain - nbits) := by
    rw [← pow_add, show nbits + 8 - remain + (remain - nbits) = 8 by omega]
    norm_num
  have hmod : codes % 2 ^ nbits = codes % 2 ^ (nbits + 8 - remain) := by
    rw [← mod_mod_of_dvd codes (pow_dvd_pow 2 (by omega : nbits ≤ nbits + 8 - remain)),
      mod_eq_of_lt hcode]
  rw [shiftLeft_eq, hpow, mul_mod_mul_right, hmod]

theorem code_shiftRight (hge : remain ≤ nbits)
    (hcode : codes % 2 ^ (nbits + 8 - remain) < 2 ^ nbits) :
    codes >>> (nbits - remain) % 256 < 2 ^ remain := by
  have hpow : 2 ^ (nbits + 8 - remain) = 2 ^ (nbits - remain) * 256 := by
    rw [show nbits + 8 - remain = nbits - remain + 8 by omega, pow_add]
    norm_num
  rw [Nat.shiftRight_eq_div_pow, ← Nat.mod_mul_right_div_self, ← hpow,
    Nat.div_lt_iff_lt_mul (Nat.two_pow_pos _), ← pow_add, Nat.add_sub_cancel' hge]
  exact hcode

/-- The loop of `hf_byte_encode` appends the low `nbits` bits of the code, if the
bits above them do not reach into the current byte. -/
theorem hfByteEncodeLoop_ok : ∀ {rounds nbits remain j : ℕ} {buff : List UInt8}
    {w : List Bool}, 0 < nbits → nbits < rounds → Filled buff j remain w →
    codes % 2 ^ (nbits + 8 - remain) < 2 ^ nbits →
    j + encodedBytes nbits remain < buff.length →
    ∃ remain' buff', hfByteEncodeLoop codes rounds nbits remain j buff = some (remain', buff') ∧
      buff'.length = buff.length ∧
      Filled buff' (j + encodedBytes nbits remain) remain' (w ++ bits nbits codes) := by
  intro rounds
  induction rounds with
  | zero =>
    intro nbits _ _ _ _ _ hr
    omega
  | succ rounds ih =>
    intro nbits remain j buff w h0 hr h hcode hroom
    have hle := h.remain_le
    have hpos := h.remain_pos
    by_cases hlt : nbits < remain
    · obtain ⟨buff', hor, hlen, hfilled⟩ := h.put hlt (Nat.mod_lt _ (Nat.two_pow_pos nbits))
        (code_shiftLeft hlt hle hcode)
      rw [bits_mod] at hfilled
      refine ⟨remain - nbits, buff', ?_, hlen, ?_⟩
      · rw [hfByteEncodeLoop, if_pos hlt, hor]
        rfl
      · rwa [encodedBytes_of_lt h0 hlt hle]
    · have hge := not_lt.mp hlt
      obtain ⟨buff₁, hor, hlen₁, hw₁⟩ := h.fill (code_shiftRight hge hcode) rfl
      rw [encodedBytes_of_ge hge] at hroom ⊢
      rw [bits_mod_byte hle] at hw₁
      obtain ⟨buff₂, hset, hlen₂, hfilled⟩ := filled_next (by omega) hw₁
      have hword : bits nbits codes =
          bits remain (codes >>> (nbits - remain)) ++ bits (nbits - remain) codes := by
        rw [← bits_append, Nat.add_sub_cancel' hge]
      have hrun : hfByteEncodeLoop codes (rounds + 1) nbits remain j buff =
          if nbits - remain = 0 then some (8, buff₂)
          else hfByteEncodeLoop codes rounds (nbits - remain) 8 (j + 1) buff₂ := by
        simp [hfByteEncodeLoop, hlt, hor, hset]
      rw [hrun, hword]
      by_cases hlast : nbits - remain = 0
      · refine ⟨8, buff₂, if_pos hlast, by omega, ?_⟩
        simpa [hlast, bits] using hfilled
      · rw [if_neg hlast, if_neg hlast] at *
        obtain ⟨remain', buff', hloop, hlen, hfilled'⟩ :=
          ih (by omega : 0 < nbits - remain) (by omega) hfilled
            (Nat.mod_lt _ (Nat.two_pow_pos _)) (by omega)
        refine ⟨remain', buff', hloop, by omega, ?_⟩
        rwa [append_assoc, Nat.add_assoc] at hfilled'

variable {input : List UInt8}

theorem hfStringEncodeLoop_ok : ∀ {remain j : ℕ} {buff : List UInt8}
    {w : List Bool}, Filled buff j remain w →
    (w.length + 30 * input.length) / 8 < buff.length →
    ∃ remain' j' buff', hfStringEncodeLoop input remain j buff = some (remain', j', buff') ∧
      Filled buff' j' remain' (w ++ encodeBits input) := by
  induction input with
  | nil =>
    intro remain j buff w h _
    refine ⟨remain, j, buff, rfl, ?_⟩
    simpa [encodeBits] using h
  | cons ch input ih =>
    intro remain j buff w h hroom
    have hlen := h.length_eq
    have hle := h.remain_le
    have hmin := hexToHfCodeLen_ge ch
    have hmax := hexToHfCodeLen_le ch
    rw [length_cons] at hroom
    have hcode : hexToHfCode ch % 2 ^ (hexToHfCodeLen ch + 8 - remain) < 2 ^ hexToHfCodeLen ch :=
      (mod_le _ _).trans_lt (hexToHfCode_lt ch)
    have hbytes : j + encodedBytes (hexToHfCodeLen ch) remain < buff.length := by
      unfold encodedBytes
      split_ifs <;> omega
    obtain ⟨remain₁, buff₁, hrun, hlen₁, hfilled⟩ :=
      hfByteEncodeLoop_ok (by omega) (lt_succ_self _) h hcode hbytes
    have hword : (w ++ bits (hexToHfCodeLen ch) (hexToHfCode ch)).length =
        w.length + hexToHfCodeLen ch := by
      rw [length_append, length_bits]
    obtain ⟨remain', j', buff', hrest, hfilled'⟩ := ih hfilled (by rw [hword, hlen₁]; omega)
    refine ⟨remain', j', buff', ?_, ?_⟩
    · rw [hfStringEncodeLoop, hfByteEncode, hrun]
      exact hrest
    · rwa [append_assoc] at hfilled'

theorem eos_padding (h0 : 0 < r) (h8 : r < 8) :
    0x3fffffff >>> (30 - r) % 256 = 2 ^ r - 1 := by
  interval_cases r <;> rfl

theorem resize_eq_take {s : List UInt8} {n : ℕ} (h : n ≤ s.length) : resize s n = s.take n := by
  simp [resize, h]

/-- `EncodeString` into an empty string stays inside its buffer and yields the
code words, padded with ones to a whole number of bytes. -/
theorem encodeString_ok {σ : Type} (s : σ)
    (hlen : maxHuffmanBuffLen input.length < 2 ^ 31) :
    ∃ out k, encodeString input [] 0 s = .ok (0, out) s ∧ k < 8 ∧
      byteBits out = encodeBits input ++ List.replicate k true := by
  have hbuff : resize [] (maxHuffmanBuffLen input.length) =
      List.replicate (maxHuffmanBuffLen input.length) 0 := by
    simp [resize]
  have hstart : Filled (resize [] (maxHuffmanBuffLen input.length)) 0 8 [] := by
    rw [hbuff]
    refine ⟨by simp [maxHuffmanBuffLen], by norm_num, le_rfl, ?_, ?_⟩
    · simp [maxHuffmanBuffLen]
    · simp [bits]
  have hroom :
      ([] : List Bool).length + 30 * input.length < 8 * maxHuffmanBuffLen input.length := by
    simp only [length_nil, maxHuffmanBuffLen]
    omega
  obtain ⟨remain, j, buff, hloop, hfilled⟩ : ∃ remain' j' buff',
      hfStringEncodeLoop input 8 0 (resize [] (maxHuffmanBuffLen input.length)) =
        some (remain', j', buff') ∧ Filled buff' j' remain' ([] ++ encodeBits input) :=
    hfStringEncodeLoop_ok hstart (by rw [hbuff, length_replicate]; omega)
  have hpos := hfilled.remain_pos
  have hj := hfilled.room
  by_cases hfull : remain < 8
  · obtain ⟨buff', hor, hlen', hbits⟩ := hfilled.fill
      (Nat.sub_lt (Nat.two_pow_pos remain) Nat.one_pos) (eos_padding hpos hfull)
    rw [bits_ones] at hbits
    refine ⟨buff'.take (j + 1), remain, ?_, hfull, hbits⟩
    rw [encodeString, if_neg (not_le.mpr hlen), hfStringEncode, Nat.sub_zero, hloop]
    simp [hfull, hor, resize_eq_take (by omega : j + 1 ≤ buff'.length)]
  · obtain rfl : remain = 8 := le_antisymm hfilled.remain_le (not_lt.mp hfull)
    refine ⟨buff.take j, 0, ?_, by norm_num, ?_⟩
    · rw [encodeString, if_neg (not_le.mpr hlen), hfStringEncode, Nat.sub_zero, hloop]
      simp [resize_eq_take hj.le]
    · simpa [bits] using hfilled.bits_eq

/-! The length of the code. -/

theorem length_encodeBits (s : List UInt8) :
    (encodeBits s).length = (s.map hexToHfCodeLen).sum := by
  simp [encodeBits, length_flatMap, length_codeWord]

theorem length_encodeBits_le (s : List UInt8) : (encodeBits s).length ≤ 30 * s.length := by
  induction s with
  | nil => rfl
  | cons ch s ih =>
    have hle := hexToHfCodeLen_le ch
    rw [encodeBits_cons, length_append, length_codeWord, length_cons]
    omega

theorem encodeLen_eq (hlen : 30 * input.length + 7 < 2 ^ 31) :
    encodeLen input = some ((((encodeBits input).length + 7) / 8 : ℕ) : ℤ) := by
  have hle := length_encodeBits_le input
  unfold encodeLen
  rw [intOfSize_eq (by omega : input.length < 2 ^ 31), Int.toNat_natCast, take_length,
    ← length_encodeBits]
  exact if_pos (by omega)

/-- `EncodeLen` is the length of what `EncodeString` makes of the string, and `ShouldEncode` tells
whether that is shorter. -/
theorem encodeLen_eq_length {σ : Type} (s : σ) (input : List UInt8)
    (hlen : 30 * input.length + 7 < 2 ^ 31) : ∃ out, encodeString input [] 0 s = .ok (0, out) s ∧
      encodeLen input = some (out.length : ℤ) ∧
      (shouldEncode input = some true ↔ out.length < input.length) ∧
      (shouldEncode input = some false ↔ input.length ≤ out.length) := by
  obtain ⟨out, k, hrun, hk, hbits⟩ := encodeString_ok s
    (by rw [maxHuffmanBuffLen]; omega : maxHuffmanBuffLen input.length < 2 ^ 31)
  have hout : 8 * out.length = (encodeBits input).length + k := by
    rw [← length_byteBits, hbits, length_append, length_replicate]
  have hcode : encodeLen input = some (out.length : ℤ) := by
    rw [encodeLen_eq hlen, Option.some.injEq, Nat.cast_inj]
    omega
  have hshould : shouldEncode input = some (decide (out.length < input.length)) := by
    rw [shouldEncode, hcode, Option.map_some, intOfSize_eq (by omega : input.length < 2 ^ 31)]
    simp only [Nat.cast_lt]
  refine ⟨out, hrun, hcode, ?_, ?_⟩
  · rw [hshould, Option.some.injEq, decide_eq_true_iff]
  · rw [hshould, Option.some.injEq, decide_eq_false_iff_not, not_lt]

theorem encodeLen_eq_length_www : ∃ out, encodeString [119, 119, 119] [] 0 () = .ok (0, out) () ∧
    encodeLen [119, 119, 119] = some (out.length : ℤ) ∧
    (shouldEncode [119, 119, 119] = some true ↔ out.length < 3) := by
  obtain ⟨out, hrun, hlen, hshould, -⟩ := encodeLen_eq_length () [119, 119, 119] (by decide)
  exact ⟨out, hrun, hlen, hshould⟩

end JKYi.Http2
