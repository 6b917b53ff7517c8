import JKYi.ByteArray.Codec
import JKYi.Http2.HPack
import JKYi.Http2.HuffmanOutcome
import JKYi.Http2.HeaderFormat

/-!
# Reading representations

What the readers of `HPack` make of the bytes of the format. Integers and
strings come back as they were encoded; a field is read as its kind, its index
and its strings, before the table is asked. `Crashes` is for the one thing that
goes wrong here: a Huffman coded string too long for the `int` arithmetic of
the decoder.
-/

namespace JKYi.Http2

open HPack Nat JKYi.ByteArray Format List Run

variable {e : Endian} {α β : Type}

def Crashes (e : Endian) (x : Run Exn ByteArray α) (d : List UInt8) : Prop :=
  ∀ (ba : ByteArray) (rest : List UInt8), ba.Wf → ba.endian = e → ba.unread = d ++ rest →
    x ba = .crash

variable {d : List UInt8}

theorem Crashes.append {x : Run Exn ByteArray α} (hx : Crashes e x d)
    (c : List UInt8) : Crashes e x (d ++ c) := by
  intro ba rest h he hunread
  rw [append_assoc] at hunread
  exact hx ba _ h he hunread

theorem Crashes.bind {x : Run Exn ByteArray α} {f : α → Run Exn ByteArray β}
    (hx : Crashes e x d) : Crashes e (x >>= f) d := by
  intro ba rest h he hunread
  exact bind_crash (hx ba rest h he hunread)

theorem Crashes.map {x : Run Exn ByteArray α} {f : α → β} (hx : Crashes e x d) :
    Crashes e (f <$> x) d :=
  hx.bind

variable {c : List UInt8}

theorem reads_bind_crashes {x : Run Exn ByteArray α} {f : α → Run Exn ByteArray β} {a : α}
    (hx : Reads e x a d) (hf : Crashes e (f a) c) :
    Crashes e (x >>= f) (d ++ c) := by
  intro ba rest h he hunread
  rw [append_assoc] at hunread
  rw [bind_ok (hx ba _ h he hunread)]
  exact hf _ rest (advance_wf h (length_le_getReadSize h hunread)) he
    (unread_advance_append hunread)

/-! Integers. -/

theorem and_80_eq_zero : ∀ b : UInt8, b &&& 0x80 = 0 ↔ b.toNat < 128 :=
  forall_byte (by decide +kernel)

theorem and_7f_toNat : ∀ b : UInt8, (b &&& 0x7f).toNat = b.toNat % 128 :=
  forall_byte (by decide +kernel)

variable {b : UInt8} {rounds m iv n : ℕ}

theorem readVarIntRest_step (iv' : ℕ)
    (hiv : iv + b.toNat % 128 * 2 ^ m = iv') (hlt : iv' < 2 ^ 64)
    (hmore : 128 ≤ b.toNat → Reads e (readVarIntRest rounds (m + 7) iv') n d)
    (hlast : b.toNat < 128 → iv' = n ∧ d = []) :
    Reads e (readVarIntRest (rounds + 1) m iv) n (b :: d) := by
  have hsum : (iv + (b &&& 0x7f).toNat <<< m) % 2 ^ 64 = iv' := by
    rw [and_7f_toNat, shiftLeft_eq, hiv, mod_eq_of_lt hlt]
  rw [readVarIntRest]
  refine (reads_readFuint8 b).bind (d := [b]) ?_
  rw [hsum]
  by_cases hb : b.toNat < 128
  · obtain ⟨rfl, rfl⟩ := hlast hb
    rw [if_neg (not_not.mpr ((and_80_eq_zero b).mpr hb))]
    exact reads_pure _
  · rw [if_pos (fun h => hb ((and_80_eq_zero b).mp h))]
    exact hmore (not_lt.mp hb)

theorem readVarIntRest_last (hn : n < 128) (hlt : iv + n * 2 ^ m < 2 ^ 64) :
    Reads e (readVarIntRest (rounds + 1) m iv) (iv + n * 2 ^ m) (varintBytes n) := by
  have hbyte : (UInt8.ofNat n).toNat = n := UInt8.toNat_ofNat_of_lt' (by rw [UInt8.size]; omega)
  rw [varintBytes_of_lt hn]
  apply readVarIntRest_step (iv + n * 2 ^ m)
  · rw [hbyte, mod_eq_of_lt hn]
  · exact hlt
  · intro hmore
    omega
  · intro _
    exact ⟨rfl, rfl⟩

theorem reads_readVarIntRest (hn : n < 128 ^ (rounds + 1))
    (hlt : iv + n * 2 ^ m < 2 ^ 64) :
    Reads e (readVarIntRest (rounds + 1) m iv) (iv + n * 2 ^ m) (varintBytes n) := by
  induction rounds generalizing m iv n with
  | zero => exact readVarIntRest_last (by simpa using hn) hlt
  | succ rounds ih =>
    rcases lt_or_ge n 128 with hlast | hmore
    · exact readVarIntRest_last hlast hlt
    · have hbyte : (UInt8.ofNat (n % 128 + 128)).toNat = n % 128 + 128 :=
        UInt8.toNat_ofNat_of_lt' (by rw [UInt8.size]; omega)
      have hsplit : n % 128 * 2 ^ m + n / 128 * 2 ^ (m + 7) = n * 2 ^ m := by
        calc n % 128 * 2 ^ m + n / 128 * 2 ^ (m + 7) = (n % 128 + 128 * (n / 128)) * 2 ^ m := by
              rw [pow_add]
              ring
          _ = n * 2 ^ m := by rw [mod_add_div]
      rw [varintBytes_of_le hmore]
      apply readVarIntRest_step (iv + n % 128 * 2 ^ m)
      · rw [hbyte, add_mod_right, mod_mod]
      · omega
      · intro _
        have hn' : n / 128 < 128 ^ (rounds + 1) := by
          rw [div_lt_iff_lt_mul (by simp), ← pow_succ]
          exact hn
        have hval : iv + n * 2 ^ m = iv + n % 128 * 2 ^ m + n / 128 * 2 ^ (m + 7) := by omega
        rw [hval]
        exact ih hn' (by omega)
      · intro hlt'
        omega

theorem prefixInt_cases (pre flags n : ℕ) (hpre : 1 ≤ pre) (hpre8 : pre ≤ 8)
    (hflags : 2 ^ pre ∣ flags) (hbyte : flags + 2 ^ pre ≤ 256) (hn : n < 2 ^ 64) :
    ∃ b d, prefixInt pre flags n = b :: d ∧ flags ≤ b.toNat ∧ b.toNat < flags + 2 ^ pre ∧
      Reads e (HPack.readVarInt b pre) n d := by
  have hpos : 2 ≤ 2 ^ pre := by
    calc 2 = 2 ^ 1 := rfl
      _ ≤ 2 ^ pre := Nat.pow_le_pow_right (by simp) hpre
  have hle : 2 ^ pre ≤ 2 ^ 8 := Nat.pow_le_pow_right (by simp) hpre8
  have hv : (UInt8.ofNat (2 ^ pre - 1)).toNat = 2 ^ pre - 1 :=
    UInt8.toNat_ofNat_of_lt' (by rw [UInt8.size]; omega)
  have hmask : ∀ k, k < 2 ^ pre →
      (UInt8.ofNat (flags + k) &&& UInt8.ofNat (2 ^ pre - 1)).toNat = k := by
    intro k hk
    obtain ⟨c, rfl⟩ := hflags
    rw [UInt8.toNat_and, hv, Nat.and_two_pow_sub_one_eq_mod,
      UInt8.toNat_ofNat_of_lt' (by rw [UInt8.size]; omega), Nat.mul_add_mod, Nat.mod_eq_of_lt hk]
  have htoNat : ∀ k, k < 2 ^ pre → (UInt8.ofNat (flags + k)).toNat = flags + k := fun k hk =>
    UInt8.toNat_ofNat_of_lt' (by rw [UInt8.size]; omega)
  unfold prefixInt
  split_ifs with hsmall
  · refine ⟨_, [], rfl, ?_, ?_, ?_⟩
    · rw [htoNat n (by omega)]
      omega
    · rw [htoNat n (by omega)]
      omega
    · have hless : UInt8.ofNat (flags + n) &&& UInt8.ofNat (2 ^ pre - 1) <
          UInt8.ofNat (2 ^ pre - 1) := by
        rw [UInt8.lt_iff_toNat_lt, hmask n (by omega), hv]
        exact hsmall
      rw [HPack.readVarInt]
      rw [if_pos hless, hmask n (by omega)]
      exact reads_pure n
  · refine ⟨_, _, rfl, ?_, ?_, ?_⟩
    · rw [htoNat _ (by omega)]
      omega
    · rw [htoNat _ (by omega)]
      omega
    · have hnot : ¬ UInt8.ofNat (flags + (2 ^ pre - 1)) &&& UInt8.ofNat (2 ^ pre - 1) <
          UInt8.ofNat (2 ^ pre - 1) := by
        rw [UInt8.lt_iff_toNat_lt, hmask _ (by omega), hv]
        exact lt_irrefl _
      have hval : n = 2 ^ pre - 1 + (n - (2 ^ pre - 1)) * 2 ^ 0 := by omega
      rw [HPack.readVarInt, if_neg hnot, hv]
      conv =>
        arg 3
        rw [hval]
      exact reads_readVarIntRest (by norm_num; omega) (by omega)

/-! Strings. -/

/-- The buffer that the Huffman decoder makes has a size that an `int` holds. -/
def BufferFits (s : StringLiteral) : Prop :=
  s.huffman = true → maxHuffmanBuffLen s.content.length < 2 ^ 31

theorem huffmanBytes_eq_nil {s : List UInt8} (h : huffmanBytes s = []) : s = [] := by
  have hge := length_encodeBits_ge s
  have hlen := length_huffmanBytes s
  rw [h, length_nil] at hlen
  exact length_eq_zero_iff.mp (by omega)

theorem reads_readResized (hd : d ≠ []) (hlen : d.length < 2 ^ 31) :
    Reads e (readResized d.length) d d := by
  have hmax : ¬ stringMaxSize < d.length := by
    unfold stringMaxSize
    omega
  rw [readResized, if_neg hmax]
  exact reads_read hd

theorem readContent_eq (hc : c ≠ []) (hlen : c.length < 2 ^ 31)
    {ba : ByteArray} {rest : List UInt8} (h : ba.Wf) (hunread : ba.unread = c ++ rest) :
    readContent resizeAndRead b c.length ba =
      (if b &&& 0x80 ≠ 0 then decodeString c >>= fun r => pure r.2 else pure c : Run Exn _ _)
        (ba.advance c.length) := by
  have hne : (c.length : ℤ) ≠ 0 := by
    have := length_pos_iff.mpr hc
    omega
  have hsize : ((c.length : ℤ) % 2 ^ 64).toNat = c.length := by omega
  rw [readContent, if_neg hne, resizeAndRead, hsize,
    bind_ok (reads_readResized hc hlen _ _ h rfl hunread)]

theorem readString_eq
    (hread : Reads e (readVarInt b 7) c.length d) (hc : c ≠ []) (hlen : c.length < 2 ^ 31)
    {ba : ByteArray} {rest : List UInt8} (h : ba.Wf) (he : ba.endian = e)
    (hunread : ba.unread = [b] ++ (d ++ (c ++ rest))) :
    readString ba =
      (if b &&& 0x80 ≠ 0 then decodeString c >>= fun r => pure r.2 else pure c : Run Exn _ _)
        (ba.advance ([b] ++ (d ++ c)).length) := by
  have h₁ := advance_wf h (length_le_getReadSize h hunread)
  have hu₁ := unread_advance_append hunread
  have h₂ := advance_wf h₁ (length_le_getReadSize h₁ hu₁)
  rw [readString, readStringBy, bind_ok (reads_readFuint8 b ba _ h he hunread),
    bind_ok (hread _ _ h₁ he hu₁), intOfSize_eq hlen,
    readContent_eq hc hlen h₂ (unread_advance_append hu₁), advance_advance, advance_advance,
    length_append, length_append]

theorem readString_empty (hread : Reads e (readVarInt b 7) 0 d) :
    Reads e readString [] ([b] ++ d) := by
  intro ba rest h he hunread
  rw [append_assoc] at hunread
  have h₁ := advance_wf h (length_le_getReadSize h hunread)
  rw [readString, readStringBy, bind_ok (reads_readFuint8 b ba _ h he hunread),
    bind_ok (hread _ _ h₁ he (unread_advance_append hunread)), advance_advance,
    length_append, intOfSize_eq (by simp), readContent, if_pos cast_zero,
    pure_run]

theorem and_80_iff {huffman : Bool} (hlow : (if huffman then 0x80 else 0) ≤ b.toNat)
    (hhigh : b.toNat < (if huffman then 0x80 else 0) + 2 ^ 7) :
    (b &&& 0x80 ≠ 0) ↔ huffman = true := by
  rw [ne_eq, and_80_eq_zero]
  cases huffman <;> simp_all

variable {s : StringLiteral}

theorem stringLiteral_cases (hlen : s.content.length < 2 ^ 31) :
    ∃ b d, s.encode = [b] ++ (d ++ s.content) ∧ (b &&& 0x80 ≠ 0 ↔ s.huffman = true) ∧
      Reads e (readVarInt b 7) s.content.length d := by
  obtain ⟨b, d, heq, hlow, hhigh, hread⟩ := prefixInt_cases (e := e) 7
    (if s.huffman then 0x80 else 0) s.content.length (by simp) (by simp)
    (by cases s.huffman <;> decide) (by cases s.huffman <;> decide) (by omega)
  refine ⟨b, d, ?_, and_80_iff hlow hhigh, hread⟩
  rw [StringLiteral.encode, heq]
  rfl

theorem reads_readString (hlen : s.content.length < 2 ^ 31)
    (hfits : BufferFits s) : Reads e readString s.text s.encode := by
  obtain ⟨b, d, hencode, hflag, hread⟩ := stringLiteral_cases (e := e) hlen
  rw [hencode]
  by_cases hc : s.content = []
  · have htext : s.text = [] := by
      unfold StringLiteral.content at hc
      split_ifs at hc
      · exact huffmanBytes_eq_nil hc
      · exact hc
    rw [hc, length_nil] at hread
    rw [hc, htext, append_nil]
    exact readString_empty hread
  · intro ba rest h he hunread
    rw [append_assoc, append_assoc] at hunread
    rw [readString_eq hread hc hlen h he hunread]
    cases hh : s.huffman with
    | false =>
      have hcontent : s.content = s.text := by simp [StringLiteral.content, hh]
      rw [if_neg (by simp [hflag, hh]), hcontent, pure_run]
    | true =>
      obtain ⟨pad, hpad, hbits⟩ := byteBits_huffmanBytes s.text
      have hcontent : s.content = huffmanBytes s.text := by simp [StringLiteral.content, hh]
      rw [← hcontent] at hbits
      rw [if_pos (hflag.mpr hh), bind_ok (decodeString_ok _ hpad hbits (hfits hh)), pure_run]

theorem crashes_readString (hlen : s.content.length < 2 ^ 31)
    (hfits : ¬ BufferFits s) : Crashes e readString s.encode := by
  obtain ⟨b, d, hencode, hflag, hread⟩ := stringLiteral_cases (e := e) hlen
  unfold BufferFits at hfits
  obtain ⟨hh, hbig⟩ := Classical.not_imp.mp hfits
  rw [not_lt] at hbig
  have hc : s.content ≠ [] := by
    intro hnil
    simp [hnil, maxHuffmanBuffLen] at hbig
  intro ba rest h he hunread
  rw [hencode, append_assoc, append_assoc] at hunread
  rw [readString_eq hread hc hlen h he hunread, if_pos (hflag.mpr hh)]
  apply bind_crash
  rw [decodeString, if_pos hbig, crash_run]

/-! Fields. -/

namespace Format

def Indexing.indexedName : Indexing → IndexType
  | incremental => .withIndexingIndexedName
  | without => .withoutIndexingIndexedName
  | never => .nerverIndexedIndexedName

def Indexing.newName : Indexing → IndexType
  | incremental => .withIndexingNewName
  | without => .withoutIndexingNewName
  | never => .nerverIndexedNewName

/-- What `parse` has read of a field when it asks the table. -/
def Field.header : Field → HeaderField
  | indexed i => { type := .indexed, index := i }
  | literal mode (.indexed i) value => { type := mode.indexedName, index := i, value := value.text }
  | literal mode (.literal name) value =>
    { type := mode.newName, name := name.text, value := value.text }

def Field.IndexOk : Field → Prop
  | indexed i => i < 2 ^ 32
  | literal _ (.indexed i) _ => 0 < i ∧ i < 2 ^ 32
  | literal _ (.literal _) _ => True

end Format

theorem flag_bits : ∀ b : UInt8, (b &&& 0x80 = 0 ↔ b.toNat < 0x80) ∧
    (b.toNat < 0x80 → (b &&& 0x40 = 0 ↔ b.toNat < 0x40)) ∧ (b &&& 0xF0 = 0 ↔ b.toNat < 0x10) ∧
    (b.toNat < 0x20 → (b &&& 0x10 = 0 ↔ b.toNat < 0x10)) ∧
    (0x20 ≤ b.toNat → b.toNat < 0x30 → b &&& 0x10 = 0) :=
  forall_byte (by decide +kernel)

theorem readRepresentation_indexed (hlow : 0x80 ≤ b.toNat) :
    readRepresentation b = (do
      let idx ← readVarInt b 7
      pure (some { type := .indexed, index := idx % 2 ^ 32 })) := by
  obtain ⟨h80, -⟩ := flag_bits b
  rw [readRepresentation, if_pos (by rw [ne_eq, h80]; omega)]

theorem readRepresentation_literal (mode : Indexing) (hlow : mode.flags ≤ b.toNat)
    (hhigh : b.toNat < mode.flags + 2 ^ mode.pre) : readRepresentation b =
      some <$> readLiteral b mode.pre mode.indexedName mode.newName := by
  obtain ⟨h80, h40, hF0, h10, -⟩ := flag_bits b
  rw [readRepresentation]
  cases mode with simp only [Indexing.flags, Indexing.pre] at hlow hhigh
  | incremental =>
    rw [if_neg (by rw [not_not, h80]; omega), if_pos (by rw [ne_eq, h40 (by omega)]; omega)]
    rfl
  | without =>
    rw [if_neg (by rw [not_not, h80]; omega), if_neg (by rw [not_not, h40 (by omega)]; omega),
      if_pos (by rw [hF0]; omega)]
    rfl
  | never =>
    rw [if_neg (by rw [not_not, h80]; omega), if_neg (by rw [not_not, h40 (by omega)]; omega),
      if_neg (by rw [hF0]; omega), if_pos (by rw [ne_eq, h10 (by omega)]; omega)]
    rfl

theorem readRepresentation_update (hlow : 0x20 ≤ b.toNat) (hhigh : b.toNat < 0x30) :
    readRepresentation b = pure none := by
  obtain ⟨h80, h40, hF0, -, h10⟩ := flag_bits b
  rw [readRepresentation, if_neg (by rw [not_not, h80]; omega),
    if_neg (by rw [not_not, h40 (by omega)]; omega), if_neg (by rw [hF0]; omega),
    if_neg (not_not.mpr (h10 hlow hhigh))]

theorem literal_cases (mode : Indexing) (hn : n < 2 ^ 32) :
    ∃ b d, prefixInt mode.pre mode.flags n = [b] ++ d ∧
      readRepresentation b =
        some <$> readLiteral b mode.pre mode.indexedName mode.newName ∧
      Reads e (readVarInt b mode.pre) n d := by
  obtain ⟨b, d, heq, hlow, hhigh, hread⟩ := prefixInt_cases (e := e) mode.pre mode.flags n
    (by cases mode <;> decide) (by cases mode <;> decide) (by cases mode <;> decide)
    (by cases mode <;> decide) (hn.trans (by simp))
  exact ⟨b, d, heq, readRepresentation_literal mode hlow hhigh, hread⟩

theorem reads_literal (mode : Indexing) (hn : n < 2 ^ 32) {h : HeaderField}
    {w : List UInt8}
    (hstrings : Reads e (readStrings (if 0 < n then mode.indexedName else mode.newName) n) h w) :
    Reads e readField (some h) (prefixInt mode.pre mode.flags n ++ w) := by
  obtain ⟨b, d, heq, hbranch, hread⟩ := literal_cases (e := e) mode hn
  rw [readField, heq, append_assoc]
  refine (reads_readFuint8 b).bind ?_
  rw [hbranch]
  refine Reads.map (x := readLiteral b mode.pre mode.indexedName mode.newName) ?_ some
  refine hread.bind ?_
  rwa [mod_eq_of_lt hn]

theorem reads_readField {f : Field} (hidx : f.IndexOk)
    (hstrings : ∀ s ∈ f.strings, s.content.length < 2 ^ 31 ∧ BufferFits s) :
    Reads e readField (some f.header) f.encode := by
  cases f with
  | indexed i =>
    rw [readField]
    obtain ⟨b, d, heq, hlow, -, hread⟩ := prefixInt_cases (e := e) 7 0x80 i (by simp)
      (by simp) (by simp) (by simp) (lt_trans hidx (by simp))
    have hval : (some { type := .indexed, index := i } : Option HeaderField) =
        some { type := .indexed, index := i % 2 ^ 32 } := by
      rw [mod_eq_of_lt hidx]
    rw [Field.encode, heq, Field.header, hval]
    refine (reads_readFuint8 b).bind (d := [b]) ?_
    rw [readRepresentation_indexed hlow]
    exact hread.map fun idx => some ({ type := .indexed, index := idx % 2 ^ 32 } : HeaderField)
  | literal mode name value =>
    have hvalue := hstrings value (by cases name <;> simp [Field.strings])
    have hrvalue := reads_readString (e := e) hvalue.1 hvalue.2
    cases name with
    | indexed i =>
      refine reads_literal mode hidx.2 ?_
      rw [if_pos hidx.1, readStrings, if_pos hidx.1.ne']
      exact hrvalue.map fun value =>
        ({ type := mode.indexedName, index := i, value := value } : HeaderField)
    | literal name =>
      have hname := hstrings name (by simp [Field.strings])
      have hrname := reads_readString (e := e) hname.1 hname.2
      refine reads_literal mode (by simp) ?_
      rw [if_neg (lt_irrefl 0), readStrings, if_neg (not_not.mpr rfl)]
      refine hrname.bind ?_
      exact hrvalue.map fun value =>
        ({ type := mode.newName, index := 0, name := name.text, value := value } : HeaderField)

theorem crashes_literal (mode : Indexing) (hn : n < 2 ^ 32) {w : List UInt8}
    (hstrings : Crashes e (readStrings (if 0 < n then mode.indexedName else mode.newName) n) w) :
    Crashes e readField (prefixInt mode.pre mode.flags n ++ w) := by
  obtain ⟨b, d, heq, hbranch, hread⟩ := literal_cases (e := e) mode hn
  rw [readField, heq, append_assoc]
  refine reads_bind_crashes (reads_readFuint8 b) ?_
  rw [hbranch]
  refine Crashes.map (reads_bind_crashes hread ?_)
  rwa [mod_eq_of_lt hn]

theorem crashes_readField {f : Field} (hidx : f.IndexOk)
    (hlen : ∀ s ∈ f.strings, s.content.length < 2 ^ 31)
    (hfits : ¬ ∀ s ∈ f.strings, BufferFits s) : Crashes e readField f.encode := by
  cases f with
  | indexed i => simp [Field.strings] at hfits
  | literal mode name value =>
    have hvalue := hlen value (by cases name <;> simp [Field.strings])
    cases name with
    | indexed i =>
      have hbad : ¬ BufferFits value := by simpa [Field.strings] using hfits
      refine crashes_literal mode hidx.2 ?_
      rw [readStrings, if_pos hidx.1.ne']
      exact (crashes_readString hvalue hbad).bind
    | literal name =>
      have hname := hlen name (by simp [Field.strings])
      refine crashes_literal mode (by simp) ?_
      rw [readStrings, if_neg (not_not.mpr rfl)]
      by_cases hfirst : BufferFits name
      · have hbad : ¬ BufferFits value := by simpa [Field.strings, hfirst] using hfits
        exact reads_bind_crashes (reads_readString hname hfirst)
          (crashes_readString hvalue hbad).bind
      · exact (crashes_readString hname hfirst).bind.append _

end JKYi.Http2
