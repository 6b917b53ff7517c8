import JKYi.Http2.VarInt

/-!
# Strings written and read back

`WriteString` announces the length of the Huffman code and then writes as many bytes of it as the
string has. So a string comes back if its code is just as long, and if its length is written
without a continuation byte.
-/

namespace JKYi.Http2

open JKYi.ByteArray Format HPack List Run

variable {r : ByteArray} {n : ℕ} {s : List UInt8}

/-- `WriteString` returns, and `ReadString` returns the string from the bytes written and passes
exactly these, whatever follows. -/
def StringReturns (str : List UInt8) (h : Bool) (ba : ByteArray) : Prop :=
  ∃ n ba' bytes, writeString str h ba = .ok n ba' ∧ Written ba bytes ba' ∧
    ∀ (r : ByteArray) (rest : List UInt8), r.Wf → r.unread = bytes ++ rest →
      readString r = .ok str (r.advance bytes.length)

def stringFlags (h : Bool) : UInt8 := if h then 0x80 else 0

def stringBytes (str : List UInt8) (h : Bool) : List UInt8 :=
  let content := StringLiteral.content ⟨h, str⟩
  varIntBytes 7 content.length (stringFlags h) ++ (content ++ [0]).take str.length

section

variable {str : List UInt8} {h : Bool} {ba ba' : ByteArray}

theorem written_lengthAndContent {ba₁ : ByteArray} {flags : UInt8} {d : List UInt8} {k : ℤ}
    {u : Unit} (hwf : ba.Wf) (hlen : writeVarInt 7 n flags ba = .ok k ba₁)
    (hwrite : write d ba₁ = .ok u ba') : Written ba (varIntBytes 7 n flags ++ d) ba' := by
  have hfirst := (writes_writeVarInt 7 n flags ba hwf rfl).1 () ba₁ (discard_ok hlen)
  exact hfirst.append hwf (write_ok hfirst.wf hwrite)

theorem writeString_inv {n : ℤ} (hwf : ba.Wf) (hrun : writeString str h ba = .ok n ba') :
    Written ba (stringBytes str h) ba' ∧
      str.length ≤ (StringLiteral.content ⟨h, str⟩).length + 1 := by
  rw [writeString, bind_ok (get_run ba)] at hrun
  cases h with
  | false =>
    have htake : (str ++ [0]).take str.length = str := take_left
    simp only [Bool.false_eq_true, if_false] at hrun
    obtain ⟨k, ba₁, hlen, hrun₁⟩ := bind_eq_ok_iff.mp hrun
    obtain ⟨u, ba₂, hwrite, hrun₂⟩ := bind_eq_ok_iff.mp hrun₁
    cases hrun₂
    refine ⟨?_, Nat.le_succ _⟩
    simp only [stringBytes, StringLiteral.content, stringFlags, Bool.false_eq_true, if_false, htake]
    exact written_lengthAndContent hwf hlen hwrite
  | true =>
    simp only [if_true] at hrun
    obtain ⟨r, ba₀, hencode, hrun₀⟩ := bind_eq_ok_iff.mp hrun
    have hfits : maxHuffmanBuffLen str.length < 2 ^ 31 := by
      by_contra hbig
      rw [encodeString, if_pos (not_lt.mp hbig)] at hencode
      cases hencode
    cases hencode.symm.trans (encodeString_eq ba hfits)
    obtain ⟨k, ba₁, hlen, hrun₁⟩ := bind_eq_ok_iff.mp hrun₀
    unfold cStr at hrun₁
    split_ifs at hrun₁ with hroom
    · obtain ⟨u, ba₂, hwrite, hrun₂⟩ := bind_eq_ok_iff.mp hrun₁
      rw [bind_ok (get_run ba₂)] at hrun₂
      cases hrun₂
      refine ⟨?_, hroom⟩
      simp only [stringBytes, StringLiteral.content, stringFlags, if_true]
      exact written_lengthAndContent hwf hlen hwrite
    · cases hrun₁

theorem writeString_returns (hwf : ba.Wf) (hlen : str.length < 255)
    (hsame : (StringLiteral.content ⟨h, str⟩).length = str.length) :
    ∃ n ba', writeString str h ba = .ok n ba' := by
  have hwrites : ∀ (flags : UInt8) (d : List UInt8), d.length < 255 → ∃ k ba₁ ba₂,
      writeVarInt 7 str.length flags ba = .ok k ba₁ ∧ write d ba₁ = .ok () ba₂ := by
    intro flags d hd
    obtain ⟨ba₁, hint, hdone⟩ := writeVarInt_ok hwf 7 str.length flags (by omega)
    obtain ⟨ba₂, hwrite⟩ := write_total hdone.wf (by omega : d.length < 2 ^ 53)
    exact ⟨_, ba₁, ba₂, hint, hwrite⟩
  cases h with
  | false =>
    obtain ⟨k, ba₁, ba₂, hint, hwrite⟩ := hwrites 0 str hlen
    refine ⟨intOfSize (ba₂.getPosition - ba.getPosition), ba₂, ?_⟩
    rw [writeString, bind_ok (get_run ba)]
    simp only [Bool.false_eq_true, if_false]
    rw [bind_ok hint, bind_ok hwrite, bind_ok (get_run ba₂), pure_run]
  | true =>
    have hcode : (huffmanBytes str).length = str.length := hsame
    have hfits : maxHuffmanBuffLen str.length < 2 ^ 31 := by
      rw [maxHuffmanBuffLen]
      omega
    have hstr : cStr (huffmanBytes str) str.length = some (huffmanBytes str) := by
      rw [cStr, if_pos (by omega), ← hcode, take_left]
    obtain ⟨k, ba₁, ba₂, hint, hwrite⟩ := hwrites 0x80 (huffmanBytes str) (by omega)
    rw [← hcode] at hint
    refine ⟨intOfSize (ba₂.getPosition - ba.getPosition), ba₂, ?_⟩
    rw [writeString, bind_ok (get_run ba)]
    simp only [if_true]
    rw [bind_ok (encodeString_eq ba hfits), bind_ok hint]
    simp only [hstr]
    rw [bind_ok hwrite, bind_ok (get_run ba₂), pure_run]

end

/-! Reading. -/

theorem length_huffmanBytes_le {c : List UInt8} (h : Spells s (byteBits c)) :
    (huffmanBytes s).length ≤ c.length := by
  obtain ⟨r, ch, hbits, -, -⟩ := h
  have hlen := congrArg List.length hbits
  rw [length_byteBits, length_append] at hlen
  rw [length_huffmanBytes]
  omega

theorem readContent_inv {b : UInt8} {r' : ByteArray} (h : r.Wf)
    (hn : n < 255) (hrun : readContent resizeAndRead b n r = .ok s r') :
    r'.position = r.position + n ∧ (b &&& 0x80 ≠ 0 → (huffmanBytes s).length ≤ n) := by
  rw [readContent] at hrun
  split at hrun
  next h0 =>
    cases hrun
    obtain rfl : n = 0 := by omega
    refine ⟨rfl, fun _ => ?_⟩
    rw [length_huffmanBytes]
    exact le_rfl
  · have hsize : ((n : ℤ) % 2 ^ 64).toNat = n := by omega
    rw [resizeAndRead, hsize] at hrun
    obtain ⟨data, r₁, hread, hrest⟩ := bind_eq_ok_iff.mp hrun
    have hmax : ¬ stringMaxSize < n := by
      unfold stringMaxSize
      omega
    rw [readResized, if_neg hmax] at hread
    obtain ⟨hroom, rfl, rfl⟩ := read_inv h hread
    have hlen : (r.unread.take n).length = n := by
      rw [length_take, length_unread h, Nat.min_eq_left hroom]
    split_ifs at hrest with hflag
    · obtain ⟨⟨k, out⟩, r₂, hdecode, hlast⟩ := bind_eq_ok_iff.mp hrest
      cases hlast
      rcases decodeString_cases (r.advance n) (by rw [hlen, maxHuffmanBuffLen]; omega) with
        ⟨s', hok, hspells⟩ | ⟨hraised, -⟩ | ⟨hcrash, -⟩
      · cases hdecode.symm.trans hok
        have hcode := length_huffmanBytes_le hspells
        rw [hlen] at hcode
        exact ⟨rfl, fun _ => hcode⟩
      · cases hdecode.symm.trans hraised
      · cases hdecode.symm.trans hcrash
    · cases hrest
      exact ⟨rfl, fun hset => absurd hset hflag⟩

theorem stringFlags_toNat (h : Bool) : (stringFlags h).toNat = if h then 0x80 else 0 := by
  cases h <;> rfl

theorem dvd_stringFlags (h : Bool) : 2 ^ 7 ∣ (stringFlags h).toNat := by
  cases h <;> decide

theorem readString_inv {flag : Bool} {t : List UInt8} {r' : ByteArray} (h : r.Wf)
    (hn : n < 255) (hunread : r.unread = prefixInt 7 (stringFlags flag).toNat n ++ t)
    (hrun : readString r = .ok s r') :
    r'.position = r.position + (prefixInt 7 (stringFlags flag).toNat n).length + n ∧
      (flag = true → (huffmanBytes s).length ≤ n) := by
  obtain ⟨b, d, heq, hlow, hhigh, hread⟩ := prefixInt_cases (e := r.endian) 7
    (stringFlags flag).toNat n (by simp) (by simp) (dvd_stringFlags flag)
    (flags_add_le (by simp) (dvd_stringFlags flag) (stringFlags flag).toNat_lt) (by omega)
  rw [stringFlags_toNat] at hlow hhigh
  have hflag := and_80_iff hlow hhigh
  rw [heq, cons_append] at hunread
  obtain ⟨h₁, hu₁⟩ := advance_one h hunread
  rw [readString, readStringBy, bind_ok (reads_readFuint8 b r _ h rfl hunread), length_singleton,
    bind_ok (hread _ t h₁ rfl hu₁), intOfSize_eq (by omega)] at hrun
  obtain ⟨hpos, hcode⟩ := readContent_inv (advance_wf h₁ (length_le_getReadSize h₁ hu₁)) hn hrun
  refine ⟨?_, fun hset => hcode (hflag.mpr hset)⟩
  rw [hpos, heq, length_cons]
  change r.position + 1 + d.length + n = _
  omega

section

variable {str : List UInt8} {h : Bool}

theorem stringBytes_eq_encode (hlen : str.length < 255)
    (hsame : (StringLiteral.content ⟨h, str⟩).length = str.length) :
    stringBytes str h = StringLiteral.encode ⟨h, str⟩ := by
  have htake : (StringLiteral.content ⟨h, str⟩ ++ [0]).take str.length =
      StringLiteral.content ⟨h, str⟩ := by
    rw [← hsame, take_left]
  have hbytes := (varIntBytes_eq_iff (by simp) (by simp) (dvd_stringFlags h)
    (by omega)).mpr (by omega : (StringLiteral.content ⟨h, str⟩).length < 2 ^ 7 + 127)
  rw [stringBytes, htake, hbytes, stringFlags_toNat, StringLiteral.encode]

theorem readString_stringBytes (hlen : str.length < 255)
    (hsame : (StringLiteral.content ⟨h, str⟩).length = str.length)
    {rest : List UInt8} (hwf : r.Wf) (hunread : r.unread = stringBytes str h ++ rest) :
    readString r = .ok str (r.advance (stringBytes str h).length) := by
  rw [stringBytes_eq_encode hlen hsame] at hunread ⊢
  have hfits : BufferFits ⟨h, str⟩ := by
    intro _
    rw [maxHuffmanBuffLen, hsame]
    omega
  exact reads_readString (by rw [hsame]; omega) hfits r rest hwf rfl hunread

theorem length_eq_of_readString
    (hroom : str.length ≤ (StringLiteral.content ⟨h, str⟩).length + 1) (hwf : r.Wf)
    (hunread : r.unread = stringBytes str h ++ [])
    (hrun : readString r = .ok str (r.advance (stringBytes str h).length)) :
    str.length < 255 ∧ (StringLiteral.content ⟨h, str⟩).length = str.length := by
  generalize hn : (StringLiteral.content ⟨h, str⟩).length = n
  have htake : ((StringLiteral.content ⟨h, str⟩ ++ [0]).take str.length).length = str.length := by
    rw [length_take, length_append, length_singleton]
    omega
  have hlen : (stringBytes str h).length =
      (varIntBytes 7 n (stringFlags h)).length + str.length := by
    rw [stringBytes, length_append, htake, hn]
  have hbytes : stringBytes str h = varIntBytes 7 n (stringFlags h) ++
      (StringLiteral.content ⟨h, str⟩ ++ [0]).take str.length := by
    rw [stringBytes, hn]
  rw [hbytes, append_assoc] at hunread
  rw [hlen] at hrun
  obtain ⟨m, d, hcont, hm, hexact⟩ :=
    varIntBytes_cases n (by norm_num : 1 ≤ 7) (by simp) (dvd_stringFlags h)
  rw [hcont] at hunread hrun
  rw [append_assoc] at hunread
  obtain ⟨hpos, hcode⟩ := readString_inv hwf hm hunread hrun
  change r.position + _ = _ at hpos
  rw [length_append] at hpos
  by_cases hsmall : n < 255
  · obtain ⟨rfl, rfl⟩ := hexact hsmall
    rw [length_nil] at hpos
    omega
  · exfalso
    cases h with
    | false =>
      have hn' : str.length = n := hn
      omega
    | true =>
      have hn' : (huffmanBytes str).length = n := hn
      have hle := hcode rfl
      omega

theorem StringReturns.length_eq {ba : ByteArray} (hret : StringReturns str h ba) (hwf : ba.Wf) :
    str.length < 255 ∧ (StringLiteral.content ⟨h, str⟩).length = str.length := by
  obtain ⟨n, ba', bytes, hwrite, hwritten, hread⟩ := hret
  obtain ⟨hbytes, hroom⟩ := writeString_inv hwf hwrite
  obtain rfl := hwritten.unique hwf hbytes
  obtain ⟨r, hr, hunread⟩ := exists_unread (stringBytes str h)
  exact length_eq_of_readString hroom hr hunread (hread r [] hr hunread)

/-- A string comes back exactly if it is shorter than 255 bytes and, if it is to be Huffman coded,
its code has as many bytes as itself. -/
theorem stringReturns_iff (str : List UInt8) (h : Bool) (ba : ByteArray) (hwf : ba.Wf) :
    StringReturns str h ba ↔
      str.length < 255 ∧ (h = true → (huffmanBytes str).length = str.length) := by
  have hcontent : (StringLiteral.content ⟨h, str⟩).length = str.length ↔
      (h = true → (huffmanBytes str).length = str.length) := by
    cases h <;> simp [StringLiteral.content]
  rw [← hcontent]
  constructor
  · intro hret
    exact hret.length_eq hwf
  · rintro ⟨hlen, hsame⟩
    obtain ⟨n, ba', hwrite⟩ := writeString_returns hwf hlen hsame
    exact ⟨n, ba', stringBytes str h, hwrite, (writeString_inv hwf hwrite).1,
      fun r rest hr hunread => readString_stringBytes hlen hsame hr hunread⟩

end

theorem stringReturns_iff_abc : StringReturns [97, 98, 99] false (create 16 fun _ => 0) :=
  (stringReturns_iff [97, 98, 99] false _ (create_wf (by norm_num : 0 < 16) fun _ => 0)).mpr
    ⟨by decide, nofun⟩

/-- The code of `aaaa` has three bytes, but four are written behind its length; and a string of 255
bytes has a length that needs a continuation byte. -/
theorem strings_lost : ¬ StringReturns [97, 97, 97, 97] true (create 16 fun _ => 0) ∧
    ¬ StringReturns (List.replicate 255 97) false (create 16 fun _ => 0) := by
  have hwf : (create 16 fun _ => 0).Wf := create_wf (by simp) fun _ => 0
  constructor
  · intro hret
    have hlen : (huffmanBytes [97, 97, 97, 97]).length = 4 := (hret.length_eq hwf).2
    exact absurd hlen (by decide)
  · intro hret
    have hlen := (hret.length_eq hwf).1
    rw [length_replicate] at hlen
    omega

end JKYi.Http2
