import JKYi.Foundation.Bits
import JKYi.Util.Base64

/-!
# Which strings `base64decode` accepts

The decoder gives up inside a group, behind a group and on a group that is not complete. What is
left are the strings of characters of the alphabet, filled up with at most two `=` to groups of
four; their bits are the bits of the result.
-/

namespace JKYi

open List Nat Option

variable {rest src : List UInt8} {vs : List ℕ}

/-- Characters of the alphabet and at most two `=` behind them, in groups of four. -/
def Base64Text (t : List UInt8) : Prop :=
  4 ∣ t.length ∧ ∃ body padding, t = body ++ replicate padding padChar ∧ padding ≤ 2 ∧
    ∀ c ∈ body, c ∈ base64Chars

/-- Six bits for every character, zeros for `=`. -/
def textBits (t : List UInt8) : List Bool := t.flatMap fun c => bits 6 ((charValue c).getD 0)

/-! Characters. -/

section

theorem charValue_table : ∀ n < 256, ∀ v ∈ charValue (UInt8.ofNat n),
    v < 64 ∧ base64Char v = UInt8.ofNat n := by
  decide +kernel

variable {v : ℕ}

theorem charValue_eq_some {c : UInt8} (h : charValue c = some v) :
    v < 64 ∧ base64Char v = c := by
  have htable := charValue_table c.toNat c.toNat_lt v
  rw [UInt8.ofNat_toNat] at htable
  exact htable (mem_def.mpr h)

theorem base64Char_eq (hv : v < base64Chars.length) : base64Char v = base64Chars[v] := by
  rw [base64Char, getD_eq_getElem?_getD, getElem?_eq_getElem hv, getD_some]

theorem base64Char_mem (hv : v < 64) : base64Char v ∈ base64Chars := by
  rw [base64Char_eq hv]
  exact getElem_mem _

theorem padChar_not_mem : padChar ∉ base64Chars := by decide

theorem exists_values {cs : List UInt8} (h : ∀ c ∈ cs, c ∈ base64Chars) :
    ∃ vs : List ℕ, cs = vs.map base64Char ∧ ∀ v ∈ vs, v < 64 := by
  induction cs with
  | nil => exact ⟨[], rfl, by simp⟩
  | cons c cs ih =>
    obtain ⟨hc, hcs⟩ := forall_mem_cons.mp h
    obtain ⟨vs, rfl, hvs⟩ := ih hcs
    obtain ⟨v, hv, rfl⟩ := mem_iff_getElem.mp hc
    refine ⟨v :: vs, ?_, forall_mem_cons.mpr ⟨hv, hvs⟩⟩
    rw [map_cons, base64Char_eq hv]

theorem textBits_append (s t : List UInt8) : textBits (s ++ t) = textBits s ++ textBits t := by
  simp [textBits]

theorem textBits_chars (h : ∀ v ∈ vs, v < 64) :
    textBits (vs.map base64Char) = vs.flatMap (bits 6) := by
  induction vs with
  | nil => rfl
  | cons v vs ih =>
    obtain ⟨hv, hvs⟩ := forall_mem_cons.mp h
    have hbits : textBits (base64Char v :: vs.map base64Char) =
        bits 6 ((charValue (base64Char v)).getD 0) ++ textBits (vs.map base64Char) := rfl
    rw [map_cons, hbits, (charValue_base64Char v hv).2, ih hvs, flatMap_cons, getD_some]

theorem textBits_pads (n : ℕ) :
    textBits (replicate n padChar) = (replicate n 0).flatMap (bits 6) := by
  induction n with
  | zero => rfl
  | succ n ih => rw [replicate_succ, replicate_succ, flatMap_cons, ← ih]; rfl

end

/-! Groups. -/

variable {padding i packed size : ℕ} {out : List UInt8}

def packValues (packed : ℕ) (vs : List ℕ) : ℕ := vs.foldl (fun n v => n * 64 + v) packed

theorem decodeGroup_chars (hvs : ∀ v ∈ vs, v < 64) (k i packed : ℕ) :
    decodeGroup (k + vs.length) (vs.map base64Char ++ src) i 0 packed =
      decodeGroup k src (i + vs.length) 0 (packValues packed vs) := by
  induction vs generalizing i packed with
  | nil => rfl
  | cons v vs ih =>
    obtain ⟨hv, hvs⟩ := forall_mem_cons.mp hvs
    rw [length_cons, ← add_assoc, map_cons, cons_append, decodeGroup_char hv,
      ih hvs, packValues, packValues, foldl_cons]
    congr 1
    omega

theorem decodeGroup_pads (n k i padding packed : ℕ) :
    decodeGroup (k + n) (replicate n padChar ++ src) i padding packed =
      decodeGroup k src (i + n) (padding + n) (packValues packed (replicate n 0)) := by
  induction n generalizing i padding packed with
  | zero => rfl
  | succ n ih =>
    rw [← add_assoc, replicate_succ, cons_append, decodeGroup_pad, ih, packValues,
      packValues, replicate_succ, foldl_cons, add_zero]
    congr 1
    · omega
    · omega

theorem decodeGroup_group (hvs : ∀ v ∈ vs, v < 64) (hfour : vs.length + padding = 4) :
    decodeGroup 4 (vs.map base64Char ++ (replicate padding padChar ++ rest)) 0 0 0 =
      some (4, padding, packValues 0 (vs ++ replicate padding 0), rest) := by
  have hpads : decodeGroup (0 + padding) (replicate padding padChar ++ rest) (0 + vs.length) 0
      (packValues 0 vs) = _ := decodeGroup_pads padding 0 (0 + vs.length) 0 (packValues 0 vs)
  rw [zero_add] at hpads
  rw [show 4 = padding + vs.length by omega, decodeGroup_chars hvs, hpads, decodeGroup_zero,
    packValues, packValues, packValues, foldl_append]
  congr 2
  omega

theorem decodeGroup_inv {k j p w : ℕ}
    (h : decodeGroup k src i padding packed = some (j, p, w, rest)) :
    ∃ vs n, src = vs.map base64Char ++ (replicate n padChar ++ rest) ∧ (∀ v ∈ vs, v < 64) ∧
      (0 < padding → vs = []) ∧ p = padding + n ∧ j = i + (vs.length + n) := by
  induction k generalizing src i padding packed with
  | zero =>
    cases h
    exact ⟨[], 0, rfl, by simp, fun _ => rfl, rfl, rfl⟩
  | succ k ih =>
    cases src with
    | nil =>
      cases h
      exact ⟨[], 0, rfl, by simp, fun _ => rfl, rfl, rfl⟩
    | cons c src =>
      rw [decodeGroup] at h
      split at h
      · rename_i hc
        obtain ⟨vs, n, rfl, hvs, hnil, rfl, rfl⟩ := ih h
        obtain rfl := hnil (succ_pos padding)
        refine ⟨[], n + 1, ?_, by simp, fun _ => rfl, by omega, by simp; omega⟩
        rw [hc, replicate_succ]
        rfl
      · split at h
        · cases h
        · rename_i hpad
          split at h
          · cases h
          · rename_i v hv
            obtain ⟨hlt, hchar⟩ := charValue_eq_some hv
            obtain ⟨vs, n, rfl, hvs, -, rfl, rfl⟩ := ih h
            refine ⟨v :: vs, n, ?_, forall_mem_cons.mpr ⟨hlt, hvs⟩,
              fun hpos => absurd hpos hpad, rfl, by simp; omega⟩
            rw [map_cons, hchar, cons_append]

theorem bits_packValues (k packed : ℕ) (hvs : ∀ v ∈ vs, v < 64) :
    bits (k + 6 * vs.length) (packValues packed vs) = bits k packed ++ vs.flatMap (bits 6) := by
  induction vs generalizing k packed with
  | nil => simp [packValues]
  | cons v vs ih =>
    obtain ⟨hv, hvs⟩ := forall_mem_cons.mp hvs
    have hhigh : (packed * 64 + v) >>> 6 = packed := by
      rw [shiftRight_eq_div_pow]
      omega
    have hlow : bits 6 (packed * 64 + v) = bits 6 v := by
      rw [bits_inj]
      omega
    have hsix : bits (k + 6) (packed * 64 + v) = bits k packed ++ bits 6 v := by
      rw [bits_append, hhigh, hlow]
    have hrest := ih (k + 6) (packed * 64 + v) hvs
    rw [hsix, append_assoc] at hrest
    rw [flatMap_cons, ← hrest, packValues, foldl_cons, packValues, length_cons]
    congr 1
    omega

def wordBytes (w padding : ℕ) : List UInt8 :=
  [UInt8.ofNat (w >>> 16 &&& 0xff), UInt8.ofNat (w >>> 8 &&& 0xff),
    UInt8.ofNat (w &&& 0xff)].take (3 - padding)

theorem length_wordBytes (w padding : ℕ) : (wordBytes w padding).length = 3 - padding := by
  rw [wordBytes, length_take]
  simp

theorem byteBits_wordBytes (w : ℕ) (hpadding : padding ≤ 2) :
    byteBits (wordBytes w padding) = (bits 24 w).take (8 * (3 - padding)) := by
  have hbyte (n : ℕ) : bits 8 (UInt8.ofNat (n &&& 0xff)).toNat = bits 8 n := by
    rw [and_two_pow_sub_one_eq_mod n 8, UInt8.toNat_ofNat', bits_inj]
    omega
  have hbits : bits 24 w = bits 8 (w >>> 16) ++ (bits 8 (w >>> 8) ++ bits 8 w) := by
    rw [show 24 = 8 + 16 by rfl, bits_append, show 16 = 8 + 8 by rfl, bits_append 8 8 w]
  rw [hbits]
  interval_cases padding
  · change byteBits [_, _, _] = _
    rw [byteBits_cons, byteBits_cons, byteBits_cons, hbyte, hbyte, hbyte, byteBits_nil,
      append_nil, take_of_length_le (by simp)]
  · change byteBits [_, _] = _
    rw [byteBits_cons, byteBits_cons, hbyte, hbyte, byteBits_nil, append_nil,
      ← append_assoc, take_left' (by simp)]
  · change byteBits [_] = _
    rw [byteBits_cons, hbyte, byteBits_nil, append_nil, take_left' (by simp)]

theorem storeGroup_wordBytes {w : ℕ} (hpadding : padding ≤ 2)
    (hroom : out.length + (3 - padding) ≤ size) :
    storeGroup size w padding out = some (out ++ wordBytes w padding) := by
  have hone : out.length < size := by omega
  interval_cases padding
  · have htwo : out.length + 1 < size := by omega
    have hthree : out.length + 1 + 1 < size := by omega
    simp [storeGroup, store, wordBytes, hone, htwo, hthree]
  · have htwo : out.length + 1 < size := by omega
    simp [storeGroup, store, wordBytes, hone, htwo]
  · simp [storeGroup, store, wordBytes, hone]

variable (rest) in
theorem length_group (hfour : vs.length + padding = 4) :
    (vs.map base64Char ++ (replicate padding padChar ++ rest)).length = 4 + rest.length := by
  simp only [length_append, length_map, length_replicate]
  omega

theorem base64Text_group (hvs : ∀ v ∈ vs, v < 64) (hfour : vs.length + padding = 4)
    (hpadding : padding ≤ 2) :
    Base64Text (vs.map base64Char ++ (replicate padding padChar ++ rest)) ↔
      rest = [] ∨ padding = 0 ∧ Base64Text rest := by
  have hmem : ∀ c ∈ vs.map base64Char, c ∈ base64Chars := by
    intro c hc
    obtain ⟨v, hv, rfl⟩ := mem_map.mp hc
    exact base64Char_mem (hvs v hv)
  have hlength := length_group rest hfour
  constructor
  · rintro ⟨hdvd, body, q, ht, hq, hbody⟩
    by_cases hrest : rest = []
    · exact .inl hrest
    -- behind a full group there are at least four characters, so that the group is in `body`
    have hpos := length_pos_iff.mpr hrest
    have hlen := congrArg length ht
    rw [hlength, length_append, length_replicate] at hlen
    rw [← append_assoc] at ht
    have hsplit : body = (vs.map base64Char ++ replicate padding padChar) ++ body.drop 4 := by
      have htake := congrArg (take 4) ht
      rw [take_left' (by simp; omega), take_append_of_le_length (by omega)] at htake
      rw [htake, take_append_drop]
    have hzero : padding = 0 := by
      by_contra hne
      refine padChar_not_mem (hbody padChar ?_)
      rw [hsplit]
      simp [hne]
    refine .inr ⟨hzero, by omega, body.drop 4, q, ?_, hq,
      fun c hc => hbody c (mem_of_mem_drop hc)⟩
    conv_rhs at ht => rw [hsplit, append_assoc]
    exact append_cancel_left ht
  · rintro (rfl | ⟨rfl, hdvd, body, q, rfl, hq, hbody⟩)
    · refine ⟨?_, vs.map base64Char, padding, by simp, hpadding, hmem⟩
      rw [hlength]
      simp
    · refine ⟨?_, vs.map base64Char ++ body, q, by simp, hq, ?_⟩
      · rw [hlength]
        omega
      · exact fun c hc => (mem_append.mp hc).elim (hmem c) (hbody c)

theorem Base64Text.group {t : List UInt8} (h : Base64Text t) (hne : t ≠ []) :
    ∃ (vs : List ℕ) (padding : ℕ) (rest : List UInt8),
      t = vs.map base64Char ++ (replicate padding padChar ++ rest) ∧
      (∀ v ∈ vs, v < 64) ∧ vs.length + padding = 4 ∧ padding ≤ 2 := by
  obtain ⟨hdvd, body, q, rfl, hq, hbody⟩ := h
  have hpos := length_pos_iff.mpr hne
  rw [length_append, length_replicate] at hdvd hpos
  by_cases hfull : 4 ≤ body.length
  · obtain ⟨vs, hchars, hvs⟩ := exists_values fun c hc => hbody c (mem_of_mem_take (i := 4) hc)
    refine ⟨vs, 0, body.drop 4 ++ replicate q padChar, ?_, hvs, ?_, by omega⟩
    · rw [← hchars, replicate_zero, nil_append, ← append_assoc, take_append_drop]
    · have hlen := congrArg length hchars
      rw [length_take, length_map] at hlen
      omega
  · obtain ⟨vs, rfl, hvs⟩ := exists_values hbody
    rw [length_map] at hdvd hpos hfull
    refine ⟨vs, q, [], by simp, hvs, by omega, hq⟩

theorem base64Text_nil : Base64Text [] := ⟨dvd_zero 4, [], 0, rfl, by norm_num, by simp⟩

/-! Strings. -/

structure Decodes (t d : List UInt8) : Prop where
  length : d.length + t.count padChar = 3 * t.length / 4
  value : byteBits d = (textBits t).take (8 * d.length)

theorem decodes_nil : Decodes [] [] := ⟨rfl, rfl⟩

theorem Decodes.group {d : List UInt8} (h : Decodes rest d)
    (hvs : ∀ v ∈ vs, v < 64) (hfour : vs.length + padding = 4) (hpadding : padding ≤ 2)
    (hlast : padding = 0 ∨ rest = []) :
    Decodes (vs.map base64Char ++ (replicate padding padChar ++ rest))
      (wordBytes (packValues 0 (vs ++ replicate padding 0)) padding ++ d) := by
  obtain ⟨w, hw⟩ : ∃ w, packValues 0 (vs ++ replicate padding 0) = w := ⟨_, rfl⟩
  have hpads : (vs.map base64Char).count padChar = 0 := by
    rw [count_eq_zero]
    intro hmem
    obtain ⟨v, hv, hchar⟩ := mem_map.mp hmem
    exact (charValue_base64Char v (hvs v hv)).1 hchar
  have hword : bits 24 w = textBits (vs.map base64Char ++ replicate padding padChar) := by
    have hdigits : ∀ v ∈ vs ++ replicate padding 0, v < 64 := by
      intro v hv
      rcases mem_append.mp hv with hv | hv
      · exact hvs v hv
      · rw [eq_of_mem_replicate hv]
        norm_num
    have hbits := bits_packValues 0 0 hdigits
    rw [length_append, length_replicate, hfour, hw] at hbits
    rw [textBits_append, textBits_chars hvs, textBits_pads, ← flatMap_append]
    exact hbits
  have hd : rest = [] → d = [] := by
    rintro rfl
    have hlen := h.length
    simp only [count_nil, length_nil] at hlen
    exact eq_nil_of_length_eq_zero (by omega)
  rw [hw]
  constructor
  · have hlen := h.length
    simp only [length_append, count_append, count_replicate_self, hpads,
      length_wordBytes, length_map, length_replicate]
    omega
  · rw [byteBits_append, byteBits_wordBytes w hpadding, h.value, ← append_assoc,
      textBits_append, ← hword, length_append, length_wordBytes]
    rcases hlast with rfl | hrest
    · have htake : (bits 24 w ++ textBits rest).take ((bits 24 w).length + 8 * d.length) = _ :=
        take_length_add_append _
      rw [length_bits] at htake
      rw [mul_add, htake, take_of_length_le (by simp)]
    · rw [hd hrest, hrest]
      simp [textBits]

theorem decodeLoop_none (hsrc : src ≠ [])
    (h : decodeGroup 4 src 0 0 0 = none) : decodeLoop size src out = some [] := by
  rw [decodeLoop, dif_neg hsrc]
  split
  · rfl
  · rename_i hsome
    rw [h] at hsome
    cases hsome

theorem decodeLoop_some (hsrc : src ≠ [])
    (h : decodeGroup 4 src 0 0 0 = some (i, padding, packed, rest)) :
    decodeLoop size src out =
      if i ≠ 4 then some [] else if 0 < padding ∧ rest ≠ [] then some []
      else if 2 < padding then some []
      else (storeGroup size packed padding out).bind (decodeLoop size rest) := by
  rw [decodeLoop, dif_neg hsrc]
  split
  · rename_i hnone
    rw [h] at hnone
    cases hnone
  · rename_i hsome
    cases h.symm.trans hsome
    cases storeGroup size packed padding out <;> rfl

theorem decodeLoop_group
    (hvs : ∀ v ∈ vs, v < 64) (hfour : vs.length + padding = 4) (hpadding : padding ≤ 2)
    (hlast : padding = 0 ∨ rest = []) (hroom : out.length + (3 - padding) ≤ size) :
    decodeLoop size (vs.map base64Char ++ (replicate padding padChar ++ rest)) out =
      decodeLoop size rest
        (out ++ wordBytes (packValues 0 (vs ++ replicate padding 0)) padding) := by
  have hne : vs.map base64Char ++ (replicate padding padChar ++ rest) ≠ [] := by
    rw [← length_pos_iff]
    simp only [length_append, length_map, length_replicate]
    omega
  rw [decodeLoop_some hne (decodeGroup_group hvs hfour), if_neg (by simp), if_neg,
    if_neg (by omega), storeGroup_wordBytes hpadding hroom, bind_some]
  rintro ⟨hpos, hmore⟩
  rcases hlast with hzero | hnil
  · omega
  · exact hmore hnil

theorem Base64Text.checks (htext : Base64Text src)
    (hsrc : src ≠ []) (h : decodeGroup 4 src 0 0 0 = some (i, padding, packed, rest)) :
    i = 4 ∧ padding ≤ 2 ∧ (padding = 0 ∨ rest = []) := by
  obtain ⟨vs, p, tail, rfl, hvs, hfour, hp⟩ := htext.group hsrc
  rw [decodeGroup_group hvs hfour] at h
  cases h
  refine ⟨rfl, hp, ?_⟩
  rcases (base64Text_group hvs hfour hp).mp htext with hnil | ⟨hzero, -⟩
  · exact .inr hnil
  · exact .inl hzero

/-- The loop decodes a text, and otherwise ends with an empty string. -/
theorem decodeLoop_cases (src out : List UInt8)
    (hroom : out.length + 3 * src.length / 4 ≤ size) :
    (Base64Text src → ∃ d, decodeLoop size src out = some (out ++ d) ∧ Decodes src d) ∧
      (¬ Base64Text src → decodeLoop size src out = some []) := by
  induction hn : src.length using Nat.strong_induction_on generalizing src out with
  | _ n ih =>
    by_cases hsrc : src = []
    · subst hsrc
      refine ⟨fun _ => ⟨[], ?_, decodes_nil⟩, fun h => absurd base64Text_nil h⟩
      rw [decodeLoop, dif_pos rfl, append_nil]
    cases hgroup : decodeGroup 4 src 0 0 0 with
    | none =>
      refine ⟨fun htext => ?_, fun _ => decodeLoop_none hsrc hgroup⟩
      obtain ⟨vs, padding, rest, rfl, hvs, hfour, -⟩ := htext.group hsrc
      rw [decodeGroup_group hvs hfour] at hgroup
      cases hgroup
    | some r =>
      obtain ⟨i, padding, packed, rest⟩ := r
      by_cases hchecks : i = 4 ∧ padding ≤ 2 ∧ (padding = 0 ∨ rest = [])
      · obtain ⟨rfl, hpadding, hlast⟩ := hchecks
        obtain ⟨vs, k, rfl, hvs, -, hk, hfour⟩ := decodeGroup_inv hgroup
        obtain rfl : padding = k := by omega
        have hfour : vs.length + padding = 4 := by omega
        have hlength := length_group rest hfour
        have htext : Base64Text
            (vs.map base64Char ++ (replicate padding padChar ++ rest)) ↔ _ :=
          base64Text_group hvs hfour hpadding
        have hrest : Base64Text rest ↔ rest = [] ∨ padding = 0 ∧ Base64Text rest := by
          rcases hlast with rfl | rfl
          · constructor
            · exact fun h => .inr ⟨rfl, h⟩
            · rintro (rfl | ⟨-, h⟩)
              · exact base64Text_nil
              · exact h
          · simp [base64Text_nil]
        have hroom' : (out ++ wordBytes packed padding).length + 3 * rest.length / 4 ≤ size := by
          rw [length_append, length_wordBytes]
          omega
        rw [decodeGroup_group hvs hfour] at hgroup
        cases hgroup
        have hstep := decodeLoop_group hvs hfour hpadding hlast
          (by omega : out.length + (3 - padding) ≤ size)
        obtain ⟨hyes, hno⟩ := ih rest.length (by omega) rest _ hroom' rfl
        rw [htext, ← hrest, hstep]
        refine ⟨fun h => ?_, hno⟩
        obtain ⟨d, hrun, hd⟩ := hyes h
        exact ⟨_, by rw [hrun, append_assoc], hd.group hvs hfour hpadding hlast⟩
      · refine ⟨fun htext => absurd (htext.checks hsrc hgroup) hchecks, fun _ => ?_⟩
        rw [decodeLoop_some hsrc hgroup]
        split_ifs with h₁ h₂ h₃
        · rfl
        · rfl
        · rfl
        · refine absurd ⟨not_not.mp h₁, not_lt.mp h₃, ?_⟩ hchecks
          by_contra hboth
          exact h₂ ⟨by omega, fun hrest => hboth (.inr hrest)⟩

theorem Base64Text.count_le {t : List UInt8} (h : Base64Text t) : t.count padChar ≤ 2 := by
  obtain ⟨-, body, q, rfl, hq, hbody⟩ := h
  have hnone := count_eq_zero.mpr fun hmem => padChar_not_mem (hbody _ hmem)
  rw [count_append, hnone, count_replicate_self]
  omega

/-- A string that is not empty is decoded to something exactly if it is a text, and then to the
bits of its characters. -/
theorem base64decode_text (t : List UInt8) (ht : t ≠ []) : ∃ r, base64decode t = some r ∧
    (r ≠ [] ↔ Base64Text t) ∧
    (Base64Text t → r.length = 3 * t.length / 4 - t.count padChar ∧
      byteBits r = (textBits t).take (8 * r.length)) := by
  have hroom : ([] : List UInt8).length + 3 * t.length / 4 ≤ t.length * 3 / 4 := by
    rw [length_nil, zero_add, mul_comm]
  obtain ⟨hyes, hno⟩ := decodeLoop_cases t [] hroom
  by_cases htext : Base64Text t
  · obtain ⟨d, hrun, hd⟩ := hyes htext
    refine ⟨d, hrun, ?_, fun _ => ⟨by have := hd.length; omega, hd.value⟩⟩
    simp only [htext, iff_true]
    rintro rfl
    have hlength := hd.length
    have hcount := htext.count_le
    have hpos := length_pos_iff.mpr ht
    have hdvd := htext.1
    omega
  · exact ⟨[], hno htext, by simp [htext], fun h => absurd h htext⟩

theorem base64decode_text_padded : ∃ r, base64decode [90, 103, 61, 61] = some r ∧ r.length = 1 ∧
    byteBits r = (textBits [90, 103, 61, 61]).take 8 := by
  have hbody : ∀ c ∈ [90, 103], c ∈ base64Chars :=
    forall_mem_cons.mpr ⟨by decide, forall_mem_singleton.mpr (by decide)⟩
  have htext : Base64Text [90, 103, 61, 61] := ⟨by decide, [90, 103], 2, rfl, le_rfl, hbody⟩
  obtain ⟨r, hrun, -, hvalue⟩ := base64decode_text [90, 103, 61, 61] (by simp)
  obtain ⟨hlength, hbits⟩ := hvalue htext
  have hone : r.length = 1 := hlength
  rw [hone] at hbits
  exact ⟨r, hrun, hone, hbits⟩

/-! Encoded strings. -/

theorem Group.groupChars_eq {d : List UInt8} (h : Group d rest) : ∃ vs : List ℕ,
    groupChars (groupWord d) (3 - d.length) =
      vs.map base64Char ++ replicate (3 - d.length) padChar ∧
    (∀ v ∈ vs, v < 64) ∧ vs.length + (3 - d.length) = 4 ∧
    wordBytes (packValues 0 (vs ++ replicate (3 - d.length) 0)) (3 - d.length) = d := by
  have hmask (n : ℕ) : n &&& 0x3f = n % 64 := and_two_pow_sub_one_eq_mod n 6
  have hbyte {n : ℕ} {b : UInt8} (h : n % 256 = b.toNat) : UInt8.ofNat (n &&& 0xff) = b := by
    rw [and_two_pow_sub_one_eq_mod n 8, h, UInt8.ofNat_toNat]
  have hlt := Group.groupWord_lt d
  have hword : groupWord d =
    (d.getD 0 0).toNat * 65536 + (d.getD 1 0).toNat * 256 + (d.getD 2 0).toNat := rfl
  have h₁ := (d.getD 1 0).toNat_lt
  have h₂ := (d.getD 2 0).toNat_lt
  generalize groupWord d = w at hlt hword ⊢
  have hb₀ : UInt8.ofNat (w >>> 16 &&& 0xff) = d.getD 0 0 :=
    hbyte (by rw [shiftRight_eq_div_pow]; omega)
  have hb₁ : UInt8.ofNat (w >>> 8 &&& 0xff) = d.getD 1 0 :=
    hbyte (by rw [shiftRight_eq_div_pow]; omega)
  have hb₂ : UInt8.ofNat (w &&& 0xff) = d.getD 2 0 := hbyte (by omega)
  have hpack : packValues 0 [w / 262144, w / 4096 % 64, w / 64 % 64, w % 64] = w := by
    simp only [packValues, foldl_cons, foldl_nil]
    omega
  have hpads : [w / 262144, w / 4096 % 64, w / 64 % 64, w % 64].take (d.length + 1) ++
      replicate (3 - d.length) 0 = [w / 262144, w / 4096 % 64, w / 64 % 64, w % 64] := by
    cases h <;> simp at hword ⊢ <;> omega
  refine ⟨[w / 262144, w / 4096 % 64, w / 64 % 64, w % 64].take (d.length + 1), ?_, ?_, ?_, ?_⟩
  · cases h <;> simp [groupChars, hmask, shiftRight_eq_div_pow]
  · intro v hv
    have hmem := mem_of_mem_take hv
    simp only [mem_cons, not_mem_nil, or_false] at hmem
    omega
  · cases h <;> rfl
  · rw [hpads, hpack, wordBytes, hb₀, hb₁, hb₂]
    cases h <;> rfl

theorem decodeLoop_base64encode (data : List UInt8) : ∀ {out : List UInt8},
    out.length + data.length ≤ size →
    decodeLoop size (base64encode data) out = some (out ++ data) := by
  induction data using group_induction with
  | hnil =>
    intro out _
    rw [base64encode_nil, decodeLoop, dif_pos rfl, append_nil]
  | hstep d rest hgroup ih =>
    intro out hroom
    obtain ⟨vs, hchars, hvs, hfour, hbytes⟩ := hgroup.groupChars_eq
    have hlast : 3 - d.length = 0 ∨ base64encode rest = [] := by
      cases hgroup with
      | one a | two a b => exact .inr base64encode_nil
      | three a b c rest => exact .inl rfl
    rw [length_append] at hroom
    rw [base64encode_group hgroup, hchars, append_assoc,
      decodeLoop_group hvs hfour hgroup.padding_le hlast (by omega), hbytes,
      ih (by rw [length_append]; omega), append_assoc]

/-- Decoding what was encoded gives the bytes back, and stays within the buffer. -/
theorem base64decode_base64encode (s : List UInt8) : base64decode (base64encode s) = some s := by
  have hroom : ([] : List UInt8).length + s.length ≤ (base64encode s).length * 3 / 4 := by
    rw [length_base64encode, length_nil]
    omega
  rw [base64decode, decodeLoop_base64encode s hroom, nil_append]

end JKYi
