import Mathlib.Tactic

/-!
# Base64

`base64encode` packs groups of three bytes into four characters, the last group
filled up with zeros and padded with `=`. `base64decode` unpacks them into a
buffer that it allocates beforehand and gives up, with an empty string, on
everything that is not a sequence of such groups.
-/

namespace JKYi

open List Nat

def base64Chars : List UInt8 :=
  "ABCDEFGHIJKLMNOPQRSTUVWXYZabcdefghijklmnopqrstuvwxyz0123456789+/".toList.map
    fun c => UInt8.ofNat c.toNat

def base64Char (v : ℕ) : UInt8 := base64Chars.getD v 0

/-- The character `=`. -/
def padChar : UInt8 := 61

def packGroup : ℕ → List UInt8 → ℕ → ℕ → ℕ × ℕ × List UInt8
  | 0, src, i, packed => (i, packed, src)
  | _ + 1, [], i, packed => (i, packed, [])
  | k + 1, b :: src, i, packed => packGroup k src (i + 1) (packed <<< 8 ||| b.toNat)

def groupChars (packed padding : ℕ) : List UInt8 :=
  [base64Char (packed >>> 18), base64Char (packed >>> 12 &&& 0x3f)] ++
  (if padding ≠ 2 then [base64Char (packed >>> 6 &&& 0x3f)] else []) ++
  (if padding = 0 then [base64Char (packed &&& 0x3f)] else []) ++
  List.replicate padding padChar

theorem length_packGroup_le (k : ℕ) (src : List UInt8) (i packed : ℕ) :
    (packGroup k src i packed).2.2.length ≤ src.length := by
  induction k generalizing src i packed with
  | zero => exact le_rfl
  | succ k ih =>
    cases src with
    | nil => exact le_rfl
    | cons b src => exact (ih _ _ _).trans (le_succ _)

theorem length_packGroup_lt {src : List UInt8} (h : src ≠ []) :
    (packGroup 3 src 0 0).2.2.length < src.length := by
  obtain ⟨b, tail, rfl⟩ := exists_cons_of_ne_nil h
  exact lt_succ_of_le (length_packGroup_le 2 tail 1 _)

def encodeLoop (src ret : List UInt8) : List UInt8 :=
  if _h : src = [] then ret
  else
    let i := (packGroup 3 src 0 0).1
    let padding := if i = 2 then 1 else if i = 1 then 2 else 0
    let packed := (packGroup 3 src 0 0).2.1 <<< (8 * (3 - i))
    encodeLoop (packGroup 3 src 0 0).2.2 (ret ++ groupChars packed padding)
termination_by src.length
decreasing_by exact length_packGroup_lt _h

def base64encode (data : List UInt8) : List UInt8 := encodeLoop data []

def charValue (c : UInt8) : Option ℕ :=
  if 65 ≤ c ∧ c ≤ 90 then some (c.toNat - 65)
  else if 97 ≤ c ∧ c ≤ 122 then some (c.toNat - 97 + 26)
  else if 48 ≤ c ∧ c ≤ 57 then some (c.toNat - 48 + 52)
  else if c = 43 then some 62
  else if c = 47 then some 63
  else none

/-- The loop of `base64decode` over one group: `i`, `padding`, `packed` and the characters
that are left; `none` where the function returns an empty string. -/
def decodeGroup : ℕ → List UInt8 → ℕ → ℕ → ℕ → Option (ℕ × ℕ × ℕ × List UInt8)
  | 0, src, i, padding, packed => some (i, padding, packed, src)
  | _ + 1, [], i, padding, packed => some (i, padding, packed, [])
  | k + 1, c :: src, i, padding, packed =>
    if c = padChar then decodeGroup k src (i + 1) (padding + 1) (packed <<< 6)
    else if 0 < padding then none
    else match charValue c with
      | none => none
      | some val => decodeGroup k src (i + 1) padding (packed <<< 6 ||| val)

def store (size : ℕ) (out : List UInt8) (b : ℕ) : Option (List UInt8) :=
  if out.length < size then some (out ++ [UInt8.ofNat (b &&& 0xff)]) else none

def storeGroup (size packed padding : ℕ) (out : List UInt8) : Option (List UInt8) := do
  let out ← store size out (packed >>> 16)
  let out ← if padding ≠ 2 then store size out (packed >>> 8) else some out
  if padding = 0 then store size out packed else some out

theorem length_decodeGroup_le {k : ℕ} {src : List UInt8} {i padding packed : ℕ}
    {r : ℕ × ℕ × ℕ × List UInt8} (h : decodeGroup k src i padding packed = some r) :
    r.2.2.2.length ≤ src.length := by
  induction k generalizing src i padding packed with
  | zero =>
    cases h
    exact le_rfl
  | succ k ih =>
    cases src with
    | nil =>
      cases h
      exact le_rfl
    | cons c src =>
      rw [decodeGroup] at h
      split at h
      · exact (ih h).trans (le_succ _)
      · split at h
        · cases h
        · split at h
          · cases h
          · exact (ih h).trans (le_succ _)

theorem length_decodeGroup_lt {src : List UInt8} {r : ℕ × ℕ × ℕ × List UInt8} (hsrc : src ≠ [])
    (h : decodeGroup 4 src 0 0 0 = some r) : r.2.2.2.length < src.length := by
  obtain ⟨c, tail, rfl⟩ := exists_cons_of_ne_nil hsrc
  rw [decodeGroup] at h
  split at h
  · exact lt_succ_of_le (length_decodeGroup_le h)
  · rw [if_neg (lt_irrefl 0)] at h
    split at h
    · cases h
    · exact lt_succ_of_le (length_decodeGroup_le h)

/-- The loop of `base64decode`; `none` is a write behind the buffer of `size` bytes. -/
def decodeLoop (size : ℕ) (src out : List UInt8) : Option (List UInt8) :=
  if _hsrc : src = [] then some out
  else
    match _h : decodeGroup 4 src 0 0 0 with
    | none => some []
    | some (i, padding, packed, rest) =>
      if i ≠ 4 then some []
      else if 0 < padding ∧ rest ≠ [] then some []
      else if 2 < padding then some []
      else
        match storeGroup size packed padding out with
        | none => none
        | some out => decodeLoop size rest out
termination_by src.length
decreasing_by exact length_decodeGroup_lt _hsrc _h

def base64decode (src : List UInt8) : Option (List UInt8) :=
  decodeLoop (src.length * 3 / 4) src []

/-! Groups of characters. -/

theorem charValue_base64Char : ∀ v < 64,
    base64Char v ≠ padChar ∧ charValue (base64Char v) = some v := by
  decide +kernel

theorem shiftLeft_or_six {v : ℕ} (n : ℕ) (hv : v < 64) : n <<< 6 ||| v = n * 64 + v := by
  rw [← shiftLeft_add_eq_or_of_lt hv, shiftLeft_eq]

theorem decodeGroup_char {v : ℕ} (hv : v < 64) (k : ℕ) (src : List UInt8) (i packed : ℕ) :
    decodeGroup (k + 1) (base64Char v :: src) i 0 packed =
      decodeGroup k src (i + 1) 0 (packed * 64 + v) := by
  obtain ⟨hne, hval⟩ := charValue_base64Char v hv
  rw [decodeGroup, if_neg hne, if_neg (lt_irrefl 0), hval, ← shiftLeft_or_six packed hv]

theorem decodeGroup_pad (k : ℕ) (src : List UInt8) (i padding packed : ℕ) :
    decodeGroup (k + 1) (padChar :: src) i padding packed =
      decodeGroup k src (i + 1) (padding + 1) (packed * 64) := by
  rw [decodeGroup, if_pos rfl, shiftLeft_eq]

theorem decodeGroup_zero (src : List UInt8) (i padding packed : ℕ) :
    decodeGroup 0 src i padding packed = some (i, padding, packed, src) := rfl

/-! Groups of bytes. -/

inductive Group : List UInt8 → List UInt8 → Prop
  | one (a : UInt8) : Group [a] []
  | two (a b : UInt8) : Group [a, b] []
  | three (a b c : UInt8) (rest : List UInt8) : Group [a, b, c] rest

theorem group_induction {P : List UInt8 → Prop} (hnil : P [])
    (hstep : ∀ d rest, Group d rest → P rest → P (d ++ rest)) : ∀ src, P src
  | [] => hnil
  | [a] => hstep [a] [] (.one a) hnil
  | [a, b] => hstep [a, b] [] (.two a b) hnil
  | a :: b :: c :: rest =>
    hstep [a, b, c] rest (.three a b c rest) (group_induction hnil hstep rest)

def groupWord (d : List UInt8) : ℕ :=
  (d.getD 0 0).toNat * 65536 + (d.getD 1 0).toNat * 256 + (d.getD 2 0).toNat

theorem shiftLeft_or_byte (n : ℕ) (b : UInt8) : n <<< 8 ||| b.toNat = n * 256 + b.toNat := by
  rw [← shiftLeft_add_eq_or_of_lt b.toNat_lt, shiftLeft_eq]

namespace Group

variable {d rest : List UInt8}

theorem padding_le (h : Group d rest) : 3 - d.length ≤ 2 := by
  cases h <;> simp

theorem packGroup_eq (h : Group d rest) : ∃ packed,
    packGroup 3 (d ++ rest) 0 0 = (d.length, packed, rest) ∧
      packed <<< (8 * (3 - d.length)) = groupWord d := by
  cases h with
  | one a =>
    refine ⟨a.toNat, ?_, ?_⟩
    · simp [packGroup]
    · simp [groupWord, shiftLeft_eq]
  | two a b =>
    refine ⟨a.toNat * 256 + b.toNat, ?_, ?_⟩
    · simp [packGroup, shiftLeft_or_byte]
    · simp [groupWord, shiftLeft_eq]
      omega
  | three a b c rest =>
    refine ⟨(a.toNat * 256 + b.toNat) * 256 + c.toNat, ?_, ?_⟩
    · simp [packGroup, shiftLeft_or_byte]
    · simp [groupWord, shiftLeft_eq]
      omega

theorem groupWord_lt (d : List UInt8) : groupWord d < 2 ^ 24 := by
  have h₀ := (d.getD 0 0).toNat_lt
  have h₁ := (d.getD 1 0).toNat_lt
  have h₂ := (d.getD 2 0).toNat_lt
  rw [groupWord]
  omega

theorem encodeLoop_eq (h : Group d rest) (ret : List UInt8) :
    encodeLoop (d ++ rest) ret =
      encodeLoop rest (ret ++ groupChars (groupWord d) (3 - d.length)) := by
  obtain ⟨packed, hpack, hword⟩ := h.packGroup_eq
  have hne : d ++ rest ≠ [] := by cases h <;> simp
  have hpadding : (if d.length = 2 then 1 else if d.length = 1 then 2 else 0) = 3 - d.length := by
    cases h <;> rfl
  rw [encodeLoop, dif_neg hne, hpack]
  dsimp only
  rw [hword, hpadding]

end Group

@[simp] theorem encodeLoop_nil (ret : List UInt8) : encodeLoop [] ret = ret := by
  rw [encodeLoop, dif_pos rfl]

theorem encodeLoop_append (src : List UInt8) :
    ∀ ret, encodeLoop src ret = ret ++ encodeLoop src [] := by
  induction src using group_induction with
  | hnil => simp
  | hstep d rest hgroup ih =>
    intro ret
    rw [hgroup.encodeLoop_eq, hgroup.encodeLoop_eq, ih, ih ([] ++ _), nil_append, append_assoc]

@[simp] theorem base64encode_nil : base64encode [] = [] := encodeLoop_nil []

theorem base64encode_group {d rest : List UInt8} (h : Group d rest) :
    base64encode (d ++ rest) =
      groupChars (groupWord d) (3 - d.length) ++ base64encode rest := by
  rw [base64encode, h.encodeLoop_eq, encodeLoop_append, nil_append, base64encode]

theorem length_groupChars {packed padding : ℕ} (h : padding ≤ 2) :
    (groupChars packed padding).length = 4 := by
  interval_cases padding <;> simp [groupChars]

theorem length_base64encode (data : List UInt8) :
    (base64encode data).length = 4 * ((data.length + 2) / 3) := by
  induction data using group_induction with
  | hnil => simp
  | hstep d rest hgroup ih =>
    rw [base64encode_group hgroup, length_append, length_groupChars hgroup.padding_le, ih]
    cases hgroup with
    | one a => simp
    | two a b => simp
    | three a b c rest =>
      simp only [length_append, length_cons, length_nil]
      omega

end JKYi
