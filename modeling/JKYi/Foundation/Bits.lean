import Mathlib.Tactic

/-!
# Bit strings of numbers and prefix codes

`bits k n` is the `k` low bits of `n`, most significant first, so shifting and
masking a machine word is taking and dropping bits. A code word given as a
number and a length stands for the interval of all words that start with it;
code words with disjoint intervals are not prefixes of each other.
-/

namespace JKYi

open List Nat

variable {m k N : ℕ}

def bits : ℕ → ℕ → List Bool
  | 0, _ => []
  | k + 1, n => n.testBit k :: bits k n

@[simp] theorem length_bits (k n : ℕ) : (bits k n).length = k := by
  induction k with
  | zero => rfl
  | succ k ih => rw [bits, length_cons, ih]

theorem bits_append (k l n : ℕ) : bits (k + l) n = bits k (n >>> l) ++ bits l n := by
  induction k with
  | zero => simp [bits]
  | succ k ih =>
    rw [succ_add, bits, bits, ih, testBit_shiftRight, add_comm l k, cons_append]

theorem take_bits (h : k ≤ m) (n : ℕ) : (bits m n).take k = bits k (n >>> (m - k)) := by
  obtain ⟨l, rfl⟩ := Nat.exists_eq_add_of_le h
  rw [bits_append, Nat.add_sub_cancel_left, take_left' (length_bits _ _)]

theorem drop_bits (h : k ≤ m) (n : ℕ) : (bits m n).drop k = bits (m - k) n := by
  obtain ⟨l, rfl⟩ := Nat.exists_eq_add_of_le h
  rw [bits_append, Nat.add_sub_cancel_left, drop_left' (length_bits _ _)]

theorem bits_mod (k n : ℕ) : bits k (n % 2 ^ k) = bits k n := by
  suffices h : ∀ j ≤ k, bits j (n % 2 ^ k) = bits j n from h k le_rfl
  intro j hj
  induction j with
  | zero => rfl
  | succ j ih =>
    rw [bits, bits, ih (by omega), testBit_mod_two_pow, decide_eq_true (by omega : j < k),
      Bool.true_and]

theorem testBit_eq_of_bits_eq {n : ℕ} (h : bits k m = bits k n) :
    ∀ i < k, m.testBit i = n.testBit i := by
  induction k with
  | zero => intro i hi; omega
  | succ k ih =>
    obtain ⟨hhead, htail⟩ := cons.inj h
    intro i hi
    rcases Nat.lt_succ_iff_lt_or_eq.mp hi with hlt | rfl
    · exact ih htail i hlt
    · exact hhead

theorem bits_inj {n : ℕ} : bits k m = bits k n ↔ m % 2 ^ k = n % 2 ^ k := by
  constructor
  · intro h
    apply eq_of_testBit_eq
    intro i
    rw [testBit_mod_two_pow, testBit_mod_two_pow]
    by_cases hi : i < k
    · rw [testBit_eq_of_bits_eq h i hi]
    · simp [hi]
  · intro h
    rw [← bits_mod k m, h, bits_mod]

theorem bits_zero (k : ℕ) : bits k 0 = replicate k false := by
  induction k with
  | zero => rfl
  | succ k ih => rw [bits, ih, zero_testBit, replicate_succ]

theorem bits_ones (k : ℕ) : bits k (2 ^ k - 1) = replicate k true := by
  suffices h : ∀ j ≤ k, bits j (2 ^ k - 1) = replicate j true from h k le_rfl
  intro j hj
  induction j with
  | zero => rfl
  | succ j ih =>
    rw [bits, ih (by omega), testBit_two_pow_sub_one, decide_eq_true (by omega : j < k)]
    rfl

theorem append_prefix_append_iff {α : Type*} {a b c d : List α} (h : a.length = b.length) :
    a ++ c <+: b ++ d ↔ a = b ∧ c <+: d := by
  constructor
  · rintro ⟨t, ht⟩
    rw [append_assoc] at ht
    obtain ⟨hab, hcd⟩ := append_inj ht h
    exact ⟨hab, t, hcd⟩
  · rintro ⟨rfl, t, rfl⟩
    exact ⟨t, by rw [append_assoc]⟩

theorem bits_prefix_bits {l c d : ℕ} (hl : l ≤ m) :
    bits l c <+: bits m d ↔ c % 2 ^ l = d / 2 ^ (m - l) % 2 ^ l := by
  rw [prefix_iff_eq_take, length_bits, take_bits hl, bits_inj, shiftRight_eq_div_pow]

def byteBits (bs : List UInt8) : List Bool := bs.flatMap fun b => bits 8 b.toNat

@[simp] theorem byteBits_nil : byteBits [] = [] := rfl

@[simp] theorem byteBits_cons (b : UInt8) (bs : List UInt8) :
    byteBits (b :: bs) = bits 8 b.toNat ++ byteBits bs := rfl

theorem byteBits_append (as bs : List UInt8) :
    byteBits (as ++ bs) = byteBits as ++ byteBits bs := by
  simp [byteBits]

@[simp] theorem length_byteBits (bs : List UInt8) : (byteBits bs).length = 8 * bs.length := by
  induction bs with
  | nil => rfl
  | cons b bs ih =>
    rw [byteBits_cons, length_append, length_bits, ih, length_cons]
    omega

theorem bits_byte_inj {a b : UInt8} (h : bits 8 a.toNat = bits 8 b.toNat) : a = b := by
  have h' := bits_inj.mp h
  have ha := a.toNat_lt
  have hb := b.toNat_lt
  apply UInt8.toNat_inj.mp
  omega

theorem byteBits_injective {as bs : List UInt8} (h : byteBits as = byteBits bs) : as = bs := by
  induction as generalizing bs with
  | nil =>
    have hlen := congrArg length h
    rw [length_byteBits, length_byteBits, length_nil] at hlen
    exact (length_eq_zero_iff.mp (by omega)).symm
  | cons a as ih =>
    cases bs with
    | nil =>
      have hlen := congrArg length h
      rw [length_byteBits, length_byteBits, length_cons, length_nil] at hlen
      omega
    | cons b bs =>
      obtain ⟨hhead, htail⟩ := append_inj h (by rw [length_bits, length_bits])
      rw [bits_byte_inj hhead, ih htail]

/-! Code words. -/

def ofBits : List Bool → ℕ
  | [] => 0
  | b :: w => 2 ^ w.length * b.toNat + ofBits w

theorem ofBits_lt (w : List Bool) : ofBits w < 2 ^ w.length := by
  induction w with
  | nil => simp [ofBits]
  | cons b w ih =>
    have hb : b.toNat ≤ 1 := Bool.toNat_le b
    have hmul : 2 ^ w.length * b.toNat ≤ 2 ^ w.length * 1 := mul_le_mul_left _ hb
    rw [ofBits, length_cons, pow_succ]
    omega

theorem bits_ofBits (w : List Bool) : bits w.length (ofBits w) = w := by
  induction w with
  | nil => rfl
  | cons b w ih =>
    have hlow : bits w.length (2 ^ w.length * b.toNat + ofBits w) = bits w.length (ofBits w) := by
      rw [bits_inj, mul_add_mod]
    have hhigh : (2 ^ w.length * b.toNat + ofBits w).testBit w.length = b := by
      rw [testBit_two_pow_mul_add _ (ofBits_lt w)]
      cases b <;> simp
    rw [length_cons, ofBits, bits, hlow, ih, hhigh]

def packBytes : ℕ → List Bool → List UInt8
  | 0, _ => []
  | k + 1, w => UInt8.ofNat (ofBits (w.take 8)) :: packBytes k (w.drop 8)

@[simp] theorem length_packBytes (k : ℕ) (w : List Bool) : (packBytes k w).length = k := by
  induction k generalizing w with
  | zero => rfl
  | succ k ih => rw [packBytes, length_cons, ih]

theorem byteBits_packBytes {w : List Bool} (h : w.length = 8 * k) :
    byteBits (packBytes k w) = w := by
  induction k generalizing w with
  | zero =>
    obtain rfl : w = [] := length_eq_zero_iff.mp (by simpa using h)
    rfl
  | succ k ih =>
    have hlen : (w.take 8).length = 8 := by
      rw [length_take]
      omega
    have hbyte : bits 8 (UInt8.ofNat (ofBits (w.take 8))).toNat = w.take 8 := by
      have hlt := ofBits_lt (w.take 8)
      rw [hlen] at hlt
      have hbits := bits_ofBits (w.take 8)
      rw [hlen] at hbits
      rw [UInt8.toNat_ofNat_of_lt' hlt, hbits]
    rw [packBytes, byteBits_cons, hbyte, ih, take_append_drop]
    rw [length_drop]
    omega

def codeInterval (N c l : ℕ) : ℕ × ℕ := (c * 2 ^ (N - l), (c + 1) * 2 ^ (N - l))

theorem codeInterval_of_prefix {c l d : ℕ} (hc : c < 2 ^ l) (hd : d < 2 ^ m) (hm : m ≤ N)
    (h : bits l c <+: bits m d) :
    (codeInterval N c l).1 ≤ (codeInterval N d m).1 ∧
      (codeInterval N d m).1 < (codeInterval N c l).2 := by
  have hlm : l ≤ m := by simpa using h.length_le
  have htake := (bits_prefix_bits hlm).mp h
  rw [Nat.mod_eq_of_lt hc] at htake
  have hquot : d / 2 ^ (m - l) < 2 ^ l := by
    rw [Nat.div_lt_iff_lt_mul (Nat.two_pow_pos _), ← pow_add, Nat.add_sub_cancel' hlm]
    exact hd
  rw [Nat.mod_eq_of_lt hquot] at htake
  have hsplit : 2 ^ (N - l) = 2 ^ (m - l) * 2 ^ (N - m) := by
    rw [← pow_add]
    congr 1
    omega
  have hlow : c * 2 ^ (m - l) ≤ d := htake ▸ Nat.div_mul_le_self d _
  have hhigh : d < (c + 1) * 2 ^ (m - l) := by
    rw [htake, Nat.mul_comm]
    exact Nat.lt_mul_div_succ d (Nat.two_pow_pos _)
  simp only [codeInterval, hsplit, ← Nat.mul_assoc]
  exact ⟨Nat.mul_le_mul_right _ hlow, Nat.mul_lt_mul_of_pos_right hhigh (Nat.two_pow_pos _)⟩

def Before (a b : ℕ × ℕ) : Prop := a.1 < a.2 ∧ a.2 ≤ b.1

instance : DecidableRel Before := fun _ _ => inferInstanceAs (Decidable (_ ∧ _))

instance : Trans Before Before Before :=
  ⟨fun hab hbc => ⟨hab.1, hab.2.trans (hbc.1.le.trans hbc.2)⟩⟩

/-- Code words of at most `N` bits whose intervals follow each other once sorted. -/
def DisjointCodes (N : ℕ) (table : List (ℕ × ℕ)) : Prop :=
  ((table.map fun e => codeInterval N e.1 e.2).insertionSort fun a b => a.1 ≤ b.1).IsChain Before

instance (N : ℕ) (table : List (ℕ × ℕ)) : Decidable (DisjointCodes N table) :=
  inferInstanceAs (Decidable (List.IsChain _ _))

theorem prefix_free_of_disjoint {table : List (ℕ × ℕ)} (h : DisjointCodes N table)
    (hwf : ∀ e ∈ table, e.1 < 2 ^ e.2 ∧ e.2 ≤ N) {i j : ℕ} (hi : i < table.length)
    (hj : j < table.length) (hpre : bits table[i].2 table[i].1 <+: bits table[j].2 table[j].1) :
    i = j := by
  let apart : ℕ × ℕ → ℕ × ℕ → Prop := fun a b => a.2 ≤ b.1 ∨ b.2 ≤ a.1
  have hsorted : List.Pairwise apart
      ((table.map fun e => codeInterval N e.1 e.2).insertionSort fun a b => a.1 ≤ b.1) :=
    (isChain_iff_pairwise.mp h).imp fun hab => .inl hab.2
  have hpair : List.Pairwise apart (table.map fun e => codeInterval N e.1 e.2) :=
    ((perm_insertionSort _ _).pairwise_iff fun hab => hab.symm).mp hsorted
  rw [pairwise_map, pairwise_iff_getElem] at hpair
  have hei := hwf table[i] (getElem_mem hi)
  have hej := hwf table[j] (getElem_mem hj)
  obtain ⟨hlow, hhigh⟩ := codeInterval_of_prefix hei.1 hej.1 hej.2 hpre
  have hnonempty : (codeInterval N table[j].1 table[j].2).1 <
      (codeInterval N table[j].1 table[j].2).2 :=
    Nat.mul_lt_mul_of_pos_right (Nat.lt_succ_self _) (Nat.two_pow_pos _)
  rcases Nat.lt_trichotomy i j with hlt | heq | hgt
  · rcases hpair i j hi hj hlt with hsep | hsep <;> omega
  · exact heq
  · rcases hpair j i hj hi hgt with hsep | hsep <;> omega

def Tiles : ℕ → List (ℕ × ℕ) → ℕ → Prop
  | a, [], b => a = b
  | a, i :: is, b => i.1 = a ∧ Tiles i.2 is b

instance decidableTiles : ∀ a is b, Decidable (Tiles a is b)
  | a, [], b => inferInstanceAs (Decidable (a = b))
  | a, i :: is, b =>
    have := decidableTiles i.2 is b
    inferInstanceAs (Decidable (i.1 = a ∧ Tiles i.2 is b))

theorem Tiles.exists_mem {is : List (ℕ × ℕ)} {a b v : ℕ} (h : Tiles a is b) (ha : a ≤ v)
    (hb : v < b) : ∃ i ∈ is, i.1 ≤ v ∧ v < i.2 := by
  induction is generalizing a with
  | nil =>
    obtain rfl : a = b := h
    omega
  | cons i is ih =>
    obtain ⟨rfl, htail⟩ := h
    rcases lt_or_ge v i.2 with hlt | hge
    · exact ⟨i, by simp, ha, hlt⟩
    · obtain ⟨j, hj, hv⟩ := ih htail hge
      exact ⟨j, by simp [hj], hv⟩

/-- Code words of at most `N` bits, one of which starts every word of `N` bits below `M`. -/
def CompleteCodes (N M : ℕ) (table : List (ℕ × ℕ)) : Prop :=
  Tiles 0 ((table.map fun e => codeInterval N e.1 e.2).insertionSort fun a b => a.1 ≤ b.1) M

instance (N M : ℕ) (table : List (ℕ × ℕ)) : Decidable (CompleteCodes N M table) :=
  inferInstanceAs (Decidable (Tiles _ _ _))

theorem CompleteCodes.exists_prefix {M v : ℕ} {table : List (ℕ × ℕ)}
    (h : CompleteCodes N M table) (hwf : ∀ e ∈ table, e.1 < 2 ^ e.2 ∧ e.2 ≤ N) (hv : v < M) :
    ∃ e ∈ table, bits e.2 e.1 <+: bits N v := by
  obtain ⟨i, hi, hlow, hhigh⟩ := Tiles.exists_mem h (Nat.zero_le v) hv
  rw [(perm_insertionSort _ _).mem_iff] at hi
  obtain ⟨e, he, rfl⟩ := mem_map.mp hi
  refine ⟨e, he, ?_⟩
  have hquot : v / 2 ^ (N - e.2) = e.1 := by
    rw [Nat.div_eq_iff (Nat.two_pow_pos _)]
    simp only [codeInterval, Nat.add_mul, Nat.one_mul] at hlow hhigh
    omega
  rw [bits_prefix_bits (hwf e he).2, hquot]

end JKYi
