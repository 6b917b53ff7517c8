import Mathlib.Tactic

/-!
# Integers in LogStream

`convert` takes the digits from truncated remainders, which are negative for negative values, and
reads them from a table that is the same on both sides of its middle.
-/

namespace JKYi.Net

open List Nat

/-- The integer types that `LogStream` accepts; `short` is converted to `int` first. -/
inductive IntType where
  | int
  | unsignedInt
  | long
  | unsignedLong
  | longLong
  | unsignedLongLong

def IntType.low : IntType → ℤ
  | int => -2 ^ 31
  | long | longLong => -2 ^ 63
  | unsignedInt | unsignedLong | unsignedLongLong => 0

def IntType.bound : IntType → ℤ
  | int => 2 ^ 31
  | unsignedInt => 2 ^ 32
  | long | longLong => 2 ^ 63
  | unsignedLong | unsignedLongLong => 2 ^ 64

structure Integer where
  type : IntType
  value : ℤ
  low_le : type.low ≤ value
  lt_bound : value < type.bound

def digits : List Char := "9876543210123456789".toList

/-- `zero[lsd]`. -/
def zero (lsd : ℤ) : Char := digits.getD (9 + lsd).toNat '\x00'

/-- The digits as the loop writes them, the last one first. -/
def convertLoop (i : ℤ) : List Char :=
  zero (i.tmod 10) :: if _ : i.tdiv 10 = 0 then [] else convertLoop (i.tdiv 10)
termination_by i.natAbs
decreasing_by
  rw [Int.natAbs_tdiv]
  exact Nat.div_lt_self (by grind) (by decide)

def convert (value : ℤ) : List Char :=
  (convertLoop value ++ if value < 0 then ['-'] else []).reverse

def digitsHex : List Char := "0123456789ABCDEF".toList

def convertHexLoop (i : ℕ) : List Char :=
  digitsHex.getD (i % 16) '\x00' :: if h : i / 16 = 0 then [] else convertHexLoop (i / 16)
termination_by i
decreasing_by omega

def convertHex (value : BitVec 64) : List Char := (convertHexLoop value.toNat).reverse

def kMaxNumericSize : ℕ := 48

def digitsDec : List Char := "0123456789".toList

/-- The text of `n` in the digits `ds`: it reads as `n`, has no leading zeros, and is no longer
than it has to be. -/
structure Canonical (ds : List Char) (n : ℕ) (text : List Char) : Prop where
  mem : ∀ c ∈ text, c ∈ ds
  value : text.foldl (fun m c => ds.length * m + ds.idxOf c) 0 = n
  zero : n = 0 → text = ['0']
  first : n ≠ 0 → text ≠ [] ∧ text.head? ≠ some '0'
  size : n ≠ 0 → ds.length ^ text.length ≤ ds.length * n

variable {ds text : List Char} {n : ℕ} {c : Char}

theorem canonical_digit (hds : ∀ c ∈ ds, ds.idxOf c = 0 ↔ c = '0') (hc : c ∈ ds) :
    Canonical ds (ds.idxOf c) [c] where
  mem := by simpa using hc
  value := by simp
  zero h := by rw [(hds c hc).mp h]
  first h := ⟨by simp, by simpa [hds c hc] using h⟩
  size h := by simpa using Nat.le_mul_of_pos_right _ (Nat.pos_of_ne_zero h)

theorem Canonical.digit (h : Canonical ds n text) (hn : n ≠ 0) (hc : c ∈ ds) :
    Canonical ds (ds.length * n + ds.idxOf c) (text ++ [c]) where
  mem := by simpa [or_imp, forall_and, hc] using h.mem
  value := by simp [h.value]
  zero h0 := absurd (Nat.mul_pos (length_pos_of_mem hc) (Nat.pos_of_ne_zero hn)) (by omega)
  first _ := by
    obtain ⟨hne, hfirst⟩ := h.first hn
    exact ⟨by simp, by rwa [head?_append_of_ne_nil _ hne]⟩
  size _ := by
    rw [length_append, length_singleton, pow_succ, mul_comm]
    exact Nat.mul_le_mul_left _ ((h.size hn).trans (Nat.le_add_right _ _))

theorem Canonical.length_le {k : ℕ} (h : Canonical ds n text) (hds : 1 < ds.length)
    (hn : n < ds.length ^ (k + 1)) : text.length ≤ k + 1 := by
  by_cases h0 : n = 0
  · simp [h.zero h0]
  · have hlt : ds.length ^ text.length < ds.length ^ (k + 1 + 1) := by
      calc ds.length ^ text.length ≤ ds.length * n := h.size h0
        _ < ds.length * ds.length ^ (k + 1) := by gcongr
        _ = ds.length ^ (k + 1 + 1) := (pow_succ' ..).symm
    exact Nat.le_of_lt_succ ((Nat.pow_lt_pow_iff_right hds).mp hlt)

/-- One round of the loops: the last digit, and what the loop writes for the rest. -/
theorem canonical_cons {rest : List Char} (hds : ∀ c ∈ ds, ds.idxOf c = 0 ↔ c = '0')
    (hc : c ∈ ds) (hd : ds.idxOf c = n % ds.length)
    (hrest : if n / ds.length = 0 then rest = [] else Canonical ds (n / ds.length) rest.reverse) :
    Canonical ds n (c :: rest).reverse := by
  have hn := Nat.div_add_mod n ds.length
  rw [reverse_cons]
  split_ifs at hrest with h
  · have hdigit := canonical_digit hds hc
    subst hrest
    rw [h, mul_zero, zero_add] at hn
    rwa [hd, hn] at hdigit
  · have hdigit := hrest.digit h hc
    rwa [hd, hn] at hdigit

theorem canonical_convertHexLoop (i : ℕ) : Canonical digitsHex i (convertHexLoop i).reverse := by
  have hdigit : ∀ d < 16, digitsHex.getD d '\x00' ∈ digitsHex ∧
      digitsHex.idxOf (digitsHex.getD d '\x00') = d := by decide
  obtain ⟨hc, hd⟩ := hdigit (i % 16) (Nat.mod_lt i (by decide))
  rw [convertHexLoop]
  refine canonical_cons (forall_iff_forall_mem.mp (by decide)) hc hd ?_
  change if i / 16 = 0 then _ else Canonical _ (i / 16) _
  split_ifs
  · rfl
  · exact canonical_convertHexLoop (i / 16)

theorem canonical_convertLoop (i : ℤ) :
    Canonical digitsDec i.natAbs (convertLoop i).reverse := by
  have hdigit : ∀ d : ℕ, d < 10 → zero d ∈ digitsDec ∧ zero (-d) = zero d ∧
      digitsDec.idxOf (zero d) = d := by decide
  have hlsd : (i.tmod 10).natAbs = i.natAbs % 10 := Int.natAbs_tmod i 10
  have hrest : (i.tdiv 10).natAbs = i.natAbs / 10 := Int.natAbs_tdiv i 10
  obtain ⟨hc, hneg, hd⟩ := hdigit (i.tmod 10).natAbs (by omega)
  have hzero : zero (i.tmod 10) = zero (i.tmod 10).natAbs := by
    rcases Int.natAbs_eq (i.tmod 10) with h | h
    · rw [← h]
    · rw [← hneg, ← h]
  rw [convertLoop, hzero]
  refine canonical_cons (forall_iff_forall_mem.mp (by decide)) hc (hd.trans hlsd) ?_
  change if i.natAbs / 10 = 0 then _ else Canonical _ (i.natAbs / 10) _
  rw [← hrest]
  split_ifs with h h' h'
  · rfl
  · exact absurd (Int.natAbs_eq_zero.mp h) h'
  · exact absurd (Int.natAbs_eq_zero.mpr h') h
  · exact canonical_convertLoop (i.tdiv 10)
termination_by i.natAbs
decreasing_by omega

/-- The text of every integer is canonical and fits with its terminator. -/
theorem convert_canonical (v : Integer) (p : BitVec 64) :
    (∃ text, Canonical digitsDec v.value.natAbs text ∧
      convert v.value = (if v.value < 0 then ['-'] else []) ++ text ∧
      (convert v.value).length + 1 ≤ kMaxNumericSize) ∧
    Canonical digitsHex p.toNat (convertHex p) ∧
      (convertHex p).length + 3 ≤ kMaxNumericSize := by
  have htext := canonical_convertLoop v.value
  have hhex := canonical_convertHexLoop p.toNat
  have hbounds : -2 ^ 63 ≤ v.value ∧ v.value < 2 ^ 64 := by
    have hlow := v.low_le
    have hhigh := v.lt_bound
    cases h : v.type <;> simp [h, IntType.low, IntType.bound] at hlow hhigh <;> omega
  have hlen := htext.length_le (k := 19) (by decide) (by change v.value.natAbs < 10 ^ 20; omega)
  have hlenHex := hhex.length_le (k := 15) (by decide) p.isLt
  refine ⟨⟨_, htext, ?_, ?_⟩, hhex, ?_⟩
  · unfold convert
    split <;> simp
  · unfold convert
    split <;> simp_all [kMaxNumericSize] <;> omega
  · simp_all [convertHex, kMaxNumericSize]
    omega

end JKYi.Net
