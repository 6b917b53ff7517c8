import Mathlib.Tactic

/-!
# Integers as bytes

Little-endian representation of natural numbers and byte swapping, the base-128
variable length encoding, the zigzag map between signed and unsigned words of
any width, the conversion of a size to an `int`, and decimal digits.
-/

namespace JKYi

open BitVec List

def leBytes : ℕ → ℕ → List UInt8
  | 0, _ => []
  | k + 1, n => UInt8.ofNat n :: leBytes k (n / 256)

def ofLeBytes : List UInt8 → ℕ
  | [] => 0
  | b :: bs => b.toNat + 256 * ofLeBytes bs

def byteswap (k n : ℕ) : ℕ := ofLeBytes (leBytes k n).reverse

@[simp] theorem length_leBytes (k n : ℕ) : (leBytes k n).length = k := by
  induction k generalizing n with
  | zero => rfl
  | succ k ih => simp [leBytes, ih]

theorem ofLeBytes_leBytes (k n : ℕ) : ofLeBytes (leBytes k n) = n % 256 ^ k := by
  induction k generalizing n with
  | zero => simp [leBytes, ofLeBytes, Nat.mod_one]
  | succ k ih =>
    rw [leBytes, ofLeBytes, ih, UInt8.toNat_ofNat', pow_succ' 256 k]
    exact (Nat.mod_mul).symm

theorem ofLeBytes_lt (bs : List UInt8) : ofLeBytes bs < 256 ^ bs.length := by
  induction bs with
  | nil => simp [ofLeBytes]
  | cons b bs ih =>
    have hb := b.toNat_lt
    rw [ofLeBytes, length_cons, pow_succ']
    omega

theorem leBytes_ofLeBytes (bs : List UInt8) : leBytes bs.length (ofLeBytes bs) = bs := by
  induction bs with
  | nil => rfl
  | cons b bs ih =>
    have hb : b.toNat < 256 := b.toNat_lt
    have hdiv : (b.toNat + 256 * ofLeBytes bs) / 256 = ofLeBytes bs := by omega
    have hhead : UInt8.ofNat (b.toNat + 256 * ofLeBytes bs) = b := by
      apply UInt8.toNat_inj.mp
      rw [UInt8.toNat_ofNat']
      omega
    rw [length_cons, leBytes, ofLeBytes, hdiv, ih, hhead]

theorem leBytes_byteswap (k n : ℕ) : leBytes k (byteswap k n) = (leBytes k n).reverse := by
  have h := leBytes_ofLeBytes (leBytes k n).reverse
  rwa [length_reverse, length_leBytes] at h

theorem byteswap_ofLeBytes (bs : List UInt8) :
    byteswap bs.length (ofLeBytes bs) = ofLeBytes bs.reverse := by
  rw [byteswap, leBytes_ofLeBytes]

theorem forall_byte {P : UInt8 → Prop} (h : ∀ n < 256, P (UInt8.ofNat n)) (b : UInt8) : P b := by
  have hb := h b.toNat b.toNat_lt
  rwa [UInt8.ofNat_toNat] at hb

/-! Base 128, least significant group first. -/

def varintBytes (n : ℕ) : List UInt8 :=
  if n < 0x80 then [UInt8.ofNat n]
  else UInt8.ofNat ((n &&& 0x7f) ||| 0x80) :: varintBytes (n >>> 7)
termination_by n
decreasing_by
  rw [Nat.shiftRight_eq_div_pow]
  omega

theorem and_7f (n : ℕ) : n &&& 0x7f = n % 128 := Nat.and_two_pow_sub_one_eq_mod n 7

theorem or_80 {n : ℕ} (h : n < 128) : n ||| 0x80 = n + 128 := by
  rw [Nat.or_comm, Nat.add_comm]
  exact (Nat.two_pow_add_eq_or_of_lt (i := 7) h 1).symm

theorem varintBytes_of_lt {n : ℕ} (h : n < 128) : varintBytes n = [UInt8.ofNat n] := by
  rw [varintBytes, if_pos h]

theorem varintBytes_of_le {n : ℕ} (h : 128 ≤ n) :
    varintBytes n = UInt8.ofNat (n % 128 + 128) :: varintBytes (n / 128) := by
  rw [varintBytes, if_neg (by omega), and_7f, or_80 (Nat.mod_lt _ (by simp)),
    Nat.shiftRight_eq_div_pow]

theorem varintBytes_ne_nil (n : ℕ) : varintBytes n ≠ [] := by
  rw [varintBytes]
  split_ifs <;> simp

theorem length_varintBytes_le {k n : ℕ} (hk : 0 < k) (hn : n < 128 ^ k) :
    (varintBytes n).length ≤ k := by
  induction k generalizing n with
  | zero => omega
  | succ k ih =>
    rcases lt_or_ge n 128 with hlast | hmore
    · rw [varintBytes_of_lt hlast, length_singleton]
      omega
    · have hdiv : n / 128 < 128 ^ k := by
        rw [Nat.div_lt_iff_lt_mul (by simp), ← pow_succ]
        exact hn
      have hk : 0 < k := by
        rcases Nat.eq_zero_or_pos k with rfl | hk
        · omega
        · exact hk
      rw [varintBytes_of_le hmore, length_cons]
      exact Nat.succ_le_succ (ih hk hdiv)

theorem or_shiftLeft_group {n i : ℕ} :
    (n % 2 ^ i) ||| ((n / 2 ^ i % 128) <<< i) = n % 2 ^ (i + 7) := by
  rw [Nat.or_comm, Nat.shiftLeft_eq, Nat.mul_comm,
    ← Nat.two_pow_add_eq_or_of_lt (Nat.mod_lt _ (Nat.two_pow_pos i)), pow_add, Nat.mod_mul,
    Nat.add_comm]
  norm_num

/-! Zigzag. -/

section

variable {w : ℕ}

def zigzag (v : BitVec w) : BitVec w := if v.slt 0#w then -v * 2#w - 1#w else v * 2#w

def unzigzag (u : BitVec w) : BitVec w := (u >>> 1) ^^^ -(u &&& 1#w)

theorem unzigzag_even {u : BitVec w} (hw : 0 < w) (h : u.toNat % 2 = 0) :
    (unzigzag u).toNat = u.toNat / 2 := by
  have hand : u &&& 1#w = 0#w := by
    apply eq_of_toNat_eq
    rw [toNat_and, toNat_one hw, Nat.and_one_is_mod, h, toNat_zero]
  rw [unzigzag, hand, neg_zero, xor_zero, toNat_ushiftRight, Nat.shiftRight_eq_div_pow, pow_one]

theorem unzigzag_odd {u : BitVec w} (hw : 0 < w) (h : u.toNat % 2 = 1) :
    (unzigzag u).toNat = 2 ^ w - 1 - u.toNat / 2 := by
  have hand : u &&& 1#w = 1#w := by
    apply eq_of_toNat_eq
    rw [toNat_and, toNat_one hw, Nat.and_one_is_mod, h]
  rw [unzigzag, hand, neg_one_eq_allOnes, xor_allOnes, toNat_not,
    toNat_ushiftRight, Nat.shiftRight_eq_div_pow, pow_one]

theorem slt_zero_iff (v : BitVec w) : v.slt 0#w ↔ 2 ^ w ≤ 2 * v.toNat := by
  rw [slt_iff_toInt_lt, toInt_zero, toInt_eq_toNat_cond]
  split_ifs with h <;> omega

theorem unzigzag_zigzag (hw : 0 < w) (v : BitVec w) : unzigzag (zigzag v) = v := by
  apply eq_of_toNat_eq
  by_cases hneg : v.slt 0#w
  · have hge := (slt_zero_iff v).mp hneg
    have hz : (zigzag v).toNat = 2 * (2 ^ w - v.toNat) - 1 := by
      have hdouble : -v * 2#w = BitVec.ofNat w (2 * (2 ^ w - v.toNat) - 1) + 1#w := by
        rw [← ofNat_add, Nat.sub_add_cancel (by omega), Nat.mul_comm, ofNat_mul]
        rfl
      rw [zigzag, if_pos hneg, hdouble, add_sub_cancel, toNat_ofNat, Nat.mod_eq_of_lt (by omega)]
    rw [unzigzag_odd hw (by omega), hz]
    omega
  · have hlt := mt (slt_zero_iff v).mpr hneg
    have hz : (zigzag v).toNat = 2 * v.toNat := by
      rw [zigzag, if_neg hneg, toNat_mul, toNat_ofNat, Nat.mul_mod_mod,
        Nat.mod_eq_of_lt (by omega), Nat.mul_comm]
    rw [unzigzag_even hw (by omega), hz]
    omega

end
/-- A count as the `int` that a function returns. -/
@[irreducible] def intOfSize (n : ℕ) : ℤ := (n : ℤ).bmod (2 ^ 32)

theorem intOfSize_eq {n : ℕ} (h : n < 2 ^ 31) : intOfSize n = n := by
  unfold intOfSize
  apply Int.bmod_eq_of_le
  · omega
  · omega

theorem intOfSize_high {n : ℕ} (h : 2 ^ 31 ≤ n) (h' : n < 2 ^ 32) :
    intOfSize n = (n : ℤ) - 2 ^ 32 := by
  unfold intOfSize
  rw [← Int.sub_bmod_right]
  apply Int.bmod_eq_of_le
  · omega
  · omega

theorem intOfSize_mod (n : ℕ) : intOfSize (n % 2 ^ 32) = intOfSize n := by
  unfold intOfSize
  rw [Int.natCast_mod]
  exact Int.emod_bmod n (2 ^ 32)

theorem intOfSize_lt (n : ℕ) : intOfSize n < 2 ^ 31 := by
  unfold intOfSize
  exact Int.bmod_lt (by simp)

def decimal (n : ℕ) : List UInt8 := (Nat.toDigits 10 n).map fun c => UInt8.ofNat c.toNat

theorem linefeed_not_mem_decimal (n : ℕ) : 10 ∉ decimal n := by
  intro h
  obtain ⟨c, hc, heq⟩ := mem_map.mp h
  have hdigit := Nat.isDigit_of_mem_toDigits (by decide) (by decide) hc
  have hlow : 48 ≤ c.toNat := by
    simp only [Char.isDigit, Bool.and_eq_true, decide_eq_true_eq] at hdigit
    exact UInt32.le_iff_toNat_le.mp hdigit.1
  have hhigh : c.toNat ≤ 57 := by
    simp only [Char.isDigit, Bool.and_eq_true, decide_eq_true_eq] at hdigit
    exact UInt32.le_iff_toNat_le.mp hdigit.2
  have hvalue := congrArg UInt8.toNat heq
  simp at hvalue
  omega

end JKYi
