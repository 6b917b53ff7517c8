import Mathlib.Data.Int.Log
import Mathlib.Tactic

/-!
# The quotient of two integers computed in binary64

`toDouble` rounds a nonnegative rational to the nearest number with a 53-bit
significand, ties to even. Exponents are unbounded: integers of at most 64 bits
and their quotients stay far from the overflow and underflow thresholds.
Rounding can move the ceiling of a quotient only when the numerator does not
fit the significand.
-/

namespace JKYi

def nearestEven (x : ℚ) : ℤ :=
  if Int.fract x < 1 / 2 ∨ (Int.fract x = 1 / 2 ∧ ⌊x⌋ % 2 = 0) then ⌊x⌋ else ⌊x⌋ + 1

def ulp (x : ℚ) : ℚ := 2 ^ (Int.log 2 x - 52)

def toDouble (x : ℚ) : ℚ := nearestEven (x / ulp x) * ulp x

/-- `ceil(1.0 * m / n)`, every operation rounded to binary64. -/
def ceilQuot (m n : ℕ) : ℕ := ⌈toDouble (toDouble m / toDouble n)⌉₊

variable {x : ℚ} {k : ℤ}

theorem nearestEven_le (h : x ≤ k) : nearestEven x ≤ k := by
  have hfloor : (⌊x⌋ : ℚ) + Int.fract x = x := Int.floor_add_fract x
  unfold nearestEven
  split_ifs with hc
  · exact_mod_cast (Int.floor_le x).trans h
  · rw [not_or] at hc
    have hpos : (⌊x⌋ : ℚ) < k := by linarith [hc.1]
    have hint : ⌊x⌋ < k := by exact_mod_cast hpos
    omega

theorem le_nearestEven (h : (k : ℚ) ≤ x) : k ≤ nearestEven x := by
  have hk : k ≤ ⌊x⌋ := Int.le_floor.mpr h
  unfold nearestEven
  split_ifs <;> omega

theorem nearestEven_intCast (k : ℤ) : nearestEven k = k :=
  le_antisymm (nearestEven_le le_rfl) (le_nearestEven le_rfl)

theorem sub_half_le_nearestEven (x : ℚ) : x - 1 / 2 ≤ nearestEven x := by
  have hfloor : (⌊x⌋ : ℚ) + Int.fract x = x := Int.floor_add_fract x
  have hfract := Int.fract_lt_one x
  unfold nearestEven
  split_ifs with hc
  · rcases hc with hc | hc
    · linarith
    · linarith [hc.1]
  · push_cast
    linarith

theorem ulp_pos (x : ℚ) : 0 < ulp x := by
  unfold ulp
  positivity

theorem half_ulp_le (hx : 0 < x) : ulp x / 2 ≤ x / 2 ^ 53 := by
  have hlog : (2 : ℚ) ^ Int.log 2 x ≤ x := by
    exact_mod_cast Int.zpow_log_le_self (b := 2) one_lt_two hx
  have hulp : ulp x = 2 ^ Int.log 2 x / 2 ^ 52 := by
    rw [ulp, zpow_sub₀ two_ne_zero]
    norm_cast
  rw [hulp]
  linarith

theorem exists_int_div_ulp (hx : 0 < x) (hlt : x < 2 ^ 53) (k : ℤ) :
    ∃ j : ℤ, (k : ℚ) / ulp x = j := by
  have hlog : Int.log 2 x < 53 := by
    refine (Int.lt_zpow_iff_log_lt one_lt_two hx).mp ?_
    exact_mod_cast hlt
  obtain ⟨e, he⟩ : ∃ e : ℕ, Int.log 2 x - 52 = -(e : ℤ) :=
    ⟨(52 - Int.log 2 x).toNat, by omega⟩
  refine ⟨k * 2 ^ e, ?_⟩
  rw [ulp, he, zpow_neg, div_inv_eq_mul]
  norm_cast

theorem toDouble_le (hx : 0 < x) (hlt : x < 2 ^ 53) (hk : x ≤ k) :
    toDouble x ≤ k := by
  obtain ⟨j, hj⟩ := exists_int_div_ulp hx hlt k
  have hle : x / ulp x ≤ j := by
    rw [← hj]
    exact div_le_div_of_nonneg_right hk (ulp_pos x).le
  have hround : (nearestEven (x / ulp x) : ℚ) ≤ k / ulp x := by
    rw [hj]
    exact_mod_cast nearestEven_le hle
  calc
    toDouble x ≤ k / ulp x * ulp x := mul_le_mul_of_nonneg_right hround (ulp_pos x).le
    _ = k := div_mul_cancel₀ _ (ulp_pos x).ne'

theorem le_toDouble (hx : 0 < x) (hlt : x < 2 ^ 53) (hk : (k : ℚ) ≤ x) :
    (k : ℚ) ≤ toDouble x := by
  obtain ⟨j, hj⟩ := exists_int_div_ulp hx hlt k
  have hle : (j : ℚ) ≤ x / ulp x := by
    rw [← hj]
    exact div_le_div_of_nonneg_right hk (ulp_pos x).le
  have hround : (k : ℚ) / ulp x ≤ nearestEven (x / ulp x) := by
    rw [hj]
    exact_mod_cast le_nearestEven hle
  calc
    (k : ℚ) = k / ulp x * ulp x := (div_mul_cancel₀ _ (ulp_pos x).ne').symm
    _ ≤ toDouble x := mul_le_mul_of_nonneg_right hround (ulp_pos x).le

theorem sub_le_toDouble (hx : 0 < x) : x - x / 2 ^ 53 ≤ toDouble x := by
  have hround := mul_le_mul_of_nonneg_right (sub_half_le_nearestEven (x / ulp x)) (ulp_pos x).le
  rw [sub_mul, div_mul_cancel₀ _ (ulp_pos x).ne'] at hround
  have hhalf := half_ulp_le hx
  unfold toDouble
  linarith

theorem toDouble_pos (hx : 0 < x) : 0 < toDouble x := by
  have hround := sub_le_toDouble hx
  linarith

variable {m n : ℕ}

theorem ceilQuot_pos (hm : 0 < m) (hn : 0 < n) : 0 < ceilQuot m n := by
  have hmq : (0 : ℚ) < m := by exact_mod_cast hm
  have hnq : (0 : ℚ) < n := by exact_mod_cast hn
  exact Nat.ceil_pos.mpr (toDouble_pos (div_pos (toDouble_pos hmq) (toDouble_pos hnq)))

theorem toDouble_natCast (hm : m < 2 ^ 53) : toDouble m = m := by
  rcases Nat.eq_zero_or_pos m with rfl | hpos
  · have hz : nearestEven 0 = 0 := by exact_mod_cast nearestEven_intCast 0
    simp [toDouble, hz]
  · have hx : (0 : ℚ) < m := by exact_mod_cast hpos
    have hlt : (m : ℚ) < 2 ^ 53 := by exact_mod_cast hm
    apply le_antisymm
    · exact_mod_cast toDouble_le (k := m) hx hlt le_rfl
    · exact_mod_cast le_toDouble (k := m) hx hlt le_rfl

theorem le_toDouble_natCast (hn : 2 ^ 53 ≤ n) : (2 : ℚ) ^ 53 - 1 ≤ toDouble n := by
  have hx : (2 : ℚ) ^ 53 ≤ n := by exact_mod_cast hn
  have hround := sub_le_toDouble (x := n) (by linarith)
  linarith

theorem ceil_toDouble_eq {c : ℕ} (hx : 0 < x) (hc : x ≤ c) (hlt : x < 2 ^ 53)
    (hgap : (c : ℚ) - 1 < x - x / 2 ^ 53) : ⌈toDouble x⌉₊ = c := by
  have hup : toDouble x ≤ c := by exact_mod_cast toDouble_le (k := c) hx hlt (by exact_mod_cast hc)
  have hlow := sub_le_toDouble hx
  have hcpos : c ≠ 0 := by
    rintro rfl
    have : x ≤ 0 := by exact_mod_cast hc
    linarith
  rw [Nat.ceil_eq_iff hcpos]
  refine ⟨?_, hup⟩
  rw [Nat.cast_pred (Nat.pos_of_ne_zero hcpos)]
  linarith

/-- Both operands fit the significand: the quotient is at least `1 / n` above
the integer below it, more than rounding can take away. -/
theorem ceil_toDouble_div (hpos : 0 < m) (hm : m < 2 ^ 53) (hn : 0 < n) :
    ⌈toDouble ((m : ℚ) / n)⌉₊ = (m + n - 1) / n := by
  have hmq : (0 : ℚ) < m := by exact_mod_cast hpos
  have hmlt : (m : ℚ) < 2 ^ 53 := by exact_mod_cast hm
  have hnq : (0 : ℚ) < n := by exact_mod_cast hn
  obtain ⟨hlo, hhi⟩ : n * ((m + n - 1) / n) + 1 ≤ m + n ∧ m ≤ n * ((m + n - 1) / n) := by
    have := Nat.div_add_mod (m + n - 1) n
    have := Nat.mod_lt (m + n - 1) hn
    omega
  have hloq : (n : ℚ) * ((m + n - 1) / n : ℕ) + 1 ≤ m + n := by exact_mod_cast hlo
  have hhiq : (m : ℚ) ≤ n * ((m + n - 1) / n : ℕ) := by exact_mod_cast hhi
  apply ceil_toDouble_eq (div_pos hmq hnq)
  · rw [div_le_iff₀ hnq]
    linarith
  · rw [div_lt_iff₀ hnq]
    nlinarith
  · rw [show (m : ℚ) / n - m / n / 2 ^ 53 = (m - m / 2 ^ 53) / n by ring, lt_div_iff₀ hnq]
    linarith

/-- A divisor beyond the significand leaves a quotient of at most one. -/
theorem ceil_toDouble_div_large {d : ℚ} (hpos : 0 < m) (hm : m < 2 ^ 53)
    (hd : (2 : ℚ) ^ 53 - 1 ≤ d) : ⌈toDouble ((m : ℚ) / d)⌉₊ = 1 := by
  have hmq : (0 : ℚ) < m := by exact_mod_cast hpos
  have hmd : (m : ℚ) ≤ 2 ^ 53 - 1 := by
    have : (m : ℚ) + 1 ≤ 2 ^ 53 := by exact_mod_cast hm
    linarith
  have hdpos : 0 < d := by linarith
  have hq : 0 < (m : ℚ) / d := div_pos hmq hdpos
  have hq1 : (m : ℚ) / d ≤ 1 := by
    rw [div_le_one hdpos]
    linarith
  apply ceil_toDouble_eq hq
  · exact_mod_cast hq1
  · linarith
  · linarith

theorem ceilQuot_eq (hpos : 0 < m) (hm : m < 2 ^ 53) (hn : 0 < n) :
    ceilQuot m n = (m + n - 1) / n := by
  unfold ceilQuot
  rw [toDouble_natCast hm]
  by_cases hbig : n < 2 ^ 53
  · rw [toDouble_natCast hbig]
    exact ceil_toDouble_div hpos hm hn
  · rw [ceil_toDouble_div_large hpos hm (le_toDouble_natCast (not_lt.mp hbig))]
    symm
    apply Nat.div_eq_of_lt_le <;> omega

end JKYi
