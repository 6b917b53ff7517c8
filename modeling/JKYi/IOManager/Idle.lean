import JKYi.Foundation.Bytes
import JKYi.Timer.Model

/-!
# The timeout of `epoll_wait`

A round of `IOManager::idle` asks the timers for the milliseconds to the next deadline
and clamps them before it waits. The clamp looks at a narrowed copy of the 64-bit value,
and `epoll_wait` gets a narrowed copy of the result.
-/

namespace JKYi.IOManager

open Timers

def stopping {Cb : Type} (m : TimerManager Cb) (now pendingEventCount : ℕ)
    (schedulerStopping : Bool) : ℕ × Bool :=
  let timeout := (m.getNextTimer now).2
  (timeout, decide (timeout = 2 ^ 64 - 1) && decide (pendingEventCount = 0) && schedulerStopping)

def maxTimeout : ℕ := 3000

def clampTimeout (nextTimeout : ℕ) : ℕ :=
  if nextTimeout ≠ 2 ^ 64 - 1 then
    if intOfSize nextTimeout > maxTimeout then maxTimeout else nextTimeout
  else maxTimeout

def waits : ℕ → ℕ → List ℤ
  | 0, nextTimeout => [intOfSize (clampTimeout nextTimeout)]
  | interrupts + 1, nextTimeout =>
    intOfSize (clampTimeout nextTimeout) :: waits interrupts (clampTimeout nextTimeout)

/-- The calls of `epoll_wait` of one round of `IOManager::idle`; none where it is the last. -/
def idle {Cb : Type} (m : TimerManager Cb) (now pendingEventCount : ℕ) (schedulerStopping : Bool)
    (interrupts : ℕ) : List ℤ :=
  let s := stopping m now pendingEventCount schedulerStopping
  if s.2 then [] else waits interrupts s.1

/-- The low 32 bits are not those of a negative `int`, or there is no timer. -/
def Narrows (nextTimeout : ℕ) : Prop :=
  nextTimeout = 2 ^ 64 - 1 ∨ nextTimeout % 2 ^ 32 < 2 ^ 31

theorem clampTimeout_clampTimeout (n : ℕ) : clampTimeout (clampTimeout n) = clampTimeout n := by
  have hmax : clampTimeout maxTimeout = maxTimeout := by
    have h : intOfSize maxTimeout = maxTimeout := intOfSize_eq (by decide)
    rw [clampTimeout, if_pos (by decide), h, if_neg (lt_irrefl _)]
  by_cases hn : n ≠ 2 ^ 64 - 1
  · by_cases hlong : intOfSize n > maxTimeout
    · have h : clampTimeout n = maxTimeout := by rw [clampTimeout, if_pos hn, if_pos hlong]
      rw [h, hmax]
    · have h : clampTimeout n = n := by rw [clampTimeout, if_pos hn, if_neg hlong]
      rw [h, h]
  · have h : clampTimeout n = maxTimeout := by rw [clampTimeout, if_neg hn]
    rw [h, hmax]

theorem mem_waits_iff {interrupts n : ℕ} {t : ℤ} :
    t ∈ waits interrupts n ↔ t = intOfSize (clampTimeout n) := by
  induction interrupts generalizing n with
  | zero => rw [waits, List.mem_singleton]
  | succ k ih => rw [waits, List.mem_cons, ih, clampTimeout_clampTimeout, or_self]

theorem intOfSize_clampTimeout {n : ℕ} (h : n % 2 ^ 32 < 2 ^ 31) (hn : n ≠ 2 ^ 64 - 1) :
    intOfSize (clampTimeout n) = min (n % 2 ^ 32) maxTimeout := by
  have hlow : intOfSize n = (n % 2 ^ 32 : ℕ) := by rw [← intOfSize_mod, intOfSize_eq h]
  rw [clampTimeout, if_pos hn]
  split
  · rw [intOfSize_eq (by decide)]
    omega
  · rw [hlow]
    omega

theorem intOfSize_clampTimeout_neg {n : ℕ} (h : ¬ Narrows n) :
    intOfSize (clampTimeout n) < 0 := by
  obtain ⟨hn, hhigh⟩ := not_or.1 h
  have hneg : intOfSize n < 0 := by
    have hlt : n % 2 ^ 32 < 2 ^ 32 := Nat.mod_lt _ (by decide)
    rw [← intOfSize_mod, intOfSize_high (by omega) hlt]
    omega
  rw [clampTimeout, if_pos hn, if_neg (by unfold maxTimeout; omega)]
  exact hneg

theorem clamped_iff (n : ℕ) :
    (0 ≤ intOfSize (clampTimeout n) ∧ intOfSize (clampTimeout n) ≤ maxTimeout ∧
      intOfSize (clampTimeout n) ≤ n) ↔ Narrows n := by
  constructor
  · intro h
    by_contra hn
    have := intOfSize_clampTimeout_neg hn
    omega
  · intro h
    by_cases hn : n = 2 ^ 64 - 1
    · have hmax : intOfSize (clampTimeout n) = 3000 := by
        rw [clampTimeout, if_neg (not_not.2 hn), intOfSize_eq (by decide)]
        rfl
      rw [hmax]
      unfold maxTimeout
      omega
    · rw [intOfSize_clampTimeout (h.resolve_left hn) hn]
      omega

/-- Whatever the timers are, and however often `epoll_wait` is interrupted, the timeouts are clamped
exactly when the conversion to `int` of the answer of `getNextTimer` is not negative or there is
no timer. -/
theorem idle_clamped_iff {Cb : Type} (m : TimerManager Cb) (now pendingEventCount : ℕ)
    (schedulerStopping : Bool) (interrupts : ℕ) :
    (∀ t ∈ idle m now pendingEventCount schedulerStopping interrupts,
      0 ≤ t ∧ t ≤ maxTimeout ∧ t ≤ (m.getNextTimer now).2) ↔
    Narrows (m.getNextTimer now).2 := by
  have hround : ∀ n, (∀ t ∈ waits interrupts n, 0 ≤ t ∧ t ≤ maxTimeout ∧ t ≤ n) ↔ Narrows n := by
    intro n
    rw [← clamped_iff]
    constructor
    · intro h
      exact h _ (mem_waits_iff.2 rfl)
    · intro h t ht
      rw [mem_waits_iff.1 ht]
      exact h
  unfold idle stopping
  dsimp only
  split
  · rename_i hstop
    simp only [Bool.and_eq_true, decide_eq_true_eq] at hstop
    constructor
    · intro _
      exact .inl hstop.1.1
    · intro _ t ht
      cases ht
  · exact hround _

/-- A deadline `2 ^ 31` milliseconds away: `epoll_wait` is told to wait without a limit. -/
theorem idle_unlimited :
    let m : TimerManager Unit := ⟨fun _ => ⟨false, 2 ^ 31, 5000 + 2 ^ 31, none⟩, [0], false, 5000⟩
    (m.getNextTimer 5000).2 = 2 ^ 31 ∧ idle m 5000 0 false 0 = [-2 ^ 31] := by
  intro m
  have hnext : (m.getNextTimer 5000).2 = 2 ^ 31 := by decide
  refine ⟨hnext, ?_⟩
  have hint : intOfSize (2 ^ 31) = -2 ^ 31 := by
    rw [intOfSize_high (by decide) (by decide)]
    rfl
  unfold idle stopping
  rw [hnext, if_neg (by decide), waits, clampTimeout, if_pos (by decide), hint,
    if_neg (by decide), hint]

end JKYi.IOManager
