import JKYi.Foundation.Bytes
import JKYi.Timer.Wakeup

/-!
# Hooked sleeps

`sleep`, `usleep` and `nanosleep` arm a one-shot timer that schedules the calling fiber
again, and yield. Each computes the interval in another width: `sleep` multiplies in
`unsigned int`, and `nanosleep` goes through an `int` before `addTimer` takes 64 bits. The
clock of the timers shows whole milliseconds.
-/

namespace JKYi.Hook

open Timers Option

structure Timespec where
  sec : ℕ
  nsec : ℕ
  sec_lt : sec < 2 ^ 63
  nsec_lt : nsec < 2 ^ 63

inductive Sleep where
  | sleep (second : UInt32)
  | usleep (usec : UInt32)
  | nanosleep (req : Timespec)

/-- A time in nanoseconds, within `2 ^ 63` milliseconds. -/
structure Time where
  ns : ℕ
  ns_lt : ns < 2 ^ 63 * 1000000

/-- What `GetCurrentMS` makes of `tv_sec` and `tv_usec` at the nanosecond `t`. -/
def getCurrentMS (t : ℕ) : ℕ :=
  let tvSec := t / 1000000000
  let tvUsec := t % 1000000000 / 1000
  (tvSec * 1000 + tvUsec / 1000) % 2 ^ 64

def widen (v : ℤ) : ℕ := (v % 2 ^ 64).toNat

namespace Sleep

/-- The argument of `addTimer`; `none` where the sum of `nanosleep` overflows, which is
undefined. -/
def interval : Sleep → Option ℕ
  | sleep second => some (second * 1000).toNat
  | usleep usec => some (usec / 1000).toNat
  | nanosleep req =>
    let sum := req.sec * 1000 + req.nsec / 1000 / 1000
    if sum < 2 ^ 63 then some (widen (intOfSize sum)) else none

def arm {Cb : Type} (now : ℕ) (cb : Cb) (call : Sleep) : Option (Timers.Timer Cb) :=
  call.interval.map fun ms => .new (getCurrentMS now) ms (some cb) false

def duration : Sleep → ℕ
  | sleep second => second.toNat * 1000000000
  | usleep usec => usec.toNat * 1000
  | nanosleep req => req.sec * 1000000000 + req.nsec

/-- The milliseconds fit into the width of the computation. -/
def Fits : Sleep → Prop
  | sleep second => second.toNat * 1000 < 2 ^ 32
  | usleep _ => True
  | nanosleep req => req.sec * 1000 + req.nsec / 1000000 < 2 ^ 31

/-- The duration is below a millisecond, or what it has beyond whole milliseconds and what the clock
has not shown at `now` make no more than one. -/
def Aligned (now : ℕ) (call : Sleep) : Prop :=
  call.duration < 1000000 ∨ call.duration % 1000000 + now % 1000000 ≤ 1000000

theorem getCurrentMS_eq (t : ℕ) : getCurrentMS t = t / 1000000 % 2 ^ 64 := by
  unfold getCurrentMS
  dsimp only
  congr 1
  omega

theorem nanosleep_ms (req : Timespec) :
    (nanosleep req).duration / 1000000 = req.sec * 1000 + req.nsec / 1000 / 1000 := by
  change (req.sec * 1000000000 + req.nsec) / 1000000 = _
  omega

theorem widen_intOfSize_eq_iff {n : ℕ} (h : n < 2 ^ 63) : widen (intOfSize n) = n ↔ n < 2 ^ 31 := by
  constructor
  · intro heq
    by_contra hn
    have hlt : n % 2 ^ 32 < 2 ^ 32 := Nat.mod_lt _ (by decide)
    unfold widen at heq
    rw [← intOfSize_mod] at heq
    by_cases hlow : n % 2 ^ 32 < 2 ^ 31
    · rw [intOfSize_eq hlow] at heq
      omega
    · rw [intOfSize_high (by omega) hlt] at heq
      omega
  · intro hn
    rw [widen, intOfSize_eq hn]
    omega

theorem interval_eq_iff (call : Sleep) :
    call.interval = some (call.duration / 1000000) ↔ call.Fits := by
  cases call with
  | sleep second =>
    have hmul : (second * 1000).toNat = second.toNat * 1000 % 2 ^ 32 := UInt32.toNat_mul ..
    change some (second * 1000).toNat = some (second.toNat * 1000000000 / 1000000) ↔
      second.toNat * 1000 < 2 ^ 32
    rw [hmul, some_inj]
    omega
  | usleep usec =>
    have hdiv : (usec / 1000).toNat = usec.toNat / 1000 := UInt32.toNat_div ..
    change some (usec / 1000).toNat = some (usec.toNat * 1000 / 1000000) ↔ True
    rw [hdiv, iff_true, some_inj]
    omega
  | nanosleep req =>
    rw [nanosleep_ms]
    unfold interval Fits
    dsimp only
    split
    · rename_i hsum
      rw [some_inj, widen_intOfSize_eq_iff hsum]
      omega
    · constructor
      · intro h
        cases h
      · intro h
        omega

theorem ms_lt_of_fits {call : Sleep} (h : call.Fits) : call.duration / 1000000 < 2 ^ 32 := by
  cases call with
  | sleep second =>
    change second.toNat * 1000000000 / 1000000 < 2 ^ 32
    have hms : second.toNat * 1000 < 2 ^ 32 := h
    omega
  | usleep usec =>
    change usec.toNat * 1000 / 1000000 < 2 ^ 32
    have := usec.toNat_lt
    omega
  | nanosleep req =>
    rw [nanosleep_ms]
    have hms : req.sec * 1000 + req.nsec / 1000000 < 2 ^ 31 := h
    omega

/-- The first nanosecond at which the timer is due is a whole millisecond, or that of the call. -/
theorem early_iff {now d : ℕ} (hnow : now < 2 ^ 63 * 1000000) (hd : d / 1000000 < 2 ^ 32) :
    (∀ t ≥ now, add64 (getCurrentMS now) (d / 1000000) ≤ getCurrentMS t →
      d ≤ t - now + 1000000) ↔ d < 1000000 ∨ d % 1000000 + now % 1000000 ≤ 1000000 := by
  have hshown : getCurrentMS now = now / 1000000 := by
    rw [getCurrentMS_eq, Nat.mod_eq_of_lt (by omega)]
  rw [hshown, add64_eq (by omega)]
  constructor
  · intro h
    by_contra hno
    push Not at hno
    have hdue := h ((now / 1000000 + d / 1000000) * 1000000) (by omega)
    rw [getCurrentMS_eq, Nat.mul_div_cancel _ (by norm_num), Nat.mod_eq_of_lt (by omega)] at hdue
    have := hdue le_rfl
    omega
  · intro h t ht hdue
    rw [getCurrentMS_eq] at hdue
    have hmod := Nat.mod_le (t / 1000000) (2 ^ 64)
    omega

/-- A call arms a timer for its duration in whole milliseconds, which is never due more than one
millisecond early, exactly when these milliseconds fit and the rest agrees with the clock. -/
theorem arm_exact_iff {Cb : Type} (call : Sleep) (now : Time) (cb : Cb) :
    (∃ timer, call.arm now.ns cb = some timer ∧ timer.ms = call.duration / 1000000 ∧
      timer.cb = some cb ∧ timer.recurring = false ∧
      ∀ t ≥ now.ns, timer.next ≤ getCurrentMS t →
        call.duration ≤ t - now.ns + 1000000) ↔ call.Fits ∧ call.Aligned now.ns := by
  constructor
  · rintro ⟨timer, harm, hms, -, -, hearly⟩
    obtain ⟨ms, hinterval, rfl⟩ := map_eq_some_iff.1 harm
    obtain rfl : ms = call.duration / 1000000 := hms
    have hfits := (interval_eq_iff call).1 hinterval
    exact ⟨hfits, (early_iff now.ns_lt (ms_lt_of_fits hfits)).1 hearly⟩
  · rintro ⟨hfits, haligned⟩
    have hinterval := (interval_eq_iff call).2 hfits
    refine ⟨_, by rw [arm, hinterval, map_some], rfl, rfl, rfl, ?_⟩
    exact (early_iff now.ns_lt (ms_lt_of_fits hfits)).2 haligned

/-- `sleep(4294968)`, about fifty days, arms a timer of 704 milliseconds; `usleep(1999)` just before
a whole millisecond one that is due after a microsecond. -/
theorem sleep_wraps :
    ((sleep 4294968).arm 5000 ()).map Timers.Timer.ms = some 704 ∧
      (sleep 4294968).duration / 1000000 = 4294968000 ∧
    ((usleep 1999).arm 999000 ()).map Timers.Timer.next = some (getCurrentMS (999000 + 1000)) ∧
      (usleep 1999).duration = 1999000 :=
  ⟨rfl, rfl, rfl, rfl⟩

end Sleep
end JKYi.Hook
