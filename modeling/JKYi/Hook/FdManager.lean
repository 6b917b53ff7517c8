import JKYi.Foundation.Interleaving
import Mathlib.Data.BitVec

/-!
# Descriptors of the hooked calls

The status flags of a socket as the user and as the kernel sees them, and the contexts of
`FdManager`, which `get` looks for under a read lock and creates under a write lock that it takes
later.
-/

namespace JKYi.Hook

open Function List

def O_NONBLOCK : BitVec 32 := BitVec.twoPow 32 11

/-- The flags that `F_SETFL` can change; the kernel ignores the others. -/
structure Kernel where
  settable : BitVec 32
  nonblock : settable.getLsbD 11 = true

def Kernel.setfl (k : Kernel) (flags arg : BitVec 32) : BitVec 32 :=
  (flags &&& ~~~k.settable) ||| (arg &&& k.settable)

def Kernel.fionbio (flags arg : BitVec 32) : BitVec 32 :=
  if arg = 0#32 then flags &&& ~~~O_NONBLOCK else flags ||| O_NONBLOCK

structure FdCtx where
  isSocket : Bool
  isClosed : Bool
  sysNonblock : Bool
  userNonblock : Bool

/-- A descriptor with its context and its flags in the kernel, whether the last request of the user
has asked for `O_NONBLOCK`, and the argument of the last `F_SETFL`. -/
structure Descriptor where
  ctx : Option FdCtx
  flags : BitVec 32
  asked : Bool
  arg : BitVec 32

inductive FlagCall where
  | setfl (arg : BitVec 32)
  | getfl
  | fionbio (arg : BitVec 32)

namespace Descriptor

/-- The context that the calls use: `!fd_ctx || isClose() || !isSocket()` is false for it. -/
def hooked (d : Descriptor) : Option FdCtx := d.ctx.filter fun c => !c.isClosed && c.isSocket

def setfl (k : Kernel) (d : Descriptor) (arg : BitVec 32) : Descriptor :=
  match d.hooked with
  | none => { d with flags := k.setfl d.flags arg }
  | some c =>
    { d with
      ctx := some { c with userNonblock := arg.getLsbD 11 }
      flags := k.setfl d.flags
        (if c.sysNonblock then arg ||| O_NONBLOCK else arg &&& ~~~O_NONBLOCK) }

def getfl (d : Descriptor) : BitVec 32 :=
  match d.hooked with
  | none => d.flags
  | some c => if c.userNonblock then d.flags ||| O_NONBLOCK else d.flags &&& ~~~O_NONBLOCK

def ioctl (d : Descriptor) (arg : BitVec 32) : Descriptor :=
  match d.hooked with
  | none => { d with flags := Kernel.fionbio d.flags arg }
  | some c =>
    { d with
      ctx := some { c with userNonblock := arg != 0#32 }
      flags := Kernel.fionbio d.flags arg }

def exec (k : Kernel) (d : Descriptor) : FlagCall → Descriptor
  | .setfl arg => { d.setfl k arg with asked := arg.getLsbD 11, arg := arg }
  | .getfl => d
  | .fionbio arg => { d.ioctl arg with asked := arg != 0#32 }

/-- A socket as `FdCtx::init` leaves it. -/
def Init (d : Descriptor) : Prop :=
  d.ctx = some ⟨true, false, true, false⟩ ∧ d.flags.getLsbD 11 = true ∧ d.asked = false ∧
    d.arg = d.flags

def Step (k : Kernel) (d : Descriptor) (c : FlagCall) (d' : Descriptor) : Prop := d' = d.exec k c

/-- The kernel does not block, and the user is told what has been asked for. -/
structure Views (k : Kernel) (d : Descriptor) : Prop where
  nonblock : d.flags.getLsbD 11 = true
  asked : d.getfl.getLsbD 11 = d.asked
  others : ∀ i ≠ 11, k.settable.getLsbD i = true → d.getfl.getLsbD i = d.arg.getLsbD i

def KeepsNonblock : FlagCall → Prop
  | .fionbio arg => arg ≠ 0#32
  | _ => True

variable {k : Kernel} {d : Descriptor}

theorem getLsbD_nonblock (i : ℕ) : O_NONBLOCK.getLsbD i = decide (i = 11) := by
  rw [O_NONBLOCK, BitVec.getLsbD_twoPow]
  grind

theorem getLsbD_clear (flags : BitVec 32) {i : ℕ} (hi : i ≠ 11) :
    (flags &&& ~~~O_NONBLOCK).getLsbD i = flags.getLsbD i := by
  cases h : flags.getLsbD i with
  | false => simp [h]
  | true =>
    rw [BitVec.getLsbD_and, BitVec.getLsbD_not, getLsbD_nonblock]
    simp [h, hi, BitVec.lt_of_getLsbD h]

def Told (k : Kernel) (d : Descriptor) : Prop :=
  d.ctx = some ⟨true, false, true, d.asked⟩ ∧
    ∀ i ≠ 11, k.settable.getLsbD i = true → d.flags.getLsbD i = d.arg.getLsbD i

theorem hooked_of_ctx {user : Bool} (h : d.ctx = some ⟨true, false, true, user⟩) :
    d.hooked = some ⟨true, false, true, user⟩ := by
  rw [hooked, h]
  rfl

theorem told_exec (h : Told k d) (c : FlagCall) : Told k (d.exec k c) := by
  have hctx := hooked_of_ctx h.1
  cases c with
  | setfl arg =>
    refine ⟨by simp [exec, setfl, hctx], fun i hi hset => ?_⟩
    simp [exec, setfl, hctx, Kernel.setfl, getLsbD_nonblock, hi, hset]
  | getfl => exact h
  | fionbio arg =>
    refine ⟨by simp [exec, ioctl, hctx], fun i hi hset => ?_⟩
    have hold := h.2 i hi hset
    by_cases harg : arg = 0#32 <;>
      simp [exec, ioctl, hctx, Kernel.fionbio, getLsbD_nonblock, getLsbD_clear, hi, harg, hold,
        -BitVec.getLsbD_and]

theorem views_iff (h : Told k d) : Views k d ↔ d.flags.getLsbD 11 = true := by
  have hctx := hooked_of_ctx h.1
  refine ⟨Views.nonblock, fun hflags => ⟨hflags, ?_, fun i hi hset => ?_⟩⟩
  · cases hasked : d.asked <;> simp [getfl, hctx, hasked, getLsbD_nonblock]
  · rw [← h.2 i hi hset]
    cases hasked : d.asked <;> simp [getfl, hctx, hasked, getLsbD_nonblock, getLsbD_clear, hi,
      -BitVec.getLsbD_and]

theorem nonblock_exec_iff (h : Told k d) (hflags : d.flags.getLsbD 11 = true) (c : FlagCall) :
    (d.exec k c).flags.getLsbD 11 = true ↔ KeepsNonblock c := by
  have hctx := hooked_of_ctx h.1
  cases c with
  | setfl arg => simp [exec, setfl, hctx, Kernel.setfl, getLsbD_nonblock, KeepsNonblock, k.nonblock]
  | getfl => simp [exec, KeepsNonblock, hflags]
  | fionbio arg =>
    by_cases harg : arg = 0#32 <;>
      simp [exec, ioctl, hctx, Kernel.fionbio, getLsbD_nonblock, KeepsNonblock, harg]

/-- In all states of a sequence of calls the two views are right, exactly when no `FIONBIO` turns
off the flag. -/
theorem views_iff_keepsNonblock {run : List (Descriptor × FlagCall)}
    (h : Trace Init (Step k) run d) :
    (∀ t ∈ d :: run.map Prod.fst, Views k t) ↔ ∀ p ∈ run, KeepsNonblock p.2 := by
  have htold : ∀ {run : List (Descriptor × FlagCall)} {d : Descriptor},
      Trace Init (Step k) run d → Told k d := by
    intro run d h
    refine h.invariant (fun d h => ?_) fun d c d' htold hstep => ?_
    · exact ⟨by rw [h.1, h.2.2.1], fun i _ _ => by rw [h.2.2.2]⟩
    · subst hstep
      exact told_exec htold c
  refine h.all_good_iff (F := fun _ c => KeepsNonblock c) (fun d h => ?_)
    fun run d c d' h hviews hstep => ?_
  · exact (views_iff (htold (.start h))).mpr h.2.1
  · subst hstep
    rw [views_iff (told_exec (htold h) c)]
    exact nonblock_exec_iff (htold h) hviews.nonblock c

/-- A socket that has just been registered. -/
def registered : Descriptor := ⟨some ⟨true, false, true, false⟩, O_NONBLOCK, false, O_NONBLOCK⟩

def kernel : Kernel := ⟨O_NONBLOCK, by decide⟩

theorem views_iff_keepsNonblock_setfl :
    Views kernel (registered.exec kernel (.setfl 0#32)) := by
  have h : Trace Init (Step kernel) [(registered, .setfl 0#32)] _ :=
    .next (.start ⟨rfl, by decide, rfl, rfl⟩) rfl
  exact (views_iff_keepsNonblock h).mpr (by simp [KeepsNonblock]) _ mem_cons_self

/-- `FIONBIO` with 0 reaches the kernel, though the context has `sysNonblock` set. -/
theorem ioctl_clears_nonblock : ∃ run d, Trace Init (Step kernel) run d ∧
    d.ctx = some ⟨true, false, true, false⟩ ∧ d.flags.getLsbD 11 = false :=
  ⟨[(registered, .fionbio 0#32)], _, .next (.start ⟨rfl, by decide, rfl, rfl⟩) rfl, rfl, by decide⟩

end Descriptor
/-- `FdManager` with the contexts numbered as they are created, the threads that are between the
two locks of `get(fd, true)`, and what the calls for this `fd` have returned. -/
structure FdManager (W : Type) where
  datas : List (Option ℕ)
  created : ℕ
  creating : W → Bool
  returned : List ℕ

namespace FdManager

/-- `resize` to `1.5*fd`, which is exact for an `int`, if the vector does not reach `fd`. -/
def reach (datas : List (Option ℕ)) (fd : ℕ) : List (Option ℕ) :=
  if fd ≥ datas.length then
    datas.take (fd * 3 / 2) ++ replicate (fd * 3 / 2 - datas.length) none
  else datas

variable {W : Type} [DecidableEq W] {fd : ℕ} {s s' : FdManager W} {w : W}

def slot (s : FdManager W) (fd : ℕ) : Option ℕ := s.datas[fd]?.join

/-- A thread passes one of the two sections of `get(fd, true)`. -/
inductive Step (fd : ℕ) : FdManager W → W → FdManager W → Prop
  | found {s : FdManager W} {w : W} {p : ℕ} : s.creating w = false → s.slot fd = some p →
    Step fd s w { s with returned := p :: s.returned }
  | miss {s : FdManager W} {w : W} : s.creating w = false → s.slot fd = none →
    Step fd s w { s with creating := update s.creating w true }
  | create {s : FdManager W} {w : W} : s.creating w = true →
    Step fd s w
      { datas := (reach s.datas fd).set fd (some s.created)
        created := s.created + 1
        creating := update s.creating w false
        returned := s.created :: s.returned }

/-- No call is under way; the vector has at least the size that the constructor gives to it. -/
def Init (fd : ℕ) (s : FdManager W) : Prop :=
  64 ≤ s.datas.length ∧ (∀ p, s.slot fd = some p → p < s.created) ∧
    (∀ w, s.creating w = false) ∧ s.returned = []

/-- All calls have returned the context that is stored. -/
def Same (fd : ℕ) (s : FdManager W) : Prop := ∀ p ∈ s.returned, s.slot fd = some p

/-- A thread that takes the write lock still finds no context. -/
def Alone (fd : ℕ) (s : FdManager W) (w : W) : Prop := s.creating w = true → s.slot fd = none

structure Inv (fd : ℕ) (s : FdManager W) : Prop where
  size : 64 ≤ s.datas.length
  slot_lt : ∀ p, s.slot fd = some p → p < s.created
  returned_lt : ∀ p ∈ s.returned, p < s.created
  late : ∀ w, s.creating w = true → ∀ p, s.slot fd = some p → p ∈ s.returned

theorem lt_length_reach {datas : List (Option ℕ)} (h : 64 ≤ datas.length) :
    fd < (reach datas fd).length ∧ datas.length ≤ (reach datas fd).length := by
  unfold reach
  split_ifs <;> simp <;> omega

theorem slot_create {datas : List (Option ℕ)} (h : 64 ≤ datas.length) (p : ℕ) :
    ((reach datas fd).set fd (some p))[fd]?.join = some p := by
  rw [getElem?_set_self (lt_length_reach h).1]
  rfl

theorem Step.inv (h : Inv fd s) (hs : Step fd s w s') : Inv fd s' := by
  obtain ⟨hsize, hslot, hreturned, hlate⟩ := h
  cases hs with
  | found hw hp =>
    exact ⟨hsize, hslot, forall_mem_cons.mpr ⟨hslot _ hp, hreturned⟩,
      fun v hv p hp => mem_cons_of_mem _ (hlate v hv p hp)⟩
  | miss hw hnone => exact ⟨hsize, hslot, hreturned, fun _ _ p hp => by cases hnone.symm.trans hp⟩
  | create hw =>
    refine ⟨?_, ?_, ?_, ?_⟩
    · rw [length_set]
      exact hsize.trans (lt_length_reach hsize).2
    all_goals simp only [slot, slot_create hsize]
    · rintro p ⟨⟩
      omega
    · exact forall_mem_cons.mpr ⟨by omega, fun p hp => (hreturned p hp).trans (by omega)⟩
    · rintro _ _ p ⟨⟩
      exact mem_cons_self

theorem Step.same_iff (h : Inv fd s) (hs : Step fd s w s') :
    Same fd s' ↔ Same fd s ∧ Alone fd s w := by
  cases hs with
  | found hw hp => simp [Same, Alone, slot, hw, ← hp]
  | miss hw hnone => simp [Same, Alone, slot, hw]
  | create hw =>
    simp only [Same, Alone, slot, slot_create h.size, hw, forall_mem_cons, Option.some.injEq,
      true_and, forall_const]
    constructor
    · intro hall
      have hnil : s.returned = [] := by
        apply eq_nil_iff_forall_not_mem.mpr
        intro p hp
        exact absurd (hall p hp) (h.returned_lt p hp).ne'
      refine ⟨by simp [hnil], Option.eq_none_iff_forall_ne_some.mpr fun p hp => ?_⟩
      have hlate := h.late w hw p hp
      simp [hnil] at hlate
    · rintro ⟨hsame, hnone⟩ p hp
      cases hnone.symm.trans (hsame p hp)

/-- In a run without `del` all calls return the context that is stored at its end, exactly when
no thread creates a second one. -/
theorem same_context_iff {run : List (FdManager W × W)} (h : Trace (Init fd) (Step fd) run s) :
    Same fd s ↔ ∀ p ∈ run, Alone fd p.1 p.2 := by
  refine h.good_iff (fun s h => by simp [Same, h.2.2.2]) fun run s w s' h hs => ?_
  have hinv : Inv fd s := by
    refine h.invariant (fun s h => ?_) fun s w s' hinv hs => hs.inv hinv
    exact ⟨h.1, h.2.1, by simp [h.2.2.2], by simp [h.2.2.1]⟩
  exact hs.same_iff hinv

/-- The manager as it is constructed. -/
def fresh (W : Type) : FdManager W := ⟨replicate 64 none, 0, fun _ => false, []⟩

theorem trace_fresh : Trace (Init 3) (Step 3) [] (fresh W) :=
  .start ⟨by simp [fresh], by simp [slot, fresh], fun _ => rfl, rfl⟩

/-- The second thread calls when the first one has stored its context. -/
theorem same_context_iff_two : ∃ run, ∃ s : FdManager Bool, Trace (Init 3) (Step 3) run s ∧
    s.returned = [0, 0] ∧ Same 3 s := by
  have h := (trace_fresh (W := Bool)).next (.miss (w := true) rfl rfl)
  have h := h.next (.create (w := true) rfl)
  have h := h.next (.found (w := false) rfl rfl)
  exact ⟨_, _, h, rfl, (same_context_iff h).mpr (by simp [Alone, slot, fresh])⟩

/-- Both threads pass the first section before one of them stores its context. -/
theorem two_contexts : ∃ run, ∃ s : FdManager Bool, Trace (Init 3) (Step 3) run s ∧
    (∀ w, s.creating w = false) ∧ s.returned = [1, 0] ∧ s.slot 3 = some 1 := by
  have h := (trace_fresh (W := Bool)).next (.miss (w := true) rfl rfl)
  have h := h.next (.miss (w := false) rfl rfl)
  have h := h.next (.create (w := true) rfl)
  have h := h.next (.create (w := false) rfl)
  exact ⟨_, _, h, by decide, rfl, rfl⟩

end FdManager
end JKYi.Hook
