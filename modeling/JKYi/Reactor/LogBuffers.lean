import JKYi.Reactor.AsyncLogging

/-!
# The logger's buffers as unique pointers

The buffers change hands by moves, and a pointer that has been moved from is null. Here all
pointers of `append` and `threadFunc` may be null; an access through a null pointer and a failed
assertion give `none`.
-/

namespace JKYi.Net

open List Relation

abbrev BufferPtr (α : Type) := Option (LargeBuffer α)

structure LogBuffers (α : Type) where
  currentBuffer : BufferPtr α
  nextBuffer : BufferPtr α
  buffers : List (BufferPtr α)
  newBuffer1 : BufferPtr α
  newBuffer2 : BufferPtr α
  buffersToWrite : List (BufferPtr α)

namespace LogBuffers

/-- Where the thread is without the lock: before an iteration, in `waitForSeconds`, or behind the
locked section. -/
inductive Stage where
  | notStarted
  | atLoop
  | waiting
  | swapped
  | ended

variable {α : Type} (m : LogBuffers α)

def create : LogBuffers α := ⟨some .empty, some .empty, [], none, none, []⟩

def append (logline : List α) : Option (LogBuffers α) := do
  let current ← m.currentBuffer
  if current.avail ≥ logline.length then
    some { m with currentBuffer := some (current.append logline) }
  else
    some { m with
      buffers := m.buffers ++ [m.currentBuffer]
      currentBuffer := some ((m.nextBuffer.getD .empty).append logline)
      nextBuffer := none }

def start : LogBuffers α :=
  { m with newBuffer1 := some .empty, newBuffer2 := some .empty, buffersToWrite := [] }

/-- The end of the locked section. -/
def swap : LogBuffers α :=
  { m with
    currentBuffer := m.newBuffer1
    newBuffer1 := none
    buffers := m.buffersToWrite
    buffersToWrite := m.buffers ++ [m.currentBuffer]
    nextBuffer := m.nextBuffer.or m.newBuffer2
    newBuffer2 := if m.nextBuffer.isSome then m.newBuffer2 else none }

/-- `if(!newBuffer)`: the spare buffer with what is left of `buffersToWrite`. -/
def recover : BufferPtr α → List (BufferPtr α) → Option (BufferPtr α × List (BufferPtr α))
  | some b, buffersToWrite => some (some b, buffersToWrite)
  | none, buffersToWrite => do
    let last ← buffersToWrite.getLast?
    let newBuffer ← last
    some (some newBuffer.reset, buffersToWrite.dropLast)

def limit (buffersToWrite : List (BufferPtr α)) : List (BufferPtr α) :=
  if buffersToWrite.length > 25 then buffersToWrite.take 2 else buffersToWrite

/-- The rest of the iteration; only the thread uses what it changes. -/
def finish : Option (LogBuffers α) :=
  if m.buffersToWrite.isEmpty || (limit m.buffersToWrite).any (·.isNone) then none
  else do
    let r ← recover m.newBuffer1 ((limit m.buffersToWrite).take 2)
    let r' ← recover m.newBuffer2 r.2
    some { m with newBuffer1 := r.1, newBuffer2 := r'.1, buffersToWrite := [] }

inductive Step : LogBuffers α × Stage → LogBuffers α × Stage → Prop
  | append {m m' : LogBuffers α} {stage : Stage} (logline : List α) :
    m.append logline = some m' → Step (m, stage) (m', stage)
  | start {m : LogBuffers α} : Step (m, .notStarted) (m.start, .atLoop)
  | stop {m : LogBuffers α} : Step (m, .atLoop) (m, .ended)
  | wait {m : LogBuffers α} : m.buffers = [] → Step (m, .atLoop) (m, .waiting)
  | wake {m : LogBuffers α} : Step (m, .waiting) (m.swap, .swapped)
  | swap {m : LogBuffers α} : m.buffers ≠ [] → Step (m, .atLoop) (m.swap, .swapped)
  | finish {m m' : LogBuffers α} : m.finish = some m' → Step (m, .swapped) (m', .atLoop)

def Spare (p : BufferPtr α) : Prop := ∃ b, p = some b ∧ b.length = 0

/-- Once `nextBuffer_` has been used there are two buffers to write. -/
def Fits : Stage → Prop
  | .notStarted | .ended => True
  | .atLoop | .waiting => Spare m.newBuffer1 ∧ Spare m.newBuffer2 ∧ m.buffersToWrite = []
  | .swapped => m.newBuffer1 = none ∧ none ∉ m.buffersToWrite ∧ m.buffersToWrite ≠ [] ∧
    (Spare m.newBuffer2 ∨ m.newBuffer2 = none ∧ 2 ≤ m.buffersToWrite.length)

structure Inv (m : LogBuffers α) (stage : Stage) : Prop where
  current : m.currentBuffer ≠ none
  held : none ∉ m.buffers
  used : m.nextBuffer = none → m.buffers ≠ []
  fits : m.Fits stage

variable {m} {m' : LogBuffers α} {stage : Stage}

theorem Inv.append (h : Inv m stage) (logline : List α) :
    ∃ m', m.append logline = some m' ∧ Inv m' stage := by
  obtain ⟨current, hcurrent⟩ := Option.ne_none_iff_exists'.mp h.current
  simp only [LogBuffers.append, hcurrent, Option.bind_eq_bind, Option.bind_some]
  split_ifs
  · exact ⟨_, rfl, nofun, h.held, h.used, by cases stage <;> exact h.fits⟩
  · refine ⟨_, rfl, nofun, ?_, by simp, by cases stage <;> exact h.fits⟩
    simpa using h.held

theorem Inv.swap (h : Inv m .waiting) : Inv m.swap .swapped := by
  obtain ⟨⟨b, hb, -⟩, hspare, hnil⟩ := h.fits
  have ⟨c, hc, _⟩ := hspare
  refine ⟨by simp [LogBuffers.swap, hb], by simp [LogBuffers.swap, hnil],
    by simp [LogBuffers.swap, hc], rfl, ?_, by simp [LogBuffers.swap], ?_⟩
  · simpa [LogBuffers.swap] using ⟨h.held, h.current.symm⟩
  · cases hnext : m.nextBuffer with
    | none =>
      have hpos := length_pos_iff.mpr (h.used hnext)
      refine .inr ⟨by simp [LogBuffers.swap, hnext], ?_⟩
      simp only [LogBuffers.swap, length_append, length_singleton]
      omega
    | some b => exact .inl (by simpa [LogBuffers.swap, hnext] using hspare)

theorem recover_none {bs : List (BufferPtr α)} (hbs : bs ≠ []) (hnull : none ∉ bs) :
    ∃ p, recover none bs = some (p, bs.dropLast) ∧ Spare p := by
  obtain ⟨b, hb⟩ := Option.ne_none_iff_exists'.mp
    fun hlast : bs.getLast hbs = none => hnull (hlast ▸ getLast_mem hbs)
  refine ⟨some b.reset, ?_, b.reset, rfl, rfl⟩
  simp [recover, getLast?_eq_getLast_of_ne_nil hbs, hb]

theorem limit_spec (bs : List (BufferPtr α)) :
    limit bs ⊆ bs ∧ (limit bs).take 2 = bs.take 2 := by
  unfold limit
  split_ifs
  · exact ⟨take_subset 2 bs, by rw [take_take, min_self]⟩
  · exact ⟨List.Subset.refl bs, rfl⟩

theorem finish_spec (h : m.Fits .swapped) : ∃ p q, Spare p ∧ Spare q ∧
    m.finish = some { m with newBuffer1 := p, newBuffer2 := q, buffersToWrite := [] } := by
  obtain ⟨hmoved, hnull, hne, hspare⟩ := h
  obtain ⟨hsub, htake⟩ := limit_spec m.buffersToWrite
  have hall : (limit m.buffersToWrite).any (·.isNone) = false := by
    rw [any_eq_false]
    intro p hp hnone
    exact hnull (hsub (Option.isNone_iff_eq_none.mp hnone ▸ hp))
  have hnull' : none ∉ m.buffersToWrite.take 2 := mt mem_of_mem_take hnull
  obtain ⟨p, hp, hsparep⟩ := recover_none (by simpa using hne) hnull'
  obtain ⟨q, bs, hq, hspareq⟩ : ∃ q bs,
      recover m.newBuffer2 (m.buffersToWrite.take 2).dropLast = some (q, bs) ∧ Spare q := by
    rcases hspare with ⟨b, hb, hempty⟩ | ⟨hnone, htwo⟩
    · exact ⟨some b, _, by rw [hb]; rfl, b, rfl, hempty⟩
    · have hrest : (m.buffersToWrite.take 2).dropLast ≠ [] := by
        rw [← length_pos_iff, length_dropLast, length_take]
        omega
      obtain ⟨q, hq, hspareq⟩ := recover_none hrest (mt mem_of_mem_dropLast hnull')
      exact ⟨q, _, hnone ▸ hq, hspareq⟩
  refine ⟨p, q, hsparep, hspareq, ?_⟩
  simp [finish, hne, hall, htake, hmoved, hp, hq]

theorem Step.inv {s s' : LogBuffers α × Stage} (hs : Step s s') (h : Inv s.1 s.2) :
    Inv s'.1 s'.2 := by
  cases hs with
  | append logline hrun =>
    obtain ⟨_, hrun', h'⟩ := h.append logline
    cases hrun.symm.trans hrun'
    exact h'
  | start => exact ⟨h.current, h.held, h.used, ⟨_, rfl, rfl⟩, ⟨_, rfl, rfl⟩, rfl⟩
  | stop => exact ⟨h.current, h.held, h.used, trivial⟩
  | wait => exact ⟨h.current, h.held, h.used, h.fits⟩
  | wake => exact h.swap
  | swap => exact Inv.swap ⟨h.current, h.held, h.used, h.fits⟩
  | finish hrun =>
    obtain ⟨p, q, hp, hq, hrun'⟩ := finish_spec h.fits
    cases hrun.symm.trans hrun'
    exact ⟨h.current, h.held, h.used, hp, hq, rfl⟩

theorem inv_of_steps {s : LogBuffers α × Stage}
    (h : ReflTransGen Step (create, .notStarted) s) : Inv s.1 s.2 := by
  induction h with
  | refl => exact ⟨nofun, not_mem_nil, nofun, trivial⟩
  | tail _ hs ih => exact hs.inv ih

/-- `append` never meets a null `currentBuffer_`, every iteration starts with two empty spare
buffers and nothing to write, and it gets to its end. -/
theorem pointers_ready (h : ReflTransGen Step (create, .notStarted) (m, stage)) :
    m.currentBuffer ≠ none ∧
    (stage = .atLoop → Spare m.newBuffer1 ∧ Spare m.newBuffer2 ∧ m.buffersToWrite = []) ∧
    (stage = .swapped → ∃ m', m.finish = some m') := by
  have hinv := inv_of_steps h
  refine ⟨hinv.current, ?_, ?_⟩
  · rintro rfl
    exact hinv.fits
  · rintro rfl
    obtain ⟨p, q, -, -, hrun⟩ := finish_spec hinv.fits
    exact ⟨_, hrun⟩

/-- The second of two long lines goes to `nextBuffer_`, and the swap uses up both spare buffers. -/
theorem pointers_ready_next : ∃ m m' : LogBuffers UInt8,
    ReflTransGen Step (create, .notStarted) (m, .swapped) ∧ m.newBuffer1 = none ∧
      m.newBuffer2 = none ∧ m.finish = some m' := by
  obtain ⟨line, hline⟩ : ∃ line : List UInt8, line.length = 3000000 :=
    ⟨replicate _ 0, length_replicate⟩
  have hempty : (FixedBuffer.empty : LargeBuffer UInt8).avail = 4000000 := rfl
  obtain ⟨b, hb⟩ : ∃ b : LargeBuffer UInt8, FixedBuffer.empty.append line = b := ⟨_, rfl⟩
  have havail : b.avail = 1000000 := by
    rw [← hb, FixedBuffer.append, dif_pos (by omega), FixedBuffer.avail, FixedBuffer.length,
      length_append, hline]
    rfl
  have hfirst : create.start.append line =
      some { create.start with currentBuffer := some (FixedBuffer.empty.append line) } :=
    if_pos (by omega)
  have hsecond : LogBuffers.append { create.start with currentBuffer := some b } line =
      some { create.start with
        buffers := [some b]
        currentBuffer := some (FixedBuffer.empty.append line)
        nextBuffer := none } := if_neg (by omega)
  rw [hb] at hfirst
  have hrun := ReflTransGen.single (Step.start (m := create (α := UInt8)))
  have hrun := ((hrun.tail (.append line hfirst)).tail (.append line hsecond)).tail
    (.swap (cons_ne_nil _ _))
  obtain ⟨m', hm'⟩ := (pointers_ready hrun).2.2 rfl
  exact ⟨_, m', hrun, rfl, rfl, hm'⟩

end LogBuffers
end JKYi.Net
