import JKYi.Reactor.AsyncLogging

/-!
# Which lines reach the log file

A run of the logger is followed through two streams of characters: those the back end has taken
over, in the file or on the way to it, and those still in front. A line is lost when it fills the
buffer exactly, and when it is in front while the back end does not come to its lock again.
-/

namespace JKYi.Net

open FixedBuffer List

namespace FixedBuffer

variable {SIZE : ℕ} {α : Type} {b : FixedBuffer SIZE α} {buf : List α}

@[simp] theorem data_empty : (empty : FixedBuffer SIZE α).data = [] := rfl

@[simp] theorem data_reset : b.reset.data = [] := rfl

theorem avail_of_data (h : b.data = []) : b.avail = SIZE := by
  rw [avail, length, h]
  rfl

theorem data_append (h : buf.length < b.avail) : (b.append buf).data = b.data ++ buf := by
  rw [append, dif_pos h]

theorem append_full (h : ¬ buf.length < b.avail) : b.append buf = b := dif_neg h

theorem avail_append_pos (h : 0 < b.avail) : 0 < (b.append buf).avail := by
  by_cases hlt : buf.length < b.avail
  · rw [avail, length, data_append hlt, length_append]
    rw [avail, length] at hlt
    omega
  · rw [append_full hlt]
    exact h

end FixedBuffer

namespace LogFile

variable {α : Type} (f : LogFile α)

@[simp] theorem contents_flush : f.flush.contents = f.contents := by
  simp [flush, AppendFile.flush, written, contents]

@[simp] theorem contents_rollFile (now : ℤ) : (f.rollFile now).contents = f.contents := by
  unfold rollFile
  split
  · simp [contents, written, AppendFile.flush, AppendFile.empty]
  · rfl

theorem contents_append (logline : List α) (now rollTime : ℤ) :
    (f.append logline now rollTime).contents = f.contents ++ logline := by
  have happend : ∀ g : LogFile α, g.closed = f.closed → g.file = f.file.append logline →
      g.contents = f.contents ++ logline := by
    intro g hclosed hfile
    simp [contents, written, hclosed, hfile, AppendFile.append]
  unfold append
  dsimp only
  split_ifs
  · rw [contents_rollFile, happend] <;> rfl
  · rw [contents_rollFile, happend] <;> rfl
  · rw [contents_flush, happend] <;> rfl
  · exact happend _ rfl rfl
  · exact happend _ rfl rfl

theorem contents_create {rollSize now : ℤ} {f : LogFile α} (h : create rollSize now = some f) :
    f.contents = [] := by
  unfold create at h
  split at h
  · cases h
    rfl
  · cases h

end LogFile

def bytes {α : Type} (bs : List (LargeBuffer α)) : List α := bs.flatMap (·.data)

namespace Backend

variable {α : Type}

def taken : Backend α → List α
  | notStarted => []
  | atLoop output _ _ | locking output _ _ | waiting output _ _ | ended output => output.contents
  | swapped output _ buffersToWrite => output.contents ++ bytes buffersToWrite
  | writing output _ _ rest => output.contents ++ bytes rest

def written : Backend α → List α
  | notStarted => []
  | atLoop output _ _ => output.written
  | locking output _ _ => output.written
  | waiting output _ _ => output.written
  | swapped output _ _ => output.written
  | writing output _ _ _ => output.written
  | ended output => output.written

def beforeSwap : Backend α → Bool
  | locking _ _ _ => true
  | waiting _ _ _ => true
  | _ => false

def started : Backend α → Bool
  | notStarted => false
  | _ => true

def hasEnded : Backend α → Bool
  | ended _ => true
  | _ => false

def Ready : Backend α → Prop
  | notStarted => True
  | atLoop _ newBuffer1 newBuffer2 | locking _ newBuffer1 newBuffer2
  | waiting _ newBuffer1 newBuffer2 => newBuffer1.data = [] ∧ newBuffer2.data = []
  | swapped _ newBuffer2 buffersToWrite | writing _ newBuffer2 buffersToWrite _ =>
    (∀ b, newBuffer2 = some b → b.data = []) ∧ buffersToWrite ≠ [] ∧
      (newBuffer2 = none → 2 ≤ buffersToWrite.length)
  | ended output => output.file.buffer = []

theorem started_of_ne {thread : Backend α} (h : thread ≠ notStarted) : thread.started ≠ false := by
  cases thread with
  | notStarted => exact absurd rfl h
  | _ => exact nofun

end Backend

namespace AsyncLogging

variable {α : Type} {l : AsyncLogging α}

/-- The characters in front, in the order in which they were appended. -/
def front (l : AsyncLogging α) : List α := bytes l.buffers ++ l.currentBuffer.data

structure Ready (l : AsyncLogging α) : Prop where
  room : 0 < l.currentBuffer.avail
  next : ∀ b, l.nextBuffer = some b → b.data = []
  used : l.nextBuffer = none → l.buffers ≠ []
  thread : l.thread.Ready

theorem bytes_pushed (l : AsyncLogging α) : bytes (l.buffers ++ [l.currentBuffer]) = l.front := by
  simp [bytes, front]

theorem Ready.append (h : Ready l) {line : List α} (hline : line.length < kLargeBuffer) :
    Ready (l.append line) ∧ (l.append line).thread = l.thread ∧
      (l.append line).running = l.running ∧ (l.append line).front =
        l.front ++ if line.length = l.currentBuffer.avail then [] else line := by
  have hnew : ∀ b : LargeBuffer α, b.data = [] → 0 < (b.append line).avail ∧
      (b.append line).data = line := by
    intro b hb
    have havail := avail_of_data hb
    refine ⟨avail_append_pos (by omega), ?_⟩
    rw [data_append (by omega), hb, nil_append]
  unfold AsyncLogging.append
  by_cases hfits : l.currentBuffer.avail ≥ line.length
  · rw [if_pos hfits]
    refine ⟨⟨avail_append_pos h.room, h.next, h.used, h.thread⟩, rfl, rfl, ?_⟩
    split_ifs with hexact
    · rw [append_nil, front, front, append_full (Nat.not_lt.mpr (le_of_eq hexact.symm))]
    · rw [front, front, data_append (by omega), append_assoc]
  · rw [if_neg hfits, if_neg (by omega : line.length ≠ l.currentBuffer.avail)]
    split
    next b hb =>
      obtain ⟨hroom, hdata⟩ := hnew b (h.next b hb)
      refine ⟨⟨hroom, nofun, fun _ => by simp, h.thread⟩, rfl, rfl, ?_⟩
      rw [front, bytes_pushed, hdata]
    next hnone =>
      obtain ⟨hroom, hdata⟩ := hnew .empty rfl
      refine ⟨⟨hroom, h.next, fun _ => by simp, h.thread⟩, rfl, rfl, ?_⟩
      rw [front, bytes_pushed, hdata]

theorem Ready.swap (h : Ready l) (output : LogFile α) {newBuffer1 newBuffer2 : LargeBuffer α}
    (h₁ : newBuffer1.data = []) (h₂ : newBuffer2.data = []) :
    Ready (l.swap output newBuffer1 newBuffer2) ∧
      (l.swap output newBuffer1 newBuffer2).running = l.running ∧
      (l.swap output newBuffer1 newBuffer2).front = [] ∧
      ∃ b, (l.swap output newBuffer1 newBuffer2).thread =
        .swapped output b (l.buffers ++ [l.currentBuffer]) := by
  have hroom : 0 < newBuffer1.avail := by
    rw [avail_of_data h₁]
    decide
  unfold AsyncLogging.swap
  split
  next b hb =>
    refine ⟨⟨hroom, h.next, fun hnone => ?_, ?_⟩, rfl, h₁, _, rfl⟩
    · cases hnone.symm.trans hb
    · exact ⟨fun b hb => Option.some.inj hb ▸ h₂, by simp, nofun⟩
  next hnone =>
    refine ⟨⟨hroom, fun b hb => Option.some.inj hb ▸ h₂, nofun, ?_⟩, rfl, h₁, _, rfl⟩
    refine ⟨nofun, by simp, fun _ => ?_⟩
    have hlen := length_pos_of_ne_nil (h.used hnone)
    rw [length_append, length_singleton]
    omega

theorem recycle_spec {newBuffer2 : Option (LargeBuffer α)} {bs : List (LargeBuffer α)}
    (h₂ : ∀ b, newBuffer2 = some b → b.data = []) (hbs : bs ≠ [])
    (htwo : newBuffer2 = none → 2 ≤ bs.length) :
    ∃ r, recycle newBuffer2 bs = some r ∧ r.1.data = [] ∧ r.2.data = [] := by
  have htake : bs.take 2 ≠ [] := by
    simp [take_eq_nil_iff, hbs]
  unfold recycle
  dsimp only
  rw [getLast?_eq_getLast_of_ne_nil htake]
  cases newBuffer2 with
  | some b => exact ⟨_, rfl, rfl, h₂ b rfl⟩
  | none =>
    have hrest : (bs.take 2).dropLast ≠ [] := by
      have hlen := htwo rfl
      apply ne_nil_of_length_pos
      rw [length_dropLast, length_take]
      omega
    rw [Option.bind_eq_bind, Option.bind_some, getLast?_eq_getLast_of_ne_nil hrest]
    exact ⟨_, rfl, rfl, rfl⟩

end AsyncLogging
namespace Logging

/-- The back end does not find more than 25 buffers to write. -/
def Few (s : Logging) : Act → Prop
  | .limit _ _ _ => ∀ output newBuffer2 buffersToWrite,
    s.log.thread = .swapped output newBuffer2 buffersToWrite → buffersToWrite.length ≤ 25
  | _ => True

/-- A line appended before `stop` does not fill the current buffer exactly, and `stop` is called
while the back end has still to swap the buffers, or with nothing in front. -/
def Fine (s : Logging) : Act → Prop
  | .append line => s.stopAt = none → line.length ≠ s.log.currentBuffer.avail
  | .stop => s.log.thread.beforeSwap = true ∨ s.log.front = []
  | _ => True

def marked (calls : List (List UInt8)) : List Marked :=
  calls.zipIdx.flatMap fun p => mark p.2 p.1

def earlier (n : ℕ) (c : Marked) : Bool := c.2.any (· < n)

/-- The lines appended before `stop` are in the files once, in the order of the calls. -/
def AllWritten (s : Logging) : Prop :=
  ∀ n, s.stopAt = some n → s.log.thread.written.filter (earlier n) = marked (s.calls.take n)

theorem marked_append (calls : List (List UInt8)) (line : List UInt8) :
    marked (calls ++ [line]) = marked calls ++ mark calls.length line := by
  simp [marked, zipIdx_append]

variable {calls : List (List UInt8)} {c : Marked}

theorem mem_marked :
    c ∈ marked calls ↔ ∃ k line, calls[k]? = some line ∧ c.2 = some k ∧ c.1 ∈ line := by
  simp only [marked, mem_flatMap, Prod.exists, mk_mem_zipIdx_iff_getElem?, mark, mem_map]
  constructor
  · rintro ⟨line, k, hk, x, hx, rfl⟩
    exact ⟨k, line, hk, rfl, hx⟩
  · rintro ⟨k, line, hk, hc, hx⟩
    exact ⟨line, k, hk, c.1, hx, Prod.ext rfl hc.symm⟩

theorem mark_length (call : ℕ) (line : List UInt8) : (mark call line).length = line.length :=
  length_map _

theorem filter_earlier_marked (calls : List (List UInt8)) :
    (marked calls).filter (earlier calls.length) = marked calls := by
  apply filter_eq_self.mpr
  intro c hc
  obtain ⟨k, line, hk, hcall, -⟩ := mem_marked.mp hc
  have hlt := (List.getElem?_eq_some_iff.mp hk).1
  simp [earlier, hcall, hlt]

variable {n call : ℕ}

theorem filter_earlier_mark (h : n ≤ call) (line : List UInt8) :
    (mark call line).filter (earlier n) = [] := by
  simp [mark, earlier, h]

variable {s s' : Logging} {a : Act} {thread : Backend Marked} {output : LogFile Marked}

structure Sound (s : Logging) : Prop where
  ready : s.log.Ready
  idle : s.log.thread.started = false → s.stopAt = none
  running : s.log.thread.started = true → (s.log.running = true ↔ s.stopAt = none)
  ended : s.log.thread.hasEnded = true → s.stopAt ≠ none

theorem sound_of_initial (h : initial s) : Sound s := by
  obtain ⟨rollSize, rfl⟩ := h
  have hroom : 0 < (FixedBuffer.empty : LargeBuffer Marked).avail := by decide
  refine ⟨⟨hroom, ?_, nofun, trivial⟩, fun _ => rfl, nofun, nofun⟩
  intro b hb
  cases hb
  rfl

theorem Sound.of_thread (h : Sound s) (hthread : s.log.thread = thread) :
    thread.Ready ∧ s.log.thread.started = thread.started := by
  subst hthread
  exact ⟨h.ready.thread, rfl⟩

theorem Sound.moveTo (h : Sound s) (hstarted : s.log.thread.started = true)
    (hready : thread.Ready) (hthread : thread.started = true)
    (hended : thread.hasEnded = true → s.stopAt ≠ none) : Sound (s.moveTo thread) :=
  ⟨⟨h.ready.room, h.ready.next, h.ready.used, hready⟩,
    fun hidle => absurd (hthread.symm.trans hidle) (by decide), fun _ => h.running hstarted,
    hended⟩

theorem Sound.swap (h : Sound s) (hstarted : s.log.thread.started = true)
    {newBuffer1 newBuffer2 : LargeBuffer Marked} (h₁ : newBuffer1.data = [])
    (h₂ : newBuffer2.data = []) :
    Sound { s with log := s.log.swap output newBuffer1 newBuffer2 } := by
  obtain ⟨hready, hrunning, -, b, hthread⟩ := h.ready.swap output h₁ h₂
  refine ⟨hready, fun hidle => ?_, fun _ => ?_, fun hended => ?_⟩
  · rw [hthread] at hidle
    cases hidle
  · rw [hrunning]
    exact h.running hstarted
  · rw [hthread] at hended
    cases hended

theorem sound_step (h : Sound s) (hs : step s a s') : Sound s' := by
  cases a with
  | append line =>
    obtain ⟨hline, rfl⟩ := hs
    obtain ⟨hready, hsame, hrunning, -⟩ := h.ready.append
      ((mark_length s.calls.length line).trans_lt hline)
    refine ⟨hready, ?_, ?_, ?_⟩
    · rw [hsame]
      exact h.idle
    · rw [hsame, hrunning]
      exact h.running
    · rw [hsame]
      exact h.ended
  | start now =>
    obtain ⟨hidle, output, houtput, rfl⟩ := hs
    refine ⟨⟨h.ready.room, h.ready.next, h.ready.used, rfl, rfl⟩, nofun, fun _ => ?_, nofun⟩
    exact iff_of_true rfl (h.idle (by rw [hidle]; rfl))
  | stop =>
    obtain ⟨hstarted, hnone, rfl⟩ := hs
    refine ⟨⟨h.ready.room, h.ready.next, h.ready.used, h.ready.thread⟩, fun hidle => ?_,
      fun _ => ?_, nofun⟩
    · exact absurd hidle (Backend.started_of_ne hstarted)
    · exact iff_of_false (by decide : ¬ false = true) nofun
  | test =>
    obtain ⟨output, b₁, b₂, hloop, hs⟩ := hs
    obtain ⟨hthread, hstarted⟩ := h.of_thread hloop
    split at hs
    · obtain ⟨-, -, rfl⟩ := hs
      exact h.moveTo hstarted hthread rfl nofun
    next hrunning =>
      subst hs
      exact h.moveTo hstarted rfl rfl fun _ hnone =>
        hrunning ((h.running hstarted).mpr hnone)
  | lock =>
    obtain ⟨output, b₁, b₂, hlocking, rfl⟩ := hs
    obtain ⟨hthread, hstarted⟩ := h.of_thread hlocking
    unfold AsyncLogging.lock
    split
    · exact h.moveTo hstarted hthread rfl nofun
    · exact h.swap hstarted hthread.1 hthread.2
  | wake =>
    obtain ⟨output, b₁, b₂, hwaiting, rfl⟩ := hs
    obtain ⟨hthread, hstarted⟩ := h.of_thread hwaiting
    exact h.swap hstarted hthread.1 hthread.2
  | limit buf now rollTime =>
    obtain ⟨output, b₂, bs, hswapped, -, rfl⟩ := hs
    obtain ⟨hthread, hstarted⟩ := h.of_thread hswapped
    unfold AsyncLogging.limit
    split
    next hmany =>
      refine h.moveTo hstarted ⟨hthread.1, ?_, fun _ => ?_⟩ rfl
        nofun
      · simp [take_eq_nil_iff, hthread.2.1]
      · rw [length_take]
        omega
    · exact h.moveTo hstarted hthread rfl nofun
  | write now rollTime =>
    obtain ⟨output, b₂, bs, b, rest, hwriting, rfl⟩ := hs
    obtain ⟨hthread, hstarted⟩ := h.of_thread hwriting
    exact h.moveTo hstarted hthread rfl nofun
  | recycle =>
    obtain ⟨output, b₂, bs, r, hwriting, hr, rfl⟩ := hs
    obtain ⟨hthread, hstarted⟩ := h.of_thread hwriting
    obtain ⟨r', hr', hempty⟩ := AsyncLogging.recycle_spec hthread.1 hthread.2.1 hthread.2.2
    cases hr.symm.trans hr'
    exact h.moveTo hstarted hempty rfl nofun

/-- What the fate of the lines depends on. -/
structure View where
  taken : List Marked
  front : List Marked
  calls : List (List UInt8)
  stopAt : Option ℕ
  beforeSwap : Bool

def view (s : Logging) : View :=
  ⟨s.log.thread.taken, s.log.front, s.calls, s.stopAt, s.log.thread.beforeSwap⟩

/-- What a step does to it, and when the step is fine. -/
inductive Move (v : View) : Prop → View → Prop
  | append (line : List UInt8) (fits : Prop) [Decidable fits] (hfull : ¬ fits → line ≠ []) :
    Move v (v.stopAt = none → fits) { v with
      front := v.front ++ if fits then mark v.calls.length line else []
      calls := v.calls ++ [line] }
  | stop (hnone : v.stopAt = none) :
    Move v (v.beforeSwap = true ∨ v.front = []) { v with stopAt := some v.calls.length }
  | keep (before : Bool) (hleave : v.beforeSwap = true → before = true)
    (henter : before = true → v.beforeSwap = true ∨ v.stopAt = none) :
    Move v True { v with beforeSwap := before }
  | swap (hbefore : v.beforeSwap = true) (before : Bool) : Move v True { v with
      taken := v.taken ++ v.front
      front := []
      beforeSwap := before }

theorem Move.moveTo {thread' : Backend Marked} (hthread : s.log.thread = thread)
    (htaken : thread'.taken = thread.taken)
    (hleave : thread.beforeSwap = true → thread'.beforeSwap = true)
    (henter : thread'.beforeSwap = true → thread.beforeSwap = true ∨ s.stopAt = none) :
    Move s.view True (s.moveTo thread').view := by
  subst hthread
  have hview : (s.moveTo thread').view = { s.view with beforeSwap := thread'.beforeSwap } := by
    simp only [view, Logging.moveTo, htaken]
    rfl
  rw [hview]
  exact .keep _ hleave henter

theorem Sound.move_swap (h : Sound s) (hthread : s.log.thread = thread)
    (hbefore : thread.beforeSwap = true)
    (htaken : thread.taken = output.contents) {newBuffer1 newBuffer2 : LargeBuffer Marked}
    (h₁ : newBuffer1.data = []) (h₂ : newBuffer2.data = []) :
    Move s.view True (view { s with log := s.log.swap output newBuffer1 newBuffer2 }) := by
  subst hthread
  obtain ⟨-, -, hfront, b, hthread⟩ := h.ready.swap output h₁ h₂
  have hview : view { s with log := s.log.swap output newBuffer1 newBuffer2 } = { s.view with
      taken := s.view.taken ++ s.view.front
      front := []
      beforeSwap := false } := by
    rw [view, hthread, hfront, Backend.taken, AsyncLogging.bytes_pushed, ← htaken]
    rfl
  rw [hview]
  exact .swap hbefore _

theorem move_of_step (h : Sound s) (hfew : Few s a) (hs : step s a s') :
    Move s.view (Fine s a) s'.view := by
  cases a with
  | append line =>
    obtain ⟨hline, rfl⟩ := hs
    have hlen := mark_length s.calls.length line
    obtain ⟨-, hthread, -, hfront⟩ := h.ready.append (hlen.trans_lt hline)
    rw [hlen, ← ite_not] at hfront
    have hroom := h.ready.room
    change Move s.view _ ⟨(s.log.append _).thread.taken, (s.log.append _).front, _, _, _⟩
    rw [hthread, hfront]
    refine .append line _ fun hexact => ?_
    rw [ne_eq, not_not] at hexact
    exact ne_nil_of_length_pos (hexact ▸ hroom)
  | start now =>
    obtain ⟨hidle, output, houtput, rfl⟩ := hs
    refine .moveTo hidle ?_ nofun nofun
    exact LogFile.contents_create houtput
  | stop =>
    obtain ⟨-, hnone, rfl⟩ := hs
    exact .stop hnone
  | test =>
    obtain ⟨output, b₁, b₂, hloop, hs⟩ := hs
    split at hs
    next hrunning =>
      obtain ⟨-, -, rfl⟩ := hs
      have hnone := (h.running (h.of_thread hloop).2).mp hrunning
      exact .moveTo hloop rfl nofun fun _ => .inr hnone
    · subst hs
      exact .moveTo hloop output.contents_flush nofun nofun
  | lock =>
    obtain ⟨output, b₁, b₂, hlocking, rfl⟩ := hs
    obtain ⟨h₁, h₂⟩ := (h.of_thread hlocking).1
    unfold AsyncLogging.lock
    split
    · exact .moveTo hlocking rfl (fun _ => rfl) fun _ => .inl rfl
    · exact h.move_swap hlocking rfl rfl h₁ h₂
  | wake =>
    obtain ⟨output, b₁, b₂, hwaiting, rfl⟩ := hs
    obtain ⟨h₁, h₂⟩ := (h.of_thread hwaiting).1
    exact h.move_swap hwaiting rfl rfl h₁ h₂
  | limit buf now rollTime =>
    obtain ⟨output, b₂, bs, hswapped, -, rfl⟩ := hs
    have hlen := hfew output b₂ bs hswapped
    rw [AsyncLogging.limit, if_neg (Nat.not_lt.mpr hlen)]
    exact .moveTo hswapped rfl nofun nofun
  | write now rollTime =>
    obtain ⟨output, b₂, bs, b, rest, hwriting, rfl⟩ := hs
    refine .moveTo hwriting ?_ nofun nofun
    rw [Backend.taken, Backend.taken, LogFile.contents_append, append_assoc]
    rfl
  | recycle =>
    obtain ⟨output, b₂, bs, r, hwriting, -, rfl⟩ := hs
    refine .moveTo hwriting ?_ nofun nofun
    rw [Backend.taken, Backend.taken, LogFile.contents_flush]
    exact (append_nil _).symm

theorem call_lt (h : c ∈ marked calls) : c.2 ≠ some calls.length := by
  obtain ⟨k, line, hk, hcall, -⟩ := mem_marked.mp h
  have hlt := (List.getElem?_eq_some_iff.mp hk).1
  rw [hcall]
  exact fun heq => absurd (Option.some.inj heq) hlt.ne

theorem mem_appended {line : List UInt8} {fits : Prop} [Decidable fits]
    (h : c ∈ if fits then mark call line else []) : c ∈ mark call line ∧ c.2 = some call := by
  split at h
  · obtain ⟨x, -, rfl⟩ := mem_map.mp h
    exact ⟨h, rfl⟩
  · cases h

namespace View

variable {v v' : View} {F : Prop}

/-- Every character comes from a line, and a line is not split between the back end and the
front. -/
structure Apart (v : View) : Prop where
  origin : ∀ c ∈ v.taken ++ v.front, c ∈ marked v.calls
  apart : ∀ c ∈ v.taken, ∀ d ∈ v.front, c.2 ≠ d.2

theorem Apart.move (h : Apart v) (hm : Move v F v') : Apart v' := by
  cases hm with
  | append line fits =>
    refine ⟨fun c hc => ?_, fun c hc d hd => ?_⟩
    · rw [marked_append]
      rw [← append_assoc] at hc
      rcases mem_append.mp hc with hold | hnew
      · exact mem_append_left _ (h.origin c hold)
      · exact mem_append_right _ (mem_appended hnew).1
    · rcases mem_append.mp hd with hold | hnew
      · exact h.apart c hc d hold
      · rw [(mem_appended hnew).2]
        exact call_lt (h.origin c (mem_append_left _ hc))
  | stop | keep => exact ⟨h.origin, h.apart⟩
  | swap => exact ⟨by simpa using h.origin, nofun⟩

/-- No line appended before `stop` has been lost so far, nor will be by the end. -/
def Kept (v : View) : Prop :=
  match v.stopAt with
  | none => v.taken ++ v.front = marked v.calls
  | some n => n ≤ v.calls.length ∧
    (v.taken ++ v.front).filter (earlier n) = marked (v.calls.take n) ∧
    (v.beforeSwap = false → v.front.filter (earlier n) = [])

theorem filter_earlier_appended {fits : Prop} [Decidable fits] (h : n ≤ call)
    (line : List UInt8) : (if fits then mark call line else []).filter (earlier n) = [] := by
  split
  · exact filter_earlier_mark h line
  · rfl

theorem Kept.move (h : Kept v) (hfine : F) (hm : Move v F v') : Kept v' := by
  obtain ⟨taken, front, calls, stopAt, before⟩ := v
  cases hm with
  | append line fits =>
    cases stopAt with
    | none =>
      change taken ++ (front ++ if fits then _ else _) = marked (calls ++ [line])
      rw [if_pos (hfine rfl), ← append_assoc, marked_append]
      exact congrArg (· ++ _) h
    | some n =>
      obtain ⟨hle, hkept, hfree⟩ := h
      refine ⟨hle.trans (by simp), ?_, fun hbefore => ?_⟩
      · rw [← append_assoc, filter_append, hkept, filter_earlier_appended hle, append_nil,
          take_append_of_le_length hle]
      · rw [filter_append, hfree hbefore, filter_earlier_appended hle]
        rfl
  | stop hnone =>
    cases hnone
    have hall : taken ++ front = marked calls := h
    refine ⟨le_refl _, ?_, fun hbefore => ?_⟩
    · rw [take_length, hall, filter_earlier_marked]
    · rcases hfine with hearly | hempty
      · cases hbefore.symm.trans hearly
      · rw [hempty]
        rfl
  | keep before' hleave =>
    cases stopAt with
    | none => exact h
    | some n =>
      obtain ⟨hle, hkept, hfree⟩ := h
      refine ⟨hle, hkept, fun hbefore => hfree (Bool.eq_false_iff.mpr fun hearly => ?_)⟩
      cases hbefore.symm.trans (hleave hearly)
  | swap =>
    cases stopAt with
    | none => exact (append_nil _).trans h
    | some n => exact ⟨h.1, by rw [append_nil]; exact h.2.1, fun _ => rfl⟩

/-- The line of the call `k` was appended before `stop`, and the file will never hold it. -/
structure Lost (v : View) (k : ℕ) : Prop where
  line : ∃ line, v.calls[k]? = some line ∧ line ≠ []
  early : ∀ n, v.stopAt = some n → k < n
  taken : ∀ c ∈ v.taken, c.2 ≠ some k
  front : (∀ c ∈ v.front, c.2 ≠ some k) ∨ v.stopAt ≠ none ∧ v.beforeSwap = false

variable {k : ℕ}

theorem Lost.lt (h : Lost v k) : k < v.calls.length := by
  obtain ⟨line, hline, -⟩ := h.line
  exact (List.getElem?_eq_some_iff.mp hline).1

theorem Lost.move (h : Lost v k) (hm : Move v F v') : Lost v' k := by
  cases hm with
  | append line fits =>
    refine ⟨?_, h.early, h.taken, h.front.imp_left fun hfree c hc => ?_⟩
    · rw [getElem?_append_left h.lt]
      exact h.line
    · rcases mem_append.mp hc with hold | hnew
      · exact hfree c hold
      · rw [(mem_appended hnew).2]
        exact fun heq => absurd (Option.some.inj heq) h.lt.ne'
  | stop hnone =>
    refine ⟨h.line, fun n hn => Option.some.inj hn ▸ h.lt, h.taken, .inl ?_⟩
    exact h.front.resolve_right fun hstopped => hstopped.1 hnone
  | keep before hleave henter =>
    refine ⟨h.line, h.early, h.taken, h.front.imp_right fun ⟨hstopped, hbefore⟩ => ?_⟩
    refine ⟨hstopped, Bool.eq_false_iff.mpr fun hearly => ?_⟩
    exact (henter hearly).elim (Bool.eq_false_iff.mp hbefore) hstopped
  | swap hbefore =>
    have hfree : ∀ c ∈ v.front, c.2 ≠ some k :=
      h.front.resolve_right fun hlate => Bool.eq_false_iff.mp hlate.2 hbefore
    refine ⟨h.line, h.early, fun c hc => ?_, .inl nofun⟩
    exact (mem_append.mp hc).elim (h.taken c) (hfree c)

theorem Apart.lost (h : Apart v) (hm : Move v F v') (hnot : ¬ F) : ∃ k, Lost v' k := by
  cases hm with
  | append line fits hfull =>
    obtain ⟨hnone, hexact⟩ := Classical.not_imp.mp hnot
    have hfresh := fun c hc => call_lt (h.origin c hc)
    refine ⟨v.calls.length, ⟨line, List.getElem?_concat_length, hfull hexact⟩, fun n hn => ?_,
      fun c hc => hfresh c (mem_append_left _ hc), .inl fun c hc => ?_⟩
    · cases hnone.symm.trans hn
    · rw [if_neg hexact, append_nil] at hc
      exact hfresh c (mem_append_right _ hc)
  | stop hnone =>
    obtain ⟨hlate, hfull⟩ := not_or.mp hnot
    obtain ⟨d, hd⟩ := exists_mem_of_ne_nil _ hfull
    obtain ⟨k, line, hk, hcall, hx⟩ := mem_marked.mp (h.origin d (mem_append_right _ hd))
    refine ⟨k, ⟨line, hk, ne_nil_of_mem hx⟩, fun n hn => ?_, fun c hc => ?_, .inr ⟨nofun, ?_⟩⟩
    · exact Option.some.inj hn ▸ (List.getElem?_eq_some_iff.mp hk).1
    · rw [← hcall]
      exact h.apart c hc d hd
    · exact Bool.eq_false_iff.mpr hlate
  | keep | swap => exact absurd trivial hnot

end View

open View

theorem Sound.written_eq (h : Sound s) (hended : s.log.thread.hasEnded = true) :
    s.log.thread.written = s.log.thread.taken ∧ s.log.thread.beforeSwap = false := by
  have hready := h.ready.thread
  cases hthread : s.log.thread with
  | ended output =>
    rw [hthread] at hready
    refine ⟨?_, rfl⟩
    rw [Backend.written, Backend.taken, LogFile.contents,
      (show output.file.buffer = [] from hready), append_nil]
  | _ =>
    rw [hthread] at hended
    cases hended

theorem allWritten_of_kept (hsound : Sound s) (hended : s.log.thread.hasEnded = true)
    (h : Kept s.view) : AllWritten s := by
  intro n hn
  obtain ⟨hwritten, hlate⟩ := hsound.written_eq hended
  rw [Kept, view, hn] at h
  obtain ⟨-, hkept, hfree⟩ := h
  rw [filter_append, hfree hlate, append_nil] at hkept
  rw [hwritten, hkept]

theorem not_allWritten_of_lost (hsound : Sound s)
    (hended : s.log.thread.hasEnded = true) (h : Lost s.view k) : ¬ AllWritten s := by
  intro hall
  obtain ⟨n, hn⟩ := Option.ne_none_iff_exists'.mp (hsound.ended hended)
  obtain ⟨line, hline, hne⟩ := h.line
  obtain ⟨x, hx⟩ := exists_mem_of_ne_nil _ hne
  have hmem : (x, some k) ∈ marked (s.calls.take n) := by
    refine mem_marked.mpr ⟨k, line, ?_, rfl, hx⟩
    exact (getElem?_take_of_lt (h.early n hn)).trans hline
  rw [← hall n hn, (hsound.written_eq hended).1] at hmem
  exact h.taken _ (mem_of_mem_filter hmem) rfl

/-- Along a run either nothing is lost, and all steps were fine, or a line is lost for good. -/
theorem kept_or_lost {tr : List (Logging × Act)} (h : Trace initial step tr s)
    (hfew : ∀ p ∈ tr, Few p.1 p.2) : Sound s ∧ Apart s.view ∧
      ((∀ p ∈ tr, Fine p.1 p.2) ∧ Kept s.view ∨
        (¬ ∀ p ∈ tr, Fine p.1 p.2) ∧ ∃ k, Lost s.view k) := by
  induction h with
  | start hinit =>
    refine ⟨sound_of_initial hinit, ?_⟩
    obtain ⟨rollSize, rfl⟩ := hinit
    exact ⟨⟨nofun, nofun⟩, .inl ⟨fun p hp => (by cases hp), rfl⟩⟩
  | @next tr s s' a _ hs ih =>
    obtain ⟨hnow, hrest⟩ := forall_mem_cons.mp hfew
    obtain ⟨hsound, hapart, hso⟩ := ih hrest
    have hm := move_of_step hsound hnow hs
    refine ⟨sound_step hsound hs, hapart.move hm, ?_⟩
    rw [forall_mem_cons]
    rcases hso with ⟨hfine, hkept⟩ | ⟨hnot, k, hlost⟩
    · by_cases hf : Fine s a
      · exact .inl ⟨⟨hf, hfine⟩, hkept.move hf hm⟩
      · exact .inr ⟨fun hall => hf hall.1, hapart.lost hm hf⟩
    · exact .inr ⟨fun hall => hnot hall.2, k, hlost.move hm⟩

/-- A run in which the back end never finds more than 25 buffers ends with all lines appended
before `stop` in the file, once and in order, exactly when all its steps are fine. -/
theorem all_written_iff_fine {tr : List (Logging × Act)} (h : Trace initial step tr s)
    (hfew : ∀ p ∈ tr, Few p.1 p.2) (hended : s.log.thread.hasEnded = true) :
    AllWritten s ↔ ∀ p ∈ tr, Fine p.1 p.2 := by
  obtain ⟨hsound, -, ⟨hfine, hkept⟩ | ⟨hnot, k, hlost⟩⟩ := kept_or_lost h hfew
  · exact iff_of_true (allWritten_of_kept hsound hended hkept) hfine
  · exact iff_of_false (not_allWritten_of_lost hsound hended hlost) hnot

section

def BackendStep (s s' : Logging) : Prop :=
  ∃ a, step s a s' ∧ (∀ line, a ≠ .append line) ∧ (∀ now, a ≠ .start now) ∧ a ≠ .stop

def CanEnd (s : Logging) : Prop :=
  ∃ t, Relation.ReflTransGen BackendStep s t ∧ t.log.thread.hasEnded = true

/-- Every run of the back end alone comes to the end of the thread. -/
inductive MustEnd : Logging → Prop
  | intro {s : Logging} (goesOn : s.log.thread.hasEnded = true ∨ ∃ s', BackendStep s s')
      (next : ∀ s', BackendStep s s' → MustEnd s') : MustEnd s

theorem MustEnd.canEnd (h : MustEnd s) : CanEnd s := by
  induction h with
  | intro goesOn _ ih =>
    rcases goesOn with hended | ⟨s', hs⟩
    · exact ⟨_, .refl, hended⟩
    · obtain ⟨t, hst, hended⟩ := ih s' hs
      exact ⟨t, hst.head hs, hended⟩

/-- A bound for the steps to the end when `running_` is false. -/
def remaining (s : Logging) : ℕ :=
  match s.log.thread with
  | .notStarted | .ended _ => 0
  | .atLoop _ _ _ => 1
  | .writing _ _ _ rest => rest.length + 2
  | .swapped _ _ buffersToWrite => buffersToWrite.length + 3
  | .waiting _ _ _ => s.log.buffers.length + 5
  | .locking _ _ _ => s.log.buffers.length + 6

theorem remaining_swap (s : Logging) (output : LogFile Marked) (b₁ b₂ : LargeBuffer Marked) :
    remaining { s with log := s.log.swap output b₁ b₂ } = s.log.buffers.length + 4 := by
  unfold AsyncLogging.swap
  split <;> simp [remaining]

theorem not_running (h : Sound s) (hstop : s.stopAt ≠ none)
    {b₁ b₂ : LargeBuffer Marked} (hthread : s.log.thread = .atLoop output b₁ b₂) :
    ¬ s.log.running = true := by
  rw [h.running (h.of_thread hthread).2]
  exact hstop

theorem BackendStep.spec (h : Sound s) (hstop : s.stopAt ≠ none) (hs : BackendStep s s') :
    Sound s' ∧ s'.stopAt ≠ none ∧ s'.remaining < s.remaining := by
  obtain ⟨a, hstep, happend, hstart, hnot⟩ := hs
  refine ⟨sound_step h hstep, ?_⟩
  cases a with
  | append line => exact absurd rfl (happend line)
  | start now => exact absurd rfl (hstart now)
  | stop => exact absurd rfl hnot
  | test =>
    obtain ⟨output, b₁, b₂, hthread, hs⟩ := hstep
    rw [if_neg (not_running h hstop hthread)] at hs
    subst hs
    exact ⟨hstop, by simp [remaining, moveTo, hthread]⟩
  | lock =>
    obtain ⟨output, b₁, b₂, hthread, rfl⟩ := hstep
    refine ⟨hstop, ?_⟩
    rw [AsyncLogging.lock]
    split
    · simp [remaining, hthread]
    · rw [remaining_swap]
      simp [remaining, hthread]
  | wake =>
    obtain ⟨output, b₁, b₂, hthread, rfl⟩ := hstep
    refine ⟨hstop, ?_⟩
    rw [remaining_swap]
    simp [remaining, hthread]
  | limit buf now rollTime =>
    obtain ⟨output, b₂, bs, hthread, -, rfl⟩ := hstep
    refine ⟨hstop, ?_⟩
    rw [AsyncLogging.limit]
    split <;> simp [remaining, moveTo, hthread]
  | write now rollTime =>
    obtain ⟨output, b₂, bs, b, rest, hthread, rfl⟩ := hstep
    exact ⟨hstop, by simp [remaining, moveTo, hthread]⟩
  | recycle =>
    obtain ⟨output, b₂, bs, r, hthread, -, rfl⟩ := hstep
    exact ⟨hstop, by simp [remaining, moveTo, hthread]⟩

/-- No assertion fails: the back end goes on until it has ended. -/
theorem backend_goesOn (h : Sound s) (hstop : s.stopAt ≠ none) :
    s.log.thread.hasEnded = true ∨ ∃ s', BackendStep s s' := by
  cases hthread : s.log.thread with
  | notStarted => exact absurd (h.idle (h.of_thread hthread).2) hstop
  | atLoop output b₁ b₂ =>
    have hs : step s .test (s.moveTo (.ended output.flush)) :=
      ⟨output, b₁, b₂, hthread, by rw [if_neg (not_running h hstop hthread)]⟩
    exact .inr ⟨_, .test, hs, by simp⟩
  | locking output b₁ b₂ => exact .inr ⟨_, .lock, ⟨_, _, _, hthread, rfl⟩, by simp⟩
  | waiting output b₁ b₂ => exact .inr ⟨_, .wake, ⟨_, _, _, hthread, rfl⟩, by simp⟩
  | swapped output b₂ bs =>
    have hready := (h.of_thread hthread).1
    exact .inr ⟨_, .limit [] 0 0, ⟨_, _, _, hthread, hready.2.1, rfl⟩, by simp⟩
  | writing output b₂ bs rest =>
    cases rest with
    | nil =>
      have hready := (h.of_thread hthread).1
      obtain ⟨r, hr, -⟩ := AsyncLogging.recycle_spec hready.1 hready.2.1 hready.2.2
      exact .inr ⟨_, .recycle, ⟨_, _, _, r, hthread, hr, rfl⟩, by simp⟩
    | cons b rest => exact .inr ⟨_, .write 0 0, ⟨_, _, _, _, _, hthread, rfl⟩, by simp⟩
  | ended output => exact .inl rfl

theorem mustEnd_of_sound (n : ℕ) :
    ∀ {s : Logging}, Sound s → s.stopAt ≠ none → s.remaining < n → MustEnd s := by
  induction n with
  | zero =>
    intro s _ _ hn
    omega
  | succ n ih =>
    intro s h hstop hn
    refine ⟨backend_goesOn h hstop, fun s' hs => ?_⟩
    obtain ⟨hsound, hstop', hlt⟩ := hs.spec h hstop
    exact ih hsound hstop' (by omega)

/-- After `stop` the back end can come to its end by its own steps, and every run of it does: no
assertion fails and `join` returns. -/
theorem ends_after_stop (hr : Reachable initial step (fun _ _ => True) s)
    (hstop : s.stopAt ≠ none) : CanEnd s ∧ MustEnd s := by
  have h : Sound s := hr.invariant (fun _ => sound_of_initial) fun _ _ _ h _ hs => sound_step h hs
  have hmust := mustEnd_of_sound _ h hstop (Nat.lt_succ_self _)
  exact ⟨hmust.canEnd, hmust⟩

theorem ends_after_stop_started : ∃ s, Reachable initial step (fun _ _ => True) s ∧
    s.stopAt = some 0 ∧ s.log.thread.hasEnded = false ∧ CanEnd s ∧ MustEnd s := by
  have h : Reachable initial step (fun _ _ => True) ⟨.create 0, [], none⟩ := .start ⟨0, rfl⟩
  have h := h.andThen (show step _ (.start 1) _ from ⟨rfl, _, rfl, rfl⟩)
  have h := h.andThen (show step _ .stop _ from ⟨nofun, rfl, rfl⟩)
  exact ⟨_, h, rfl, rfl, ends_after_stop h (by simp)⟩

end

def oneLine : AsyncLogging Marked := (AsyncLogging.create 0).append (mark 0 [97])

theorem oneLine_written {C : Logging → Act → Prop} (hC : ∀ s a, Few s a → Fine s a → C s a)
    (h : Reachable initial step C ⟨oneLine, calls, none⟩) :
    ∃ s, Reachable initial step C s ∧ s.log.thread.hasEnded = true ∧ s.calls = calls ∧
      s.stopAt = some calls.length ∧ s.log.thread.written = [(97, some 0)] := by
  have h := h.andThen (show step _ (.start 1) _ from ⟨rfl, _, rfl, rfl⟩) (hC _ _ trivial trivial)
  have h := h.andThen (show step _ .test _ from ⟨_, _, _, rfl, rfl, rfl, rfl⟩)
    (hC _ _ trivial trivial)
  have h := h.andThen (show step _ .stop _ from ⟨nofun, rfl, rfl⟩)
    (hC _ _ trivial (.inl rfl))
  have h := h.andThen (show step _ .lock _ from ⟨_, _, _, rfl, rfl⟩) (hC _ _ trivial trivial)
  have h := h.andThen (show step _ .wake _ from ⟨_, _, _, rfl, rfl⟩) (hC _ _ trivial trivial)
  have h := h.andThen
    (show step _ (.limit [] 1 1) _ from ⟨_, _, _, rfl, cons_ne_nil _ _, rfl⟩)
    (hC _ _ (by rintro _ _ _ ⟨⟩; exact (by decide : 1 ≤ 25)) trivial)
  have h := h.andThen (show step _ (.write 1 1) _ from ⟨_, _, _, _, _, rfl, rfl⟩)
    (hC _ _ trivial trivial)
  have h := h.andThen (show step _ .recycle _ from ⟨_, _, _, _, rfl, rfl, rfl⟩)
    (hC _ _ trivial trivial)
  have h := h.andThen (show step _ .test _ from ⟨_, _, _, rfl, rfl⟩) (hC _ _ trivial trivial)
  exact ⟨_, h, rfl, rfl, rfl, rfl⟩

theorem step_oneLine : step ⟨.create 0, [], none⟩ (.append [97]) ⟨oneLine, [[97]], none⟩ :=
  ⟨by decide, rfl⟩

theorem all_written_iff_fine_one_line :
    ∃ tr s, Trace initial step tr s ∧ s.log.thread.hasEnded = true ∧ s.calls = [[97]] ∧
      s.stopAt = some 1 ∧ AllWritten s := by
  have h : Reachable initial step (fun s a => Few s a ∧ Fine s a) ⟨.create 0, [], none⟩ :=
    .start ⟨0, rfl⟩
  have hfine : Fine ⟨.create 0, [], none⟩ (.append [97]) := fun _ => by decide
  obtain ⟨s, hr, hended, hcalls, hstop, -⟩ :=
    oneLine_written (fun _ _ => And.intro) (h.andThen step_oneLine ⟨trivial, hfine⟩)
  obtain ⟨tr, htr, hall⟩ := hr.trace
  exact ⟨tr, s, htr, hended, hcalls, hstop,
    (all_written_iff_fine htr (fun p hp => (hall p hp).1) hended).mpr fun p hp => (hall p hp).2⟩

/-- A line that fills the current buffer exactly is not in the file, and neither is a line that is
in front when `stop` is called while the back end is at the test of its loop. -/
theorem lines_lost :
    (∃ tr s, Trace initial step tr s ∧ (∀ p ∈ tr, Few p.1 p.2) ∧ s.log.thread.hasEnded = true ∧
      s.calls = [[97], replicate (kLargeBuffer - 1) 98] ∧ s.stopAt = some 2 ∧
      s.log.thread.written = [(97, some 0)] ∧ ¬ AllWritten s) ∧
    ∃ tr s, Trace initial step tr s ∧ (∀ p ∈ tr, Few p.1 p.2) ∧ s.log.thread.hasEnded = true ∧
      s.calls = [[97]] ∧ s.stopAt = some 1 ∧ s.log.thread.written = [] ∧ ¬ AllWritten s := by
  have h : Reachable initial step Few ⟨.create 0, [], none⟩ := .start ⟨0, rfl⟩
  have h := h.andThen step_oneLine
  constructor
  · have hlen : (mark 1 (replicate (kLargeBuffer - 1) 98)).length = kLargeBuffer - 1 := by
      rw [mark_length, length_replicate]
    have hexact : oneLine.append (mark 1 (replicate (kLargeBuffer - 1) 98)) = oneLine := by
      rw [AsyncLogging.append, if_pos (hlen.trans_le (by decide)),
        append_full (by rw [hlen]; decide)]
    have hlost : step ⟨oneLine, [[97]], none⟩ (.append (replicate (kLargeBuffer - 1) 98))
        ⟨oneLine, [[97], replicate (kLargeBuffer - 1) 98], none⟩ := by
      refine ⟨?_, ?_⟩
      · rw [length_replicate]
        decide
      · exact congrArg (fun l => Logging.mk l _ none) hexact.symm
    obtain ⟨s, hr, hended, hcalls, hstop, hwritten⟩ :=
      oneLine_written (fun _ _ hfew _ => hfew) (h.andThen hlost trivial)
    obtain ⟨tr, htr, hall⟩ := hr.trace
    refine ⟨tr, s, htr, hall, hended, hcalls, hstop, hwritten, fun hwrote => ?_⟩
    have hmem : (98, some 1) ∈ marked (s.calls.take 2) := by
      rw [hcalls]
      exact mem_marked.mpr ⟨1, _, rfl, rfl, mem_replicate.mpr ⟨by decide, rfl⟩⟩
    rw [← hwrote 2 hstop, hwritten] at hmem
    cases mem_singleton.mp (mem_of_mem_filter hmem)
  · have h := h.andThen (show step _ (.start 1) _ from ⟨rfl, _, rfl, rfl⟩)
    have h := h.andThen (show step _ .stop _ from ⟨nofun, rfl, rfl⟩)
      trivial
    have h := h.andThen (show step _ .test _ from ⟨_, _, _, rfl, rfl⟩)
    obtain ⟨tr, htr, hall⟩ := h.trace
    refine ⟨tr, _, htr, hall, rfl, rfl, rfl, rfl, fun hwrote => ?_⟩
    cases hwrote 1 rfl

end Logging
end JKYi.Net
