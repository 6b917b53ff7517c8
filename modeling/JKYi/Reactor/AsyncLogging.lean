import JKYi.Foundation.Interleaving

/-!
# The asynchronous logger

`AsyncLogging`: threads append lines to a buffer under a lock, and a thread of its own takes the
buffers over and writes them to a file. The characters are of any type, since the code only moves
them.
-/

namespace JKYi.Net

structure FixedBuffer (SIZE : ℕ) (α : Type) where
  data : List α
  fits : data.length ≤ SIZE

namespace FixedBuffer

variable {SIZE : ℕ} {α : Type}

def empty : FixedBuffer SIZE α := ⟨[], Nat.zero_le _⟩

def length (b : FixedBuffer SIZE α) : ℕ := b.data.length

def avail (b : FixedBuffer SIZE α) : ℕ := SIZE - b.length

def append (b : FixedBuffer SIZE α) (buf : List α) : FixedBuffer SIZE α :=
  if h : b.avail > buf.length then
    ⟨b.data ++ buf, by rw [avail, length] at h; rw [List.length_append]; omega⟩
  else b

def reset (_ : FixedBuffer SIZE α) : FixedBuffer SIZE α := empty

end FixedBuffer

structure AppendFile (α : Type) where
  written : List α
  buffer : List α
  writtenBytes : ℕ

namespace AppendFile

variable {α : Type}

def empty : AppendFile α := ⟨[], [], 0⟩

/-- Writing to the stream does not fail. -/
def append (f : AppendFile α) (logline : List α) : AppendFile α :=
  { f with buffer := f.buffer ++ logline, writtenBytes := f.writtenBytes + logline.length }

def flush (f : AppendFile α) : AppendFile α :=
  { f with written := f.written ++ f.buffer, buffer := [] }

end AppendFile

structure LogFile (α : Type) where
  rollSize : ℤ
  count : ℕ
  startOfPeriod : ℤ
  lastRoll : ℤ
  lastFlush : ℤ
  closed : List (List α)
  file : AppendFile α

namespace LogFile

variable {α : Type}

def kRollPerSeconds : ℤ := 60 * 60 * 24

def flushInterval : ℤ := 3

def checkEveryN : ℕ := 1024

def period (now : ℤ) : ℤ := now.tdiv kRollPerSeconds * kRollPerSeconds

def rollFile (f : LogFile α) (now : ℤ) : LogFile α :=
  if now > f.lastRoll then
    { f with
      lastRoll := now
      lastFlush := now
      startOfPeriod := period now
      closed := f.closed ++ [f.file.flush.written]
      file := .empty }
  else f

/-- The constructor; `none` if the first `rollFile` does not open a file. -/
def create (rollSize now : ℤ) : Option (LogFile α) :=
  if now > 0 then some ⟨rollSize, 0, period now, now, now, [], .empty⟩ else none

def flush (f : LogFile α) : LogFile α := { f with file := f.file.flush }

/-- `append_unlocked`; `now` and `rollTime` are the times that it and `rollFile` read. -/
def append (f : LogFile α) (logline : List α) (now rollTime : ℤ) : LogFile α :=
  let f := { f with file := f.file.append logline }
  if (f.file.writtenBytes : ℤ) > f.rollSize then f.rollFile rollTime
  else
    let f := { f with count := f.count + 1 }
    if f.count ≥ checkEveryN then
      let f := { f with count := 0 }
      if period now ≠ f.startOfPeriod then f.rollFile rollTime
      else if now - f.lastFlush > flushInterval then { f with lastFlush := now }.flush
      else f
    else f

def written (f : LogFile α) : List α := f.closed.flatten ++ f.file.written

def contents (f : LogFile α) : List α := f.written ++ f.file.buffer

end LogFile

def kLargeBuffer : ℕ := 4000 * 1000

abbrev LargeBuffer := FixedBuffer kLargeBuffer

inductive Backend (α : Type) where
  | notStarted
  /-- Before the test of `running_`. -/
  | atLoop (output : LogFile α) (newBuffer1 newBuffer2 : LargeBuffer α)
  /-- In the loop, without the lock. -/
  | locking (output : LogFile α) (newBuffer1 newBuffer2 : LargeBuffer α)
  /-- In `waitForSeconds`. -/
  | waiting (output : LogFile α) (newBuffer1 newBuffer2 : LargeBuffer α)
  /-- The lock has been released; `newBuffer1` has been moved. -/
  | swapped (output : LogFile α) (newBuffer2 : Option (LargeBuffer α))
    (buffersToWrite : List (LargeBuffer α))
  /-- The buffers in `rest` have still to be written. -/
  | writing (output : LogFile α) (newBuffer2 : Option (LargeBuffer α))
    (buffersToWrite rest : List (LargeBuffer α))
  | ended (output : LogFile α)

structure AsyncLogging (α : Type) where
  rollSize : ℤ
  running : Bool
  currentBuffer : LargeBuffer α
  nextBuffer : Option (LargeBuffer α)
  buffers : List (LargeBuffer α)
  thread : Backend α

namespace AsyncLogging

variable {α : Type} (l : AsyncLogging α)

def create (rollSize : ℤ) : AsyncLogging α :=
  ⟨rollSize, false, .empty, some .empty, [], .notStarted⟩

def append (logline : List α) : AsyncLogging α :=
  if l.currentBuffer.avail ≥ logline.length then
    { l with currentBuffer := l.currentBuffer.append logline }
  else
    match l.nextBuffer with
    | some next =>
      { l with
        buffers := l.buffers ++ [l.currentBuffer]
        nextBuffer := none
        currentBuffer := next.append logline }
    | none =>
      { l with
        buffers := l.buffers ++ [l.currentBuffer]
        currentBuffer := FixedBuffer.empty.append logline }

/-- What the thread does with the lock held, after the wait. -/
def swap (output : LogFile α) (newBuffer1 newBuffer2 : LargeBuffer α) : AsyncLogging α :=
  let buffersToWrite := l.buffers ++ [l.currentBuffer]
  match l.nextBuffer with
  | some _ =>
    { l with
      buffers := []
      currentBuffer := newBuffer1
      thread := .swapped output (some newBuffer2) buffersToWrite }
  | none =>
    { l with
      buffers := []
      currentBuffer := newBuffer1
      nextBuffer := some newBuffer2
      thread := .swapped output none buffersToWrite }

def lock (output : LogFile α) (newBuffer1 newBuffer2 : LargeBuffer α) : AsyncLogging α :=
  if l.buffers.isEmpty then { l with thread := .waiting output newBuffer1 newBuffer2 }
  else l.swap output newBuffer1 newBuffer2

/-- The buffers to write; of more than 25 all but two are dropped, with the message `buf`. -/
def limit (output : LogFile α) (newBuffer2 : Option (LargeBuffer α))
    (buffersToWrite : List (LargeBuffer α)) (buf : List α) (now rollTime : ℤ) : Backend α :=
  if buffersToWrite.length > 25 then
    .writing (output.append buf now rollTime) newBuffer2 (buffersToWrite.take 2)
      (buffersToWrite.take 2)
  else .writing output newBuffer2 buffersToWrite buffersToWrite

/-- `newBuffer1` and `newBuffer2` for the next round; `none` is a failed assertion. -/
def recycle (newBuffer2 : Option (LargeBuffer α)) (buffersToWrite : List (LargeBuffer α)) :
    Option (LargeBuffer α × LargeBuffer α) := do
  let buffersToWrite := buffersToWrite.take 2
  let newBuffer1 ← buffersToWrite.getLast?
  let buffersToWrite := buffersToWrite.dropLast
  match newBuffer2 with
  | some newBuffer2 => pure (newBuffer1.reset, newBuffer2)
  | none =>
    let newBuffer2 ← buffersToWrite.getLast?
    pure (newBuffer1.reset, newBuffer2.reset)

/-- `start` returns when the thread has passed its assertion. -/
def start (output : LogFile α) : AsyncLogging α :=
  { l with running := true, thread := .atLoop output .empty .empty }

/-- `stop`; that it wakes the thread up is not needed, since the wait ends by itself. -/
def stop : AsyncLogging α := { l with running := false }

end AsyncLogging

/-- A character of a line with the number of the call of `append` it was passed to; the logger's
own messages have no number. -/
abbrev Marked := UInt8 × Option ℕ

def mark (call : ℕ) (line : List UInt8) : List Marked := line.map fun c => (c, some call)

/-- All threads: `calls` are the lines appended so far, in the order in which the calls had the
lock, and `stopAt` is how many they were when `stop` was called. -/
structure Logging where
  log : AsyncLogging Marked
  calls : List (List UInt8)
  stopAt : Option ℕ

namespace Logging

inductive Act where
  | append (line : List UInt8)
  | start (now : ℤ)
  | stop
  | test
  | lock
  | wake
  | limit (buf : List UInt8) (now rollTime : ℤ)
  | write (now rollTime : ℤ)
  | recycle

def moveTo (s : Logging) (thread : Backend Marked) : Logging :=
  { s with log := { s.log with thread := thread } }

def step (s : Logging) : Act → Logging → Prop
  | .append line, s' => line.length < kLargeBuffer ∧
    s' = { s with log := s.log.append (mark s.calls.length line), calls := s.calls ++ [line] }
  | .start now, s' => s.log.thread = .notStarted ∧ ∃ output,
    LogFile.create s.log.rollSize now = some output ∧ s' = { s with log := s.log.start output }
  | .stop, s' => s.log.thread ≠ .notStarted ∧ s.stopAt = none ∧
    s' = { s with log := s.log.stop, stopAt := some s.calls.length }
  | .test, s' => ∃ output newBuffer1 newBuffer2,
    s.log.thread = .atLoop output newBuffer1 newBuffer2 ∧
      if s.log.running then newBuffer1.length = 0 ∧ newBuffer2.length = 0 ∧
        s' = s.moveTo (.locking output newBuffer1 newBuffer2)
      else s' = s.moveTo (.ended output.flush)
  | .lock, s' => ∃ output newBuffer1 newBuffer2,
    s.log.thread = .locking output newBuffer1 newBuffer2 ∧
      s' = { s with log := s.log.lock output newBuffer1 newBuffer2 }
  | .wake, s' => ∃ output newBuffer1 newBuffer2,
    s.log.thread = .waiting output newBuffer1 newBuffer2 ∧
      s' = { s with log := s.log.swap output newBuffer1 newBuffer2 }
  | .limit buf now rollTime, s' => ∃ output newBuffer2 buffersToWrite,
    s.log.thread = .swapped output newBuffer2 buffersToWrite ∧ buffersToWrite ≠ [] ∧
      s' = s.moveTo (AsyncLogging.limit output newBuffer2 buffersToWrite
        (buf.map fun c => (c, none)) now rollTime)
  | .write now rollTime, s' => ∃ output newBuffer2 buffersToWrite buffer rest,
    s.log.thread = .writing output newBuffer2 buffersToWrite (buffer :: rest) ∧
      s' = s.moveTo (.writing (output.append buffer.data now rollTime) newBuffer2
        buffersToWrite rest)
  | .recycle, s' => ∃ output newBuffer2 buffersToWrite r,
    s.log.thread = .writing output newBuffer2 buffersToWrite [] ∧
      AsyncLogging.recycle newBuffer2 buffersToWrite = some r ∧
      s' = s.moveTo (.atLoop output.flush r.1 r.2)

def initial (s : Logging) : Prop := ∃ rollSize, s = ⟨.create rollSize, [], none⟩

end Logging
end JKYi.Net
