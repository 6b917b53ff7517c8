import JKYi.Foundation.Simulation
import JKYi.Reactor.Buffer

/-!
# The buffer as a deque of bytes

A program works on a family of buffers. Every request that respects its length
precondition does to them what it does to plain lists of bytes: room is made by
growing or by moving, and neither is seen from outside.
-/

namespace JKYi.Net.Buffer

open Function

/-- A request to the buffers of a program. `write` is `ensureWritableBytes(len)`, a store of `data`
at `beginWrite()` and `hasWritten`; the pointer of `retrieveUntil` is `len` bytes behind `peek()`;
`readFd` comes with what `readv` gives. -/
inductive Request (I : Type) where
  | append (i : I) (data : List UInt8)
  | prepend (i : I) (data : List UInt8)
  | retrieve (i : I) (len : ℕ)
  | retrieveUntil (i : I) (len : ℕ)
  | retrieveAsString (i : I) (len : ℕ)
  | write (i : I) (len : ℕ) (data : List UInt8)
  | unwrite (i : I) (len : ℕ)
  | shrink (i : I) (reserve : ℕ)
  | swap (i j : I)
  | readFd (i : I) (io : Except ℕ (List UInt8))

inductive Answer where
  | none
  | string (bytes : List UInt8)
  | count (n : ℤ) (savedErrno : Option ℕ)
  deriving DecidableEq

section

variable {I : Type} [DecidableEq I]

def onBuffer (i : I) (f : Buffer → Option (Answer × Buffer)) : Run Unit (I → Buffer) Answer :=
  fun s =>
    match f (s i) with
    | some (a, b) => .ok a (update s i b)
    | none => .crash

def onBufferVoid (i : I) (f : Buffer → Option Buffer) : Run Unit (I → Buffer) Answer :=
  onBuffer i fun b => (f b).map (Answer.none, ·)

def write (len : ℕ) (data : List UInt8) (b : Buffer) : Option Buffer := do
  let b ← b.ensureWritableBytes len
  let b ← b.copyTo b.writerIndex data
  b.hasWritten data.length

def serve : Request I → Run Unit (I → Buffer) Answer
  | .append i data => onBufferVoid i fun b => b.append data
  | .prepend i data => onBufferVoid i fun b => b.prepend data
  | .retrieve i len => onBufferVoid i fun b => b.retrieve len
  | .retrieveUntil i len => onBufferVoid i fun b => b.retrieveUntil (b.readerIndex + len)
  | .retrieveAsString i len => onBuffer i fun b =>
    (b.retrieveAsString len).map fun r => (Answer.string r.1, r.2)
  | .write i len data => onBufferVoid i fun b => b.write len data
  | .unwrite i len => onBufferVoid i fun b => b.unwrite len
  | .shrink i reserve => onBufferVoid i fun b => b.shrink reserve
  | .swap i j => fun s =>
    .ok Answer.none (update (update s i (s j)) j (s i))
  | .readFd i io => onBuffer i fun b => (b.readFd io).map fun r => (Answer.count r.1.1 r.1.2, r.2)

/-- The length preconditions; `readv` does not give more than it has room for. -/
def Allowed : Request I → (I → Buffer) → Prop
  | .prepend i data, s => data.length ≤ (s i).prependableBytes
  | .retrieve i len, s | .retrieveUntil i len, s | .retrieveAsString i len, s
  | .unwrite i len, s => len ≤ (s i).readableBytes
  | .write _ len data, _ => data.length ≤ len
  | .shrink i _, s => (s i).readableBytes < 2 ^ 31
  | .readFd i (.ok data), s => data.length ≤ (s i).readRoom
  | .append _ _, _ | .swap _ _, _ | .readFd _ (.error _), _ => True

def serveDeque : Request I → (I → List UInt8) → Answer × (I → List UInt8)
  | .append i data, t => (.none, update t i (t i ++ data))
  | .prepend i data, t => (.none, update t i (data ++ t i))
  | .retrieve i len, t | .retrieveUntil i len, t =>
    (.none, update t i ((t i).drop len))
  | .retrieveAsString i len, t =>
    (.string ((t i).take len), update t i ((t i).drop len))
  | .write i _ data, t => (.none, update t i (t i ++ data))
  | .unwrite i len, t => (.none, update t i ((t i).take ((t i).length - len)))
  | .shrink _ _, t => (.none, t)
  | .swap i j, t => (.none, update (update t i (t j)) j (t i))
  | .readFd _ (.error errno), t => (.count (-1) (some errno), t)
  | .readFd i (.ok data), t => (.count data.length none, update t i (t i ++ data))

end

/-- Each buffer is in order and holds the bytes of its deque. -/
def Holds {I : Type} (s : I → Buffer) (t : I → List UInt8) : Prop :=
  ∀ i, (s i).Wf ∧ (s i).contents = t i

variable {b : Buffer}

theorem write_spec (h : b.Wf) {len : ℕ} {data : List UInt8}
    (hlen : data.length ≤ len) :
    ∃ b', b.write len data = some b' ∧ Becomes b b' (b.contents ++ data) := by
  obtain ⟨b₁, h₁, hspec₁, hroom⟩ := ensureWritableBytes_spec h len
  obtain ⟨b₂, h₂, hspec₂⟩ := fill_spec hspec₁.wf (hlen.trans hroom)
  rw [hspec₁.contents_eq] at hspec₂
  refine ⟨b₂, ?_, hspec₁.trans hspec₂⟩
  rw [write, h₁, Option.bind_eq_bind, Option.bind_some]
  exact h₂

section

variable {I : Type} [DecidableEq I] {s : I → Buffer} {t : I → List UInt8}

variable {c : List UInt8}

theorem Holds.update {i : I} (h : Holds s t) (hwf : b.Wf)
    (hc : b.contents = c) : Holds (update s i b) (update t i c) := by
  intro j
  by_cases hj : j = i
  · rw [hj, update_self, update_self]
    exact ⟨hwf, hc⟩
  · rw [update_of_ne hj, update_of_ne hj]
    exact h j

theorem Holds.onBuffer (h : Holds s t) (i : I) (f : Buffer → Option (Answer × Buffer)) {a : Answer}
    (hf : f (s i) = some (a, b)) (hwf : b.Wf)
    (hc : b.contents = c) :
    ∃ a' s', onBuffer i f s = .ok a' s' ∧ Holds s' (Function.update t i c) ∧ a' = a := by
  refine ⟨a, Function.update s i b, ?_, h.update hwf hc, rfl⟩
  rw [Buffer.onBuffer, hf]

theorem Holds.onBufferVoid (h : Holds s t) (i : I) (f : Buffer → Option Buffer)
    (hf : f (s i) = some b) (hwf : b.Wf) (hc : b.contents = c) :
    ∃ a s', onBufferVoid i f s = .ok a s' ∧ Holds s' (Function.update t i c) ∧ a = .none := by
  refine h.onBuffer i _ ?_ hwf hc
  rw [hf]
  rfl

theorem serve_simulates (r : Request I) (s : I → Buffer) (t : I → List UInt8) (h : Holds s t)
    (hr : Allowed r s) :
    ∃ a s', serve r s = .ok a s' ∧ Holds s' (serveDeque r t).2 ∧ a = (serveDeque r t).1 := by
  cases r with
  | append i data =>
    obtain ⟨b, hb, hspec⟩ := append_spec (h i).1 data
    rw [(h i).2] at hspec
    exact h.onBufferVoid i _ hb hspec.wf hspec.contents_eq
  | prepend i data =>
    obtain ⟨b, hb, hwf, hcontents, -⟩ := prepend_spec (h i).1 hr
    rw [(h i).2] at hcontents
    exact h.onBufferVoid i (fun b => b.prepend data) hb hwf hcontents
  | retrieve i len =>
    obtain ⟨b, hb, hspec⟩ := retrieve_spec (h i).1 hr
    rw [(h i).2] at hspec
    exact h.onBufferVoid i _ hb hspec.wf hspec.contents_eq
  | retrieveUntil i len =>
    have hlast : (s i).readerIndex + len ≤ (s i).writerIndex := by
      have hle := (h i).1.reader_le
      have hlen : len ≤ (s i).writerIndex - (s i).readerIndex := hr
      omega
    obtain ⟨b, hb, hspec⟩ := retrieveUntil_spec (h i).1 (Nat.le_add_right _ _) hlast
    rw [(h i).2, Nat.add_sub_cancel_left] at hspec
    exact h.onBufferVoid i (fun b => b.retrieveUntil (b.readerIndex + len)) hb hspec.wf
      hspec.contents_eq
  | retrieveAsString i len =>
    obtain ⟨b, hb, hspec⟩ := retrieveAsString_spec (h i).1 hr
    rw [(h i).2] at hb hspec
    exact h.onBuffer i (fun b => (b.retrieveAsString len).map fun r => (Answer.string r.1, r.2))
      (by rw [hb]; rfl) hspec.wf hspec.contents_eq
  | write i len data =>
    obtain ⟨b, hb, hspec⟩ := write_spec (h i).1 hr
    rw [(h i).2] at hspec
    exact h.onBufferVoid i _ hb hspec.wf hspec.contents_eq
  | unwrite i len =>
    obtain ⟨b, hb, hspec⟩ := unwrite_spec (h i).1 hr
    rw [(h i).2] at hspec
    exact h.onBufferVoid i (fun b => b.unwrite len) hb hspec.wf hspec.contents_eq
  | shrink i reserve =>
    obtain ⟨b, hb, hwf, hcontents, -⟩ := shrink_spec (h i).1 reserve hr
    have hsame := h.onBufferVoid i (fun b => b.shrink reserve) hb hwf (hcontents.trans (h i).2)
    rw [update_eq_self] at hsame
    exact hsame
  | swap i j =>
    refine ⟨Answer.none, _, rfl, ?_, rfl⟩
    exact (h.update (h j).1 (h j).2).update (h i).1 (h i).2
  | readFd i io =>
    cases io with
    | error errno =>
      have hsame := h.onBuffer i (fun b => (b.readFd (.error errno)).map fun r =>
        (Answer.count r.1.1 r.1.2, r.2)) rfl (h i).1 (h i).2
      rw [update_eq_self] at hsame
      exact hsame
    | ok data =>
      obtain ⟨b, hb, hspec⟩ := readFd_spec (h i).1 data
      have hall := List.take_of_length_le hr
      rw [hall] at hb hspec
      rw [(h i).2] at hspec
      exact h.onBuffer i (fun b => (b.readFd (.ok data)).map fun r =>
        (Answer.count r.1.1 r.1.2, r.2)) (by rw [hb]; rfl) hspec.wf hspec.contents_eq

/-- Buffers of any initial sizes: no assertion fails in an allowed run, and in every state of it
the indices are in order and the buffers hold and have returned what the deques do. -/
theorem buffer_simulates_deque (size : I → ℕ) :
    ∃ s : I → Buffer, (∀ i, create (size i) = some (s i)) ∧
      ∀ rs : List (Request I), Run.Admissible serve Allowed rs s →
        ∃ tr, Run.trace serve rs s = some tr ∧
          List.Forall₂ (fun x y => x.1 = y.1 ∧ Holds x.2 y.2) tr
            (machineTrace serveDeque rs fun _ => []) := by
  choose s hs using fun i => create_spec (size i)
  refine ⟨s, fun i => (hs i).1, fun rs hrs => ?_⟩
  have hstart : Holds s fun _ => [] := fun i => ⟨(hs i).2.1, (hs i).2.2.1⟩
  exact Run.trace_simulates Holds Eq serve_simulates rs s _ hstart hrs

end

/-- Two buffers without initial room: the first grows, is prepended to, and is swapped with the
second. -/
theorem buffer_simulates_deque_run : ∃ s : Bool → Buffer, ∃ tr,
    Run.trace serve [.append false [1, 2, 3], .prepend false [9], .swap false true,
        .retrieveAsString true 2] s = some tr ∧
      List.Forall₂ (fun x y => x.1 = y.1 ∧ Holds x.2 y.2) tr
        (machineTrace serveDeque [.append false [1, 2, 3], .prepend false [9], .swap false true,
          .retrieveAsString true 2] fun _ => []) := by
  obtain ⟨s, hs, hrun⟩ := buffer_simulates_deque fun _ : Bool => 0
  have hnew : s = fun _ => ⟨List.replicate 8 0, 8, 8⟩ := by
    funext i
    exact (Option.some.inj (hs i)).symm
  refine ⟨s, hrun _ ?_⟩
  subst hnew
  refine ⟨trivial, fun a s₁ h₁ => ?_⟩
  cases h₁
  refine ⟨Nat.le_of_ble_eq_true rfl, fun a s₂ h₂ => ?_⟩
  cases h₂
  refine ⟨trivial, fun a s₃ h₃ => ?_⟩
  cases h₃
  exact ⟨Nat.le_of_ble_eq_true rfl, fun _ _ _ => trivial⟩

end JKYi.Net.Buffer
