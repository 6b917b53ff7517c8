import JKYi.Foundation.Simulation
import JKYi.ByteArray.IoVec

/-!
# `ByteArray` as one flat byte array with a cursor

The flat array has no blocks: writing overwrites or extends it at the cursor,
reading returns the bytes at the cursor. A byte that is only there because the
cursor was set beyond the end has never been written and is unspecified, `none`.
Every run of a block list of any base size simulates the flat array.
-/

namespace JKYi

open List

/-- A byte array with a cursor inside it. -/
structure FlatArray where
  bytes : List (Option UInt8)
  pos : ℕ
  pos_le : pos ≤ bytes.length

namespace FlatArray

def empty : FlatArray := ⟨[], 0, le_rfl⟩

def write (buf : List UInt8) (f : FlatArray) : FlatArray where
  bytes := splice f.bytes f.pos (buf.map some)
  pos := f.pos + buf.length
  pos_le := by
    rw [length_splice f.pos_le, length_map]
    exact le_max_right _ _

/-- Read up to `len` bytes. -/
def read (len : ℕ) (f : FlatArray) : List (Option UInt8) × FlatArray :=
  ((f.bytes.drop f.pos).take len, ⟨f.bytes, min (f.pos + len) f.bytes.length, min_le_right _ _⟩)

def setPosition (v : ℕ) (f : FlatArray) : FlatArray where
  bytes := f.bytes ++ List.replicate (v - f.bytes.length) none
  pos := v
  pos_le := by
    rw [length_append, length_replicate]
    omega

def unread (f : FlatArray) : List (Option UInt8) := f.bytes.drop f.pos

end FlatArray

namespace ByteArray

/-- The calls that act on the stored bytes. -/
inductive Op where
  | write (buf : List UInt8)
  | read (len : ℕ)
  | setPosition (v : ℕ)
  | clear
  | getWriteBuffers (len : ℕ)
  | toString

/-- One call on the block list, with the bytes it hands back. -/
def step : Op → Run Exn ByteArray (List UInt8)
  | .write buf => do write buf; pure []
  | .read len => read len
  | .setPosition v => do setPosition v; pure []
  | .clear => fun ba => .ok [] ba.clear
  | .getWriteBuffers len => do let _ ← getWriteBuffers [] len; pure []
  | .toString => toString

def flatStep : Op → FlatArray → List (Option UInt8) × FlatArray
  | .write buf, f => ([], f.write buf)
  | .read len, f => f.read len
  | .setPosition v, f => ([], f.setPosition v)
  | .clear, _ => ([], FlatArray.empty)
  | .getWriteBuffers _, f => ([], f)
  | .toString, f => (f.unread, f)

/-- What a caller has to respect; sizes stay below `2 ^ 53`. -/
def Pre : Op → ByteArray → Prop
  | .write buf, ba => ba.position + buf.length < 2 ^ 53
  | .read len, ba => 1 ≤ len ∧ len ≤ ba.getReadSize
  | .setPosition v, ba => v ≤ ba.capacity
  | .clear, _ => True
  | .getWriteBuffers len, ba => ba.position + len < 2 ^ 53
  | .toString, _ => True

/-- Equal wherever the second list specifies a byte. -/
def Agrees (out : List UInt8) (spec : List (Option UInt8)) : Prop :=
  List.Forall₂ (fun b o => ∀ c, o = some c → b = c) out spec

structure Represents (b : ℕ) (ba : ByteArray) (f : FlatArray) : Prop where
  wf : ba.Wf
  baseSize_eq : ba.baseSize = b
  pos_eq : f.pos = ba.position
  agrees : Agrees ba.contents f.bytes

theorem agrees_map_some (buf : List UInt8) : Agrees buf (buf.map some) := by
  induction buf with
  | nil => exact .nil
  | cons x xs ih => exact .cons (fun c hc => Option.some.inj hc) ih

theorem agrees_replicate_none (out : List UInt8) :
    Agrees out (List.replicate out.length none) := by
  induction out with
  | nil => exact .nil
  | cons x xs ih => exact .cons (fun c hc => by simp at hc) ih

theorem Agrees.splice {l d : List UInt8} {m e : List (Option UInt8)} (hl : Agrees l m)
    (hd : Agrees d e) (i : ℕ) : Agrees (splice l i d) (splice m i e) := by
  unfold JKYi.splice
  rw [← hd.length_eq]
  exact rel_append (rel_append (forall₂_take i hl) hd) (forall₂_drop _ hl)

section

variable {b : ℕ} {ba : ByteArray} {f : FlatArray}

theorem Represents.length_eq (h : Represents b ba f) : f.bytes.length = ba.size := by
  rw [← length_contents h.wf]
  exact h.agrees.length_eq.symm

theorem Represents.agrees_unread (h : Represents b ba f) : Agrees ba.unread f.unread := by
  rw [unread, FlatArray.unread, h.pos_eq]
  exact forall₂_drop _ h.agrees

theorem represents_create (hb : 0 < b) (heap : ℕ → UInt8) :
    Represents b (create b heap) FlatArray.empty :=
  ⟨create_wf hb heap, rfl, rfl, by simp [contents, create, FlatArray.empty, Agrees]⟩

theorem represents_write (h : Represents b ba f) {buf : List UInt8} {ba' : ByteArray}
    (hw : Written ba buf ba') : Represents b ba' (f.write buf) := by
  refine ⟨hw.wf, hw.baseSize_eq.trans h.baseSize_eq, ?_, ?_⟩
  · change f.pos + buf.length = ba'.position
    rw [h.pos_eq, hw.position_eq]
  · rw [hw.contents_eq, ← h.pos_eq]
    exact h.agrees.splice (agrees_map_some buf) f.pos

theorem represents_read (h : Represents b ba f) {len : ℕ} (hlen : len ≤ ba.getReadSize) :
    Represents b (ba.advance len) (f.read len).2 := by
  refine ⟨advance_wf h.wf hlen, h.baseSize_eq, ?_, h.agrees⟩
  change min (f.pos + len) f.bytes.length = ba.position + len
  rw [h.length_eq, h.pos_eq, min_eq_left (h.wf.position_add_le hlen)]

theorem represents_setPosition (h : Represents b ba f) {v : ℕ} {ba' : ByteArray}
    (hp : Positioned ba v ba') : Represents b ba' (f.setPosition v) := by
  refine ⟨hp.wf, hp.baseSize_eq.trans h.baseSize_eq, hp.position_eq.symm, ?_⟩
  have hlen := length_contents hp.wf
  have hold : ba'.contents.take ba.size = ba.contents := by
    rw [contents, hp.memory_eq, hp.size_eq, take_take, min_eq_left (le_max_left _ _)]
    rfl
  have hrest : (ba'.contents.drop ba.size).length = v - f.bytes.length := by
    rw [length_drop, hlen, hp.size_eq, h.length_eq]
    omega
  rw [← take_append_drop ba.size ba'.contents, hold]
  change Agrees _ (f.bytes ++ List.replicate (v - f.bytes.length) none)
  rw [← hrest]
  exact rel_append h.agrees (agrees_replicate_none _)

theorem represents_grown (h : Represents b ba f) {g : ByteArray} (hg : Grown ba g) :
    Represents b g f :=
  ⟨hg.wf, hg.baseSize_eq.trans h.baseSize_eq, h.pos_eq.trans hg.position_eq.symm,
    by rw [hg.contents_eq h.wf]; exact h.agrees⟩

theorem step_simulates (op : Op) (h : Represents b ba f) (hpre : Pre op ba) :
    ∃ out ba', step op ba = .ok out ba' ∧ Represents b ba' (flatStep op f).2 ∧
      Agrees out (flatStep op f).1 := by
  cases op with
  | write buf =>
    have hlen : buf.length < 2 ^ 53 := by
      simp only [Pre] at hpre
      omega
    obtain ⟨ba', hw⟩ := write_total h.wf hlen
    exact ⟨[], ba', Run.bind_ok hw, represents_write h (write_ok h.wf hw), .nil⟩
  | read len =>
    refine ⟨_, _, read_pos h.wf hpre.1 hpre.2, represents_read h hpre.2, ?_⟩
    exact forall₂_take len h.agrees_unread
  | setPosition v =>
    obtain ⟨ba', hset, hp⟩ := setPosition_spec h.wf hpre
    exact ⟨[], ba', Run.bind_ok hset, represents_setPosition h hp, .nil⟩
  | clear =>
    refine ⟨[], ba.clear, rfl, ⟨clear_wf h.wf, h.baseSize_eq, rfl, ?_⟩, .nil⟩
    simp [contents, clear, flatStep, FlatArray.empty, Agrees]
  | getWriteBuffers len =>
    rcases Nat.eq_zero_or_pos len with rfl | h0
    · exact ⟨[], ba, rfl, h, .nil⟩
    · have hlen : len < 2 ^ 53 := by
        simp only [Pre] at hpre
        omega
      obtain ⟨g, iovs, hg, hgrown, -, -, -⟩ := getWriteBuffers_ok h.wf h0 hlen
      exact ⟨[], g, Run.bind_ok hg, represents_grown h hgrown, .nil⟩
  | toString => exact ⟨_, ba, toString_ok h.wf, h, h.agrees_unread⟩

end

/-- The cursor bookkeeping of a block list with base size `b`. -/
def CursorInv (b : ℕ) (ba : ByteArray) : Prop :=
  ba.position ≤ ba.size ∧ ba.size ≤ ba.capacity ∧ ba.capacity = b * ba.nodes.length ∧
    (ba.position ≠ ba.capacity → ba.cur = some (ba.position / b)) ∧
    (ba.cur = none ↔ ba.position = ba.capacity)

theorem Represents.cursorInv {b : ℕ} {ba : ByteArray} {f : FlatArray} (h : Represents b ba f) :
    CursorInv b ba := by
  obtain ⟨hwf, rfl, -, -⟩ := h
  have hpos := hwf.position_le
  have hsize := hwf.size_le
  refine ⟨hpos, hsize, hwf.capacity_eq, ?_, ?_⟩
  · intro hne
    rw [hwf.cur_eq, curAt_of_lt (by rw [← hwf.capacity_eq]; omega)]
  · rw [hwf.cur_eq, curAt, ← hwf.capacity_eq]
    constructor
    · intro hnone
      by_contra hne
      rw [if_pos (by omega)] at hnone
      simp at hnone
    · intro heq
      rw [if_neg (by omega)]

/-- Every run on a block list passes only states with a consistent cursor and
acts as on one flat array, which does not know the base size. -/
theorem run_refines_flatArray (b : ℕ) (hb : 1 ≤ b) (heap : ℕ → UInt8) (ops : List Op)
    (hpre : Run.Admissible step Pre ops (create b heap)) :
    CursorInv b (create b heap) ∧
    ∃ tr, Run.trace step ops (create b heap) = some tr ∧
      List.Forall₂ (fun x y => Agrees x.1 y.1 ∧ CursorInv b x.2 ∧ x.2.position = y.2.pos ∧
        x.2.size = y.2.bytes.length ∧ Agrees x.2.contents y.2.bytes)
        tr (machineTrace flatStep ops FlatArray.empty) := by
  have hstart := represents_create hb heap
  obtain ⟨tr, htr, hall⟩ := Run.trace_simulates (Represents b) Agrees
    (fun op _ _ h hop => step_simulates op h hop) ops _ _ hstart hpre
  refine ⟨hstart.cursorInv, tr, htr, hall.imp ?_⟩
  rintro x y ⟨hout, hrep⟩
  exact ⟨hout, hrep.cursorInv, hrep.pos_eq.symm, hrep.length_eq.symm, hrep.agrees⟩

/-- Three bytes over two nodes, read back from the start. -/
theorem run_refines_flatArray_three : CursorInv 2 (create 2 fun _ => 0) ∧
    ∃ tr, Run.trace step [.write [1, 2, 3], .setPosition 0, .read 3] (create 2 fun _ => 0) =
        some tr ∧
      List.Forall₂ (fun x y => Agrees x.1 y.1 ∧ CursorInv 2 x.2 ∧ x.2.position = y.2.pos ∧
        x.2.size = y.2.bytes.length ∧ Agrees x.2.contents y.2.bytes)
        tr (machineTrace flatStep [.write [1, 2, 3], .setPosition 0, .read 3] FlatArray.empty) := by
  apply run_refines_flatArray 2 (by simp)
  refine ⟨by simp [Pre, create], fun _ ba hwrite => ⟨Nat.zero_le _, fun _ ba' hset =>
    ⟨⟨by norm_num, ?_⟩, fun _ _ _ => trivial⟩⟩⟩
  have hwf := create_wf (b := 2) (by simp) fun _ => 0
  obtain ⟨_, _, hw, hret⟩ := Run.bind_eq_ok_iff.mp hwrite
  cases hret
  have hwritten := write_ok hwf hw
  obtain ⟨ba'', hset', hp⟩ := setPosition_spec hwritten.wf (Nat.zero_le _)
  have heq : ba'' = ba' := by
    have := (Run.bind_ok hset').symm.trans hset
    cases this
    rfl
  rw [← heq, getReadSize, hp.position_eq, hp.size_eq, hwritten.size_eq hwf]
  simp [create]

end ByteArray
end JKYi
