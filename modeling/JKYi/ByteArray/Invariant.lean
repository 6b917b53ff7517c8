import JKYi.ByteArray.Basic

/-!
# The invariant of `ByteArray` and the walk along its chain

`Wf` ties the two cursors together: `m_cur` is the node that holds
`m_position`, and null exactly when the position is the capacity. `walk_rule`
is the one induction over the chain; every operation that copies bytes uses it
with its own loop body.
-/

namespace JKYi.ByteArray

open Nat List

def curAt (b n p : ℕ) : Option ℕ := if p < b * n then some (p / b) else none

/-- The invariant of a `ByteArray` whose base size is positive. -/
structure Wf (ba : ByteArray) : Prop where
  base_pos : 0 < ba.baseSize
  node_size : ∀ n ∈ ba.nodes, n.size = ba.baseSize
  nodes_pos : 0 < ba.nodes.length
  capacity_eq : ba.capacity = ba.baseSize * ba.nodes.length
  position_le : ba.position ≤ ba.size
  size_le : ba.size ≤ ba.capacity
  cur_eq : ba.cur = curAt ba.baseSize ba.nodes.length ba.position

def memory (ba : ByteArray) : List UInt8 := (ba.nodes.map Node.ptr).flatten

def contents (ba : ByteArray) : List UInt8 := ba.memory.take ba.size

def unread (ba : ByteArray) : List UInt8 := ba.contents.drop ba.position

variable {b i len : ℕ} {nodes rest : List Node} {n : Node}

theorem curAt_of_lt {n p : ℕ} (h : p < b * n) : curAt b n p = some (p / b) := if_pos h

theorem curAt_of_le {n p : ℕ} (h : b * n ≤ p) : curAt b n p = none := if_neg (by omega)

theorem curAt_add {n o : ℕ} (hi : i < n) (ho : o < b) : curAt b n (b * i + o) = some i := by
  have hle := mul_le_mul_left b hi
  rw [mul_succ] at hle
  rw [curAt_of_lt (by omega), mul_add_div (by omega), div_eq_of_lt ho, add_zero]

theorem nextNode_eq (hb : 0 < b) (hrest : rest = nodes.drop (i + 1)) :
    nextNode rest i = curAt b nodes.length (b * (i + 1)) := by
  have hlen : rest.length = nodes.length - (i + 1) := by rw [hrest, length_drop]
  cases rest with
  | nil =>
    have hle : nodes.length ≤ i + 1 := by
      simp only [length_nil] at hlen
      omega
    rw [curAt_of_le (mul_le_mul_left b hle)]
    rfl
  | cons n rest =>
    have hlt : i + 1 < nodes.length := by
      simp only [length_cons] at hlen
      omega
    exact (curAt_add (o := 0) hlt hb).symm

theorem chain_cons (hn : ∀ n ∈ nodes, n.size = b) (hchain : n :: rest = nodes.drop i) :
    n.size = b ∧ rest = nodes.drop (i + 1) ∧ i < nodes.length := by
  refine ⟨hn n (mem_of_mem_drop (i := i) (by rw [← hchain]; simp)), ?_, ?_⟩
  · rw [← tail_drop, ← hchain, tail_cons]
  · have := congrArg List.length hchain
    simp only [length_cons, length_drop] at this
    omega

/-! The walk along the chain. -/

variable {σ : Type} {visit : ℕ → ℕ → ℕ → σ → σ} {npos : ℕ} {s : σ}

@[simp] theorem walk_zero (n : Node) (rest : List Node) (i npos : ℕ) (s : σ) :
    walk visit (n :: rest) i npos 0 s = some (some i, s) := rfl

theorem walk_fits (h0 : len ≠ 0) (h : len ≤ n.size - npos) :
    walk visit (n :: rest) i npos len s =
      some (if n.size = npos + len then nextNode rest i else some i, visit i npos len s) := by
  simp only [walk, if_neg h0, if_pos h]

theorem walk_more (h : n.size - npos < len) : walk visit (n :: rest) i npos len s =
      walk visit rest (i + 1) 0 (len - (n.size - npos)) (visit i npos (n.size - npos) s) := by
  simp only [walk, if_neg (show len ≠ 0 by omega), if_neg (not_le.mpr h)]

/-- `P` is kept by every piece of a walk over `len` bytes from `start` on; `done` counts the bytes
walked. -/
def PieceKeeps (b count start len : ℕ) (visit : ℕ → ℕ → ℕ → σ → σ) (P : ℕ → σ → Prop) : Prop :=
  ∀ i npos k done s, i < count → npos + k ≤ b → b * i + npos = start + done → done + k ≤ len →
    P done s → P (done + k) (visit i npos k s)

/-- What holds before the walk and is kept by every piece holds behind it, and
the walk ends in the node of its end position. -/
theorem walk_rule (hn : ∀ n ∈ nodes, n.size = b) {start : ℕ}
    (hlen : start + len ≤ b * nodes.length) (P : ℕ → σ → Prop)
    (hstep : PieceKeeps b nodes.length start len visit P) :
    ∀ (chain : List Node) (i npos rem done : ℕ) (s : σ), chain = nodes.drop i → chain ≠ [] →
      npos < b → b * i + npos = start + done → done + rem = len → P done s →
      ∃ s', walk visit chain i npos rem s = some (curAt b nodes.length (start + len), s') ∧
        P len s' := by
  intro chain
  induction chain with
  | nil =>
    intro i npos rem done s hchain hne
    exact absurd rfl hne
  | cons n rest ih =>
    intro i npos rem done s hchain _ hnpos hpos hrem hP
    obtain ⟨hnb, hrest, hi⟩ := chain_cons hn hchain
    rcases Nat.eq_zero_or_pos rem with rfl | hrem0
    · refine ⟨s, ?_, by rwa [← hrem]⟩
      rw [walk_zero, ← hrem, Nat.add_zero, ← hpos, curAt_add hi hnpos]
    by_cases hfit : rem ≤ n.size - npos
    · refine ⟨_, walk_fits hrem0.ne' hfit ▸ ?_, hrem ▸
        hstep i npos rem done s hi (by omega) hpos (by omega) hP⟩
      congr 2
      have hend : start + len = b * i + (npos + rem) := by omega
      rw [hend, hnb]
      split_ifs with hfull
      · rw [← hfull, ← Nat.mul_succ]
        exact nextNode_eq (by omega) hrest
      · rw [curAt_add hi (by omega)]
    · have hmore := not_le.mp hfit
      have hnext : b * (i + 1) + 0 = start + (done + (n.size - npos)) := by
        rw [Nat.mul_succ]
        omega
      have hroom := Nat.lt_of_mul_lt_mul_left (show b * (i + 1) < b * nodes.length by omega)
      rw [walk_more hmore]
      refine ih (i + 1) 0 _ (done + (n.size - npos)) _ hrest ?_ (by omega) hnext (by omega)
        (hstep i npos _ done s hi (by omega) hpos (by omega) hP)
      rw [hrest]
      simpa using hroom

theorem walk_eq_none (hn : ∀ n ∈ nodes, n.size = b) :
    ∀ (chain : List Node) (i npos rem : ℕ) (s : σ), chain = nodes.drop i → npos < b →
      b * nodes.length < b * i + npos + rem → walk visit chain i npos rem s = none := by
  intro chain
  induction chain with
  | nil =>
    intro i npos rem s _ _ _
    rfl
  | cons n rest ih =>
    intro i npos rem s hchain hnpos hover
    obtain ⟨hnb, hrest, hi⟩ := chain_cons hn hchain
    have hle := mul_le_mul_left b hi
    rw [mul_succ] at hle
    rw [walk_more (by omega)]
    refine ih (i + 1) 0 _ _ hrest (by omega) ?_
    rw [mul_succ]
    omega

variable {ba : ByteArray}

theorem length_of_mem_ptr (hn : ∀ n ∈ nodes, n.size = b) :
    ∀ x ∈ nodes.map Node.ptr, x.length = b := by
  intro x hx
  obtain ⟨n, hmem, rfl⟩ := mem_map.mp hx
  exact hn n hmem

theorem length_flatten_nodes (hn : ∀ n ∈ nodes, n.size = b) :
    (nodes.map Node.ptr).flatten.length = b * nodes.length := by
  rw [length_flatten_blocks (length_of_mem_ptr hn), length_map]

theorem length_memory (h : ba.Wf) : ba.memory.length = ba.capacity := by
  rw [memory, length_flatten_nodes h.node_size, h.capacity_eq]

theorem length_contents (h : ba.Wf) : ba.contents.length = ba.size := by
  rw [contents, length_take, length_memory h, min_eq_left h.size_le]

theorem Wf.position_le_length (h : ba.Wf) : ba.position ≤ ba.contents.length := by
  rw [length_contents h]
  exact h.position_le

theorem Wf.position_add_le (h : ba.Wf) {k : ℕ} (hk : k ≤ ba.getReadSize) :
    ba.position + k ≤ ba.size := by
  have hpos := h.position_le
  unfold getReadSize at hk
  omega

theorem length_unread (h : ba.Wf) : ba.unread.length = ba.getReadSize := by
  rw [unread, length_drop, length_contents h, getReadSize]

theorem walkFrom_rule (h : ba.Wf) (hlen : ba.position + len ≤ ba.capacity)
    (hcur : ba.position < ba.capacity) (P : ℕ → σ → Prop) (h0 : P 0 s)
    (hstep : PieceKeeps ba.baseSize ba.nodes.length ba.position len visit P) :
    ∃ s', ba.walkFrom ba.position visit len s =
      some (curAt ba.baseSize ba.nodes.length (ba.position + len), s') ∧ P len s' := by
  have hb := h.base_pos
  rw [h.capacity_eq] at hlen hcur
  have hcur' : ba.cur = some (ba.position / ba.baseSize) := by rw [h.cur_eq, curAt_of_lt hcur]
  have hi := Nat.div_lt_of_lt_mul hcur
  simp only [walkFrom, if_neg hb.ne', hcur']
  refine walk_rule h.node_size hlen P hstep _ _ _ _ 0 s rfl ?_ (Nat.mod_lt _ hb)
    (Nat.div_add_mod _ _) (Nat.zero_add _) h0
  simpa using hi

theorem walkFrom_eq_none (h : ba.Wf) (hover : ba.capacity < ba.position + len) :
    ba.walkFrom ba.position visit len s = none := by
  have hb := h.base_pos
  rw [walkFrom, if_neg hb.ne']
  cases hcur : ba.cur with
  | none => rfl
  | some i =>
    have hi : i = ba.position / ba.baseSize := by
      rw [h.cur_eq] at hcur
      unfold curAt at hcur
      split_ifs at hcur
      simpa using hcur.symm
    subst hi
    refine walk_eq_none h.node_size _ _ _ _ _ rfl (mod_lt _ hb) ?_
    rw [div_add_mod, ← h.capacity_eq]
    exact hover

theorem walkFrom_null (h : ba.Wf) (hend : ba.position = ba.capacity) :
    ba.walkFrom ba.position visit len s = none := by
  have hcur : ba.cur = none := by
    rw [h.cur_eq, curAt_of_le (by rw [← h.capacity_eq]; exact hend.ge)]
  simp [walkFrom, hcur]

end JKYi.ByteArray
