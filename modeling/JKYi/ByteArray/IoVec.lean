import JKYi.ByteArray.Operations

/-!
# The buffers handed to the socket

`getReadBuffers` and `getWriteBuffers` cut the bytes behind the cursor into one
`iovec` per node. The list is consecutive: filling or draining it in order is
writing or reading the memory from the cursor on.
-/

namespace JKYi.ByteArray

open List

/-- The buffers lie one behind the other from position `p` on, each inside one of
`n` nodes of `b` bytes. -/
def Consecutive (b n : ℕ) : ℕ → List IoVec → Prop
  | _, [] => True
  | p, v :: vs =>
    v.node < n ∧ v.base + v.len ≤ b ∧ b * v.node + v.base = p ∧ Consecutive b n (p + v.len) vs

def totalLen (iovs : List IoVec) : ℕ := (iovs.map IoVec.len).sum

@[simp] theorem totalLen_nil : totalLen [] = 0 := rfl

@[simp] theorem totalLen_cons (v : IoVec) (vs : List IoVec) :
    totalLen (v :: vs) = v.len + totalLen vs := by
  simp [totalLen]

variable {b p : ℕ}

theorem consecutive_push {n : ℕ} {vs : List IoVec} {v : IoVec} (h : Consecutive b n p vs)
    (hnode : v.node < n) (hlen : v.base + v.len ≤ b)
    (hat : b * v.node + v.base = p + totalLen vs) :
    Consecutive b n p (vs ++ [v]) ∧ totalLen (vs ++ [v]) = totalLen vs + v.len := by
  induction vs generalizing p with
  | nil => exact ⟨⟨hnode, hlen, by simpa using hat, trivial⟩, by simp⟩
  | cons w ws ih =>
    obtain ⟨h1, h2, h3, h4⟩ := h
    rw [totalLen_cons, ← Nat.add_assoc] at hat
    obtain ⟨hcons, htotal⟩ := ih h4 hat
    refine ⟨⟨h1, h2, h3, hcons⟩, ?_⟩
    rw [cons_append, totalLen_cons, htotal, totalLen_cons]
    omega

def scatter : List IoVec → List UInt8 → List Node → List Node
  | [], _, nodes => nodes
  | v :: vs, d, nodes =>
    scatter vs (d.drop v.len) (nodes.modify v.node (fun n => n.memcpy v.base (d.take v.len)))

def gather (iovs : List IoVec) (nodes : List Node) : List UInt8 :=
  iovs.flatMap fun v => peek nodes v.node v.base v.len

theorem length_scatter (iovs : List IoVec) (d : List UInt8) (nodes : List Node) :
    (scatter iovs d nodes).length = nodes.length := by
  induction iovs generalizing d nodes with
  | nil => rfl
  | cons v vs ih => rw [scatter, ih, length_modify]

variable {iovs : List IoVec} {nodes : List Node}

theorem scatter_consecutive {d : List UInt8}
    (h : Consecutive b nodes.length p iovs) (hn : ∀ n ∈ nodes, n.size = b)
    (hd : d.length ≤ totalLen iovs) (hp : p ≤ b * nodes.length) :
    (∀ n ∈ scatter iovs d nodes, n.size = b) ∧
      ((scatter iovs d nodes).map Node.ptr).flatten = splice (nodes.map Node.ptr).flatten p d := by
  induction iovs generalizing p d nodes with
  | nil =>
    obtain rfl : d = [] := length_eq_zero_iff.mp (by simpa using hd)
    exact ⟨hn, by rw [splice_nil]; rfl⟩
  | cons v vs ih =>
    obtain ⟨hnode, hlen, hat, hrest⟩ := h
    have hfit : v.base + (d.take v.len).length ≤ b := by
      have : (d.take v.len).length ≤ v.len := by simp
      omega
    have hnext : p + v.len ≤ b * nodes.length := by
      have : b * (v.node + 1) ≤ b * nodes.length := Nat.mul_le_mul_left b hnode
      rw [Nat.mul_succ] at this
      omega
    have hleft : (d.drop v.len).length ≤ totalLen vs := by
      rw [totalLen_cons] at hd
      rw [length_drop]
      omega
    rw [← length_modify (fun n : Node => n.memcpy v.base (d.take v.len)) nodes v.node]
      at hrest hnext
    obtain ⟨hsize, hmem⟩ := ih hrest (size_modify hn hfit) hleft hnext
    refine ⟨hsize, ?_⟩
    rw [scatter, hmem, memory_modify hn hnode hfit, hat,
      splice_take_drop (by rw [length_flatten_nodes hn]; exact hp)]

theorem gather_consecutive
    (h : Consecutive b nodes.length p iovs) (hn : ∀ n ∈ nodes, n.size = b) :
    gather iovs nodes = ((nodes.map Node.ptr).flatten.drop p).take (totalLen iovs) := by
  induction iovs generalizing p with
  | nil => simp [gather]
  | cons v vs ih =>
    obtain ⟨hnode, hlen, hat, hrest⟩ := h
    have htail := ih hrest
    rw [gather] at htail ⊢
    rw [flatMap_cons, peek_eq hn hnode hlen hat, htail, totalLen_cons, take_add, drop_drop]

variable {ba : ByteArray}

variable {len : ℕ}

theorem walk_pushPiece (hn : ∀ n ∈ nodes, n.size = b)
    {i npos : ℕ} (hi : i < nodes.length)
    (hnpos : npos < b) (hlen : b * i + npos + len ≤ b * nodes.length) : ∃ cur iovs,
    walk pushPiece (nodes.drop i) i npos len [] = some (cur, iovs) ∧
      Consecutive b nodes.length (b * i + npos) iovs ∧ totalLen iovs = len := by
  have hstep : ∀ j o k done s, j < nodes.length → o + k ≤ b →
      b * j + o = b * i + npos + done → done + k ≤ len →
      (Consecutive b nodes.length (b * i + npos) s ∧ totalLen s = done) →
      Consecutive b nodes.length (b * i + npos) (pushPiece j o k s) ∧
        totalLen (pushPiece j o k s) = done + k := by
    rintro j o k done s hj hk hat - ⟨hcons, rfl⟩
    exact consecutive_push hcons hj hk hat
  have hne : nodes.drop i ≠ [] := by simpa using hi
  obtain ⟨iovs, hwalk, hcons, htotal⟩ := walk_rule hn hlen
    (fun done s => Consecutive b nodes.length (b * i + npos) s ∧ totalLen s = done) hstep
    _ i npos len 0 [] rfl hne hnpos rfl (Nat.zero_add _) ⟨trivial, rfl⟩
  exact ⟨_, iovs, hwalk, hcons, htotal⟩

theorem walkFrom_pushPiece (h : ba.Wf) (hlen : ba.position + len ≤ ba.capacity)
    (hcur : ba.position < ba.capacity) : ∃ cur iovs,
    ba.walkFrom ba.position pushPiece len [] = some (cur, iovs) ∧
      Consecutive ba.baseSize ba.nodes.length ba.position iovs ∧ totalLen iovs = len := by
  have hb := h.base_pos
  have hdiv := Nat.div_add_mod ba.position ba.baseSize
  rw [h.capacity_eq] at hlen hcur
  obtain ⟨cur, iovs, hwalk, hcons, htotal⟩ := walk_pushPiece h.node_size
    (Nat.div_lt_of_lt_mul hcur) (Nat.mod_lt ba.position hb) (show _ + len ≤ _ by omega)
  rw [hdiv] at hcons
  refine ⟨cur, iovs, ?_, hcons, htotal⟩
  simp only [walkFrom, if_neg hb.ne', h.cur_eq, curAt_of_lt hcur, hwalk]

theorem getWriteBuffers_ok (h : ba.Wf) (h0 : 0 < len) (hlen : len < 2 ^ 53) :
    ∃ g iovs, getWriteBuffers [] len ba = .ok (len, iovs) g ∧ Grown ba g ∧
      g.position + len ≤ g.capacity ∧ Consecutive g.baseSize g.nodes.length g.position iovs ∧
      totalLen iovs = len ∧
      (g.capacity = ba.capacity ∨ g.capacity < ba.position + len + ba.baseSize) := by
  obtain ⟨g, hg, hroom, -, htight⟩ := addCapacity_spec h hlen
  have hgrown := addCapacity_grown h hg
  rw [← hgrown.position_eq] at hroom
  obtain ⟨cur, iovs, hwalk, hcons, htotal⟩ := walkFrom_pushPiece hgrown.wf hroom (by omega)
  refine ⟨g, iovs, ?_, hgrown, hroom, hcons, htotal, htight⟩
  simp only [getWriteBuffers, if_neg h0.ne', hg, hwalk]

theorem getReadBuffers_ok (h : ba.Wf) (h0 : 0 < len) (hlen : len ≤ ba.getReadSize) :
    ∃ iovs, getReadBuffers [] len ba = .ok (len, iovs) ba ∧
      Consecutive ba.baseSize ba.nodes.length ba.position iovs ∧ totalLen iovs = len := by
  have hread := h.position_add_le hlen
  have hend := hread.trans h.size_le
  obtain ⟨cur, iovs, hwalk, hcons, htotal⟩ := walkFrom_pushPiece h hend (by omega)
  refine ⟨iovs, ?_, hcons, htotal⟩
  simp only [getReadBuffers, if_neg (not_lt.mpr hlen), if_neg h0.ne', hwalk]

theorem fill_written {g : ByteArray} {d : List UInt8} (h : ba.Wf)
    (hg : Grown ba g) (hcons : Consecutive g.baseSize g.nodes.length g.position iovs)
    (hd : d.length ≤ totalLen iovs) (hroom : g.position + d.length ≤ g.capacity) :
    ∃ ba', setPosition (g.position + d.length) { g with nodes := scatter iovs d g.nodes } =
      .ok () ba' ∧ Written ba d ba' ∧ ba'.capacity = g.capacity := by
  have hwf := hg.wf
  have hple := hwf.position_le
  have hsle := hwf.size_le
  obtain ⟨hsize, hmem⟩ := scatter_consecutive hcons hwf.node_size hd
    (by rw [← hwf.capacity_eq]; omega)
  have hcount := length_scatter iovs d g.nodes
  have hfilled : Wf { g with nodes := scatter iovs d g.nodes } := by
    refine ⟨hwf.base_pos, hsize, ?_, ?_, hple, hsle, ?_⟩
    · exact hcount ▸ hwf.nodes_pos
    · exact hcount ▸ hwf.capacity_eq
    · exact hcount ▸ hwf.cur_eq
  obtain ⟨ba', hset, hp⟩ := setPosition_spec hfilled hroom
  refine ⟨ba', hset, ⟨hp.wf, ?_, ?_, hp.baseSize_eq.trans hg.baseSize_eq,
    hp.endian_eq.trans hg.endian_eq⟩, hp.capacity_eq⟩
  · rw [← hg.contents_eq h, ← hg.position_eq, contents, hp.memory_eq, hp.size_eq, contents, memory,
      hmem]
    exact take_max_splice hple
      (by rw [length_flatten_nodes hwf.node_size, ← hwf.capacity_eq]; exact hsle)
  · rw [hp.position_eq, hg.position_eq]

theorem gather_unread {k : ℕ} (h : ba.Wf)
    (hcons : Consecutive ba.baseSize ba.nodes.length ba.position iovs) (hk : k ≤ totalLen iovs)
    (hlen : totalLen iovs ≤ ba.getReadSize) :
    (gather iovs ba.nodes).take k = ba.unread.take k := by
  rw [gather_consecutive hcons h.node_size, take_take, min_eq_left hk]
  exact take_drop_memory h (hk.trans hlen)

end JKYi.ByteArray
