import JKYi.ByteArray.Invariant

/-!
# What each operation of `ByteArray` does

Every operation is described by what it does to `contents`, the first `m_size`
bytes of the concatenated nodes, and keeps `Wf`. A `write` that returns has
this effect whatever its length; that it does return is known below `2 ^ 53`
bytes, where the node count computed in `double` is exact.
-/

namespace JKYi.ByteArray

open Nat List

variable {ba : ByteArray}

structure Grown (ba g : ByteArray) : Prop where
  wf : g.Wf
  baseSize_eq : g.baseSize = ba.baseSize
  position_eq : g.position = ba.position
  size_eq : g.size = ba.size
  endian_eq : g.endian = ba.endian
  memory_eq : ∃ fresh, g.memory = ba.memory ++ fresh

variable {g : ByteArray}

theorem Grown.contents_eq (h : ba.Wf) (hg : Grown ba g) :
    g.contents = ba.contents := by
  obtain ⟨fresh, hfresh⟩ := hg.memory_eq
  rw [contents, contents, hfresh, hg.size_eq, take_append_of_le_length]
  rw [length_memory h]
  exact h.size_le

theorem addNodes_eq (count : ℕ) (ba : ByteArray) : ∃ fresh heap,
    ba.addNodes count = { ba with
      nodes := ba.nodes ++ fresh
      heap := heap
      capacity := ba.capacity + ba.baseSize * count } ∧
    fresh.length = count ∧ ∀ n ∈ fresh, n.size = ba.baseSize := by
  induction count generalizing ba with
  | zero => exact ⟨[], ba.heap, by simp [addNodes], rfl, by simp⟩
  | succ count ih =>
    obtain ⟨fresh, heap, heq, hlen, hsize⟩ := ih
      { ba with
        nodes := ba.nodes ++ [⟨(range ba.baseSize).map ba.heap⟩]
        heap := fun i => ba.heap (i + ba.baseSize)
        capacity := ba.capacity + ba.baseSize }
    refine ⟨⟨(range ba.baseSize).map ba.heap⟩ :: fresh, heap, ?_, by simp [hlen], ?_⟩
    · rw [addNodes, heq]
      simp only [append_assoc, singleton_append, ByteArray.mk.injEq, true_and, and_true]
      ring
    · intro n hn
      rcases mem_cons.mp hn with rfl | hn
      · simp [Node.size]
      · exact hsize n hn

theorem grown_refl (h : ba.Wf) : Grown ba ba :=
  ⟨h, rfl, rfl, rfl, rfl, [], by simp⟩

variable {size : ℕ}

/-- Growth appends nodes and leaves `m_cur` at the node of the position, which a
null `m_cur` only becomes through the assignment at the end of `addCapacity`. -/
theorem addCapacity_eq (h : ba.Wf) (hover : ba.getWriteSize < size) :
    ∃ fresh heap, ba.addCapacity size = some { ba with
      nodes := ba.nodes ++ fresh
      heap := heap
      capacity := ba.capacity + ba.baseSize * fresh.length
      cur := curAt ba.baseSize (ba.nodes.length + fresh.length) ba.position } ∧
    fresh.length = ceilQuot (size - ba.getWriteSize) ba.baseSize ∧
    ∀ n ∈ fresh, n.size = ba.baseSize := by
  have hb := h.base_pos
  have hpos := h.position_le
  have hsz := h.size_le
  have hcap := h.capacity_eq
  obtain ⟨fresh, heap, heq, hlen, hsize⟩ :=
    addNodes_eq (ceilQuot (size - ba.getWriteSize) ba.baseSize) ba
  rw [← hlen] at heq
  have hcur : (if ba.getWriteSize = 0 then
      if fresh.length = 0 then none else some ba.nodes.length else ba.cur) =
      curAt ba.baseSize (ba.nodes.length + fresh.length) ba.position := by
    unfold getWriteSize
    split_ifs with hw hcount
    · rw [hcount, add_zero, curAt_of_le (by omega)]
    · have hend : ba.position = ba.baseSize * ba.nodes.length + 0 := by omega
      rw [hend, curAt_add (by omega) hb]
    · have hlt : ba.position < ba.baseSize * (ba.nodes.length + fresh.length) := by
        rw [mul_add]
        omega
      rw [h.cur_eq, curAt_of_lt hlt, curAt_of_lt (by omega)]
  refine ⟨fresh, heap, ?_, hlen, hsize⟩
  simp only [addCapacity, if_neg (show size ≠ 0 by omega), if_neg (not_le.mpr hover), if_neg hb.ne',
    ← hlen, heq, ← hcur]
  split_ifs <;> rfl

theorem addCapacity_grown (h : ba.Wf)
    (hg : ba.addCapacity size = some g) : Grown ba g := by
  by_cases hover : ba.getWriteSize < size
  · obtain ⟨fresh, heap, heq, -, hsize⟩ := addCapacity_eq h hover
    obtain rfl := Option.some.inj (heq.symm.trans hg)
    have hpos := h.position_le
    have hsz := h.size_le
    have hnodes : ∀ n ∈ ba.nodes ++ fresh, n.size = ba.baseSize := by
      intro n hn
      rcases mem_append.mp hn with hn | hn
      · exact h.node_size n hn
      · exact hsize n hn
    refine ⟨⟨h.base_pos, hnodes, ?_, ?_, hpos, ?_, ?_⟩, rfl, rfl, rfl, rfl, ?_⟩
    · simp only [length_append]
      exact Nat.add_pos_left h.nodes_pos _
    · simp only [length_append, Nat.mul_add, h.capacity_eq]
    · exact hsz.trans (Nat.le_add_right _ _)
    · simp only [length_append]
    · exact ⟨(fresh.map Node.ptr).flatten, by simp [memory]⟩
  · have heq : ba.addCapacity size = some ba := by
      unfold addCapacity
      split_ifs <;> first | rfl | omega
    obtain rfl := Option.some.inj (heq.symm.trans hg)
    exact grown_refl h

theorem addCapacity_spec (h : ba.Wf) (hsize : size < 2 ^ 53) :
    ∃ g, ba.addCapacity size = some g ∧ ba.position + size ≤ g.capacity ∧
      ba.capacity ≤ g.capacity ∧
      (g.capacity = ba.capacity ∨ g.capacity < ba.position + size + ba.baseSize) := by
  have hpos := h.position_le
  have hsz := h.size_le
  by_cases hover : ba.getWriteSize < size
  · obtain ⟨fresh, heap, heq, hlen, -⟩ := addCapacity_eq h hover
    refine ⟨_, heq, ?_⟩
    have hcount := ceilQuot_eq (m := size - ba.getWriteSize) (by omega) (by omega) h.base_pos
    have hdiv := div_add_mod (size - ba.getWriteSize + ba.baseSize - 1) ba.baseSize
    have hmod := mod_lt (size - ba.getWriteSize + ba.baseSize - 1) h.base_pos
    dsimp only
    rw [hlen, hcount]
    unfold getWriteSize at *
    omega
  · refine ⟨ba, ?_, ?_, le_rfl, .inl rfl⟩
    · unfold addCapacity
      split_ifs <;> first | rfl | omega
    · unfold getWriteSize at hover
      omega

theorem addCapacity_total (h : ba.Wf) (hsize : size < 2 ^ 53) :
    ∃ g, ba.addCapacity size = some g ∧ ba.position + size ≤ g.capacity := by
  obtain ⟨g, hg, hroom, -⟩ := addCapacity_spec h hsize
  exact ⟨g, hg, hroom⟩

theorem addCapacity_tight (h : ba.Wf) (hsize : size < 2 ^ 53)
    (hg : ba.addCapacity size = some g) : ba.capacity ≤ g.capacity ∧
      (g.capacity = ba.capacity ∨ g.capacity < ba.position + size + ba.baseSize) := by
  obtain ⟨g', hg', -, htight⟩ := addCapacity_spec h hsize
  obtain rfl := Option.some.inj (hg'.symm.trans hg)
  exact htight

/-- What `write(buf)` leaves behind when it returns. -/
structure Written (ba : ByteArray) (buf : List UInt8) (ba' : ByteArray) : Prop where
  wf : ba'.Wf
  contents_eq : ba'.contents = splice ba.contents ba.position buf
  position_eq : ba'.position = ba.position + buf.length
  baseSize_eq : ba'.baseSize = ba.baseSize
  endian_eq : ba'.endian = ba.endian

variable {buf : List UInt8} {ba' : ByteArray}

theorem Written.size_eq (h : ba.Wf) (hw : Written ba buf ba') :
    ba'.size = max ba.size (ba.position + buf.length) := by
  rw [← length_contents hw.wf, hw.contents_eq, length_splice, length_contents h]
  exact h.position_le_length

variable {nodes : List Node} {b i npos : ℕ}

theorem memory_modify {d : List UInt8}
    (hn : ∀ n ∈ nodes, n.size = b) (hi : i < nodes.length) (hd : npos + d.length ≤ b) :
    ((nodes.modify i (fun n => n.memcpy npos d)).map Node.ptr).flatten =
      splice (nodes.map Node.ptr).flatten (b * i + npos) d := by
  have hmap : (nodes.modify i (fun n => n.memcpy npos d)).map Node.ptr =
      (nodes.map Node.ptr).modify i (fun x => splice x npos d) := by
    apply ext_getElem?
    intro j
    rw [getElem?_map, getElem?_modify, getElem?_modify, getElem?_map]
    cases nodes[j]? with
    | none => rfl
    | some n => by_cases hij : i = j <;> simp [hij, Node.memcpy]
  rw [hmap, flatten_modify_splice (length_of_mem_ptr hn) (by simpa using hi) hd]

theorem size_modify {d : List UInt8}
    (hn : ∀ n ∈ nodes, n.size = b) (hd : npos + d.length ≤ b) :
    ∀ n ∈ nodes.modify i (fun n => n.memcpy npos d), n.size = b := by
  intro n hmem
  obtain ⟨j, hj, rfl⟩ := mem_iff_getElem.mp hmem
  rw [getElem_modify]
  have hold := hn _ (getElem_mem (by simpa using hj))
  split_ifs
  · rw [Node.size] at hold
    rw [Node.size, Node.memcpy, length_splice (by omega)]
    omega
  · exact hold

theorem walkFrom_writePiece (h : ba.Wf) (hpos : 0 < buf.length)
    (hlen : ba.position + buf.length ≤ ba.capacity) : ∃ nodes,
    ba.walkFrom ba.position (writePiece buf) buf.length (ba, 0) =
      some (curAt ba.baseSize ba.nodes.length (ba.position + buf.length),
        { ba with nodes := nodes, position := ba.position + buf.length }, buf.length) ∧
    nodes.length = ba.nodes.length ∧ (∀ n ∈ nodes, n.size = ba.baseSize) ∧
    (nodes.map Node.ptr).flatten = splice ba.memory ba.position buf := by
  let P : ℕ → ByteArray × ℕ → Prop := fun done s =>
    ∃ nodes, s = ({ ba with nodes := nodes, position := ba.position + done }, done) ∧
      nodes.length = ba.nodes.length ∧ (∀ n ∈ nodes, n.size = ba.baseSize) ∧
      (nodes.map Node.ptr).flatten = splice ba.memory ba.position (buf.take done)
  have hstart : P 0 (ba, 0) := ⟨ba.nodes, rfl, rfl, h.node_size, by simp [memory]⟩
  have hstep :
      PieceKeeps ba.baseSize ba.nodes.length ba.position buf.length (writePiece buf) P := by
    rintro i npos k done _ hi hk hat hdone ⟨nodes, rfl, hcount, hsize, hmem⟩
    have hpiece : ((buf.drop done).take k).length = k := by simp; omega
    have htake : (buf.take done).length = done := by simp; omega
    refine ⟨nodes.modify i (fun n => n.memcpy npos ((buf.drop done).take k)),
      by simp [writePiece, add_assoc], by simpa using hcount, size_modify hsize (by omega), ?_⟩
    have hjoin := splice_splice (l := ba.memory) (i := ba.position) (d := buf.take done)
      (e := (buf.drop done).take k) (by rw [length_memory h]; omega)
    rw [htake] at hjoin
    rw [memory_modify hsize (by omega) (by omega), hmem, hat, hjoin, ← take_add]
  obtain ⟨s, hs, nodes, rfl, hcount, hsize, hmem⟩ :=
    walkFrom_rule h hlen (by omega) P hstart hstep
  exact ⟨nodes, hs, hcount, hsize, by rw [hmem, take_length]⟩

theorem write_of_room (h : ba.Wf) (h0 : buf.length ≠ 0)
    (hg : ba.addCapacity buf.length = some g) (hroom : ba.position + buf.length ≤ g.capacity) :
    ∃ ba', write buf ba = .ok () ba' ∧ Written ba buf ba' ∧ ba'.capacity = g.capacity := by
  have hgrown := addCapacity_grown h hg
  have hgw := hgrown.wf
  have hgpos := hgrown.position_eq
  have hple := hgw.position_le
  have hsle := hgw.size_le
  rw [← hgpos] at hroom
  obtain ⟨nodes, hwalk, hcount, hsize, hmem⟩ :=
    walkFrom_writePiece hgw (pos_of_ne_zero h0) hroom
  let final : ByteArray :=
    { g with
      nodes := nodes
      position := g.position + buf.length
      size := max g.size (g.position + buf.length)
      cur := curAt g.baseSize g.nodes.length (g.position + buf.length) }
  have hfinal : write buf ba = .ok () final := by
    simp only [write, if_neg h0, hg, hwalk]
    congr 1
    split_ifs with hlt
    · simp only [final, max_eq_right hlt.le]
    · simp only [final, max_eq_left (not_lt.mp hlt)]
  have hmemory : final.memory = splice g.memory g.position buf := hmem
  refine ⟨final, hfinal, ⟨⟨hgw.base_pos, hsize, ?_, ?_, ?_, ?_, ?_⟩, ?_, ?_, ?_, ?_⟩, rfl⟩
  · exact hcount ▸ hgw.nodes_pos
  · exact hcount ▸ hgw.capacity_eq
  · exact le_max_right _ _
  · exact max_le hsle hroom
  · simp only [final, hcount]
  · rw [← hgrown.contents_eq h, ← hgpos, contents, hmemory, contents]
    exact take_max_splice hple (by rw [length_memory hgw]; exact hsle)
  · exact congrArg (· + buf.length) hgpos
  · exact hgrown.baseSize_eq
  · exact hgrown.endian_eq

theorem write_ok {u : Unit} (h : ba.Wf)
    (hw : write buf ba = .ok u ba') : Written ba buf ba' := by
  by_cases h0 : buf.length = 0
  · rw [write, if_pos h0] at hw
    obtain ⟨-, rfl⟩ := Outcome.ok.inj hw
    obtain rfl := length_eq_zero_iff.mp h0
    exact ⟨h, by simp, rfl, rfl, rfl⟩
  · cases hg : ba.addCapacity buf.length with
    | none => simp [write, h0, hg] at hw
    | some g =>
      have hgrown := addCapacity_grown h hg
      by_cases hroom : ba.position + buf.length ≤ g.capacity
      · obtain ⟨final, hfinal, hwritten, -⟩ := write_of_room h h0 hg hroom
        obtain ⟨-, rfl⟩ := Outcome.ok.inj (hw.symm.trans hfinal)
        exact hwritten
      · have hcrash : g.walkFrom g.position (writePiece buf) buf.length (g, 0) = none :=
          walkFrom_eq_none hgrown.wf (by rw [hgrown.position_eq]; omega)
        simp [write, h0, hg, hcrash] at hw

theorem write_total (h : ba.Wf) (hlen : buf.length < 2 ^ 53) :
    ∃ ba', write buf ba = .ok () ba' := by
  by_cases h0 : buf.length = 0
  · exact ⟨ba, by rw [write, if_pos h0]⟩
  · obtain ⟨g, hg, hroom⟩ := addCapacity_total h hlen
    obtain ⟨ba', hw, -⟩ := write_of_room h h0 hg hroom
    exact ⟨ba', hw⟩

theorem write_fills_iff {u : Unit} (h : ba.Wf)
    (h0 : buf.length ≠ 0) (hlen : buf.length < 2 ^ 53) (hw : write buf ba = .ok u ba') :
    ba'.position = ba'.capacity ↔
      ba.baseSize ∣ ba.position + buf.length ∧ ba.capacity ≤ ba.position + buf.length := by
  obtain ⟨g, hg, hroom⟩ := addCapacity_total h hlen
  obtain ⟨ba'', hw', hwritten, hcap⟩ := write_of_room h h0 hg hroom
  obtain ⟨-, rfl⟩ := Outcome.ok.inj (hw.symm.trans hw')
  obtain ⟨hle, htight⟩ := addCapacity_tight h hlen hg
  have hmul : ba.baseSize ∣ g.capacity := by
    rw [← hcap, hwritten.wf.capacity_eq, hwritten.baseSize_eq]
    exact dvd_mul_right _ _
  rw [hwritten.position_eq, hcap]
  constructor
  · rintro heq
    exact ⟨heq ▸ hmul, heq ▸ hle⟩
  · rintro ⟨hdvd, hpast⟩
    rcases htight with hsame | htight
    · omega
    · obtain ⟨k, hk⟩ := hmul
      obtain ⟨l, hl⟩ := hdvd
      have hkl : k ≤ l := by
        by_contra hgt
        have : ba.baseSize * (l + 1) ≤ ba.baseSize * k := mul_le_mul_left _ (by omega)
        rw [mul_succ] at this
        omega
      have : ba.baseSize * k ≤ ba.baseSize * l := mul_le_mul_left _ hkl
      omega

/-- The array after the cursor has moved over `k` stored bytes. -/
def advance (ba : ByteArray) (k : ℕ) : ByteArray :=
  { ba with
    position := ba.position + k
    cur := curAt ba.baseSize ba.nodes.length (ba.position + k) }

variable {k : ℕ}

theorem advance_wf (h : ba.Wf) (hk : k ≤ ba.getReadSize) : (ba.advance k).Wf :=
  ⟨h.base_pos, h.node_size, h.nodes_pos, h.capacity_eq, h.position_add_le hk, h.size_le, rfl⟩

@[simp] theorem advance_unread (ba : ByteArray) (k : ℕ) :
    (ba.advance k).unread = ba.unread.drop k := by
  rw [unread, unread, drop_drop]
  rfl

@[simp] theorem advance_advance (ba : ByteArray) (j k : ℕ) :
    (ba.advance j).advance k = ba.advance (j + k) := by
  simp [advance, add_assoc]

theorem advance_zero (h : ba.Wf) : ba.advance 0 = ba := by
  simp only [advance, add_zero, ← h.cur_eq]

theorem peek_eq {p : ℕ} (hn : ∀ n ∈ nodes, n.size = b)
    (hi : i < nodes.length) (hk : npos + k ≤ b) (hat : b * i + npos = p) :
    peek nodes i npos k = ((nodes.map Node.ptr).flatten.drop p).take k := by
  have hget : (nodes.map Node.ptr)[i]? = some nodes[i].ptr := by
    rw [getElem?_map, getElem?_eq_getElem hi]
    rfl
  rw [← hat, take_drop_flatten (length_of_mem_ptr hn) hget hk, peek, getElem?_eq_getElem hi]

theorem take_drop_memory (h : ba.Wf) (hk : k ≤ ba.getReadSize) :
    (ba.memory.drop ba.position).take k = ba.unread.take k := by
  have hend := h.position_add_le hk
  rw [unread, contents, drop_take, take_take, min_eq_left (by omega)]

variable {len : ℕ}

theorem read_ok (h : ba.Wf) (hlen : len ≤ ba.getReadSize)
    (hcur : ba.position < ba.capacity) :
    read len ba = .ok (ba.unread.take len) (ba.advance len) := by
  have hend : ba.position + len ≤ ba.capacity := (h.position_add_le hlen).trans h.size_le
  let P : ℕ → ByteArray × List UInt8 → Prop := fun done s =>
    s = ({ ba with position := ba.position + done }, (ba.memory.drop ba.position).take done)
  have hstep : PieceKeeps ba.baseSize ba.nodes.length ba.position len readPiece P := by
    rintro i npos k done _ hi hk hat hdone rfl
    have hpiece : peek ba.nodes i npos k = (ba.memory.drop (ba.position + done)).take k :=
      peek_eq h.node_size hi hk hat
    simp only [P, readPiece, hpiece, add_assoc, take_add, drop_drop]
  obtain ⟨s, hs, rfl⟩ := walkFrom_rule (s := (ba, [])) h hend hcur P rfl hstep
  rw [← take_drop_memory h hlen]
  simp only [read, if_neg (not_lt.mpr hlen), hs]
  rfl

theorem read_raised (hlen : ba.getReadSize < len) :
    read len ba = .raised (.outOfRange "not enough data to read") ba := by
  rw [read, if_pos hlen]

theorem read_crash (h : ba.Wf) (hend : ba.position = ba.capacity) : read 0 ba = .crash := by
  simp [read, walkFrom_null h hend]

theorem read_pos (h : ba.Wf) (h0 : 0 < len) (hlen : len ≤ ba.getReadSize) :
    read len ba = .ok (ba.unread.take len) (ba.advance len) := by
  have hend := h.position_add_le hlen
  have hsize := h.size_le
  apply read_ok h hlen
  omega

theorem read_cases (h : ba.Wf) (hlen : len ≤ ba.getReadSize) :
    ((len ≠ 0 ∨ ba.position < ba.capacity) ∧
      read len ba = .ok (ba.unread.take len) (ba.advance len)) ∨
    (len = 0 ∧ ba.position = ba.capacity ∧ read len ba = .crash) := by
  have hpos := h.position_le
  have hsize := h.size_le
  rcases Nat.eq_zero_or_pos len with rfl | h0
  · rcases Nat.lt_or_ge ba.position ba.capacity with hcur | hend
    · exact .inl ⟨.inr hcur, read_ok h hlen hcur⟩
    · have heq : ba.position = ba.capacity := by omega
      exact .inr ⟨rfl, heq, read_crash h heq⟩
  · exact .inl ⟨.inl h0.ne', read_pos h h0 hlen⟩

theorem read_inv {out : List UInt8} (h : ba.Wf)
    (hr : read len ba = .ok out ba') :
    len ≤ ba.getReadSize ∧ out = ba.unread.take len ∧ ba' = ba.advance len := by
  by_cases hlen : len ≤ ba.getReadSize
  · rcases read_cases h hlen with ⟨-, hread⟩ | ⟨-, -, hcrash⟩
    · cases hr.symm.trans hread
      exact ⟨hlen, rfl, rfl⟩
    · cases hr.symm.trans hcrash
  · cases hr.symm.trans (read_raised (not_le.mp hlen))

theorem walk_copy (hn : ∀ n ∈ nodes, n.size = b)
    (hi : i < nodes.length)
    (hnpos : npos < b) (hlen : b * i + npos + len ≤ b * nodes.length) : ∃ cur,
    walk (fun i npos k out => out ++ peek nodes i npos k) (nodes.drop i) i npos len [] =
      some (cur, ((nodes.map Node.ptr).flatten.drop (b * i + npos)).take len) := by
  have hstep : ∀ j o k done s, j < nodes.length → o + k ≤ b →
      b * j + o = b * i + npos + done → done + k ≤ len →
      s = ((nodes.map Node.ptr).flatten.drop (b * i + npos)).take done →
      s ++ peek nodes j o k =
        ((nodes.map Node.ptr).flatten.drop (b * i + npos)).take (done + k) := by
    rintro j o k done _ hj hk hat hdone rfl
    rw [peek_eq hn hj hk hat, take_add, drop_drop]
  have hne : nodes.drop i ≠ [] := by simpa using hi
  obtain ⟨s, hs, rfl⟩ := walk_rule hn hlen
    (fun done s => s = ((nodes.map Node.ptr).flatten.drop (b * i + npos)).take done) hstep
    _ i npos len 0 [] rfl hne hnpos rfl (zero_add _) rfl
  exact ⟨_, hs⟩

theorem readAt_position_ok (h : ba.Wf) (h0 : 0 < len) (hlen : len ≤ ba.getReadSize) :
    readAt len ba.position ba = .ok (ba.unread.take len) ba := by
  have hb := h.base_pos
  have hpos := h.position_le
  have hsize := h.size_le
  have hcap := h.capacity_eq
  have hdiv := Nat.div_add_mod ba.position ba.baseSize
  have hsub : subSize ba.size ba.position = ba.getReadSize := by
    rw [subSize, if_pos hpos]
    rfl
  have hread := take_drop_memory h hlen
  unfold getReadSize at hlen
  have hcur : ba.position < ba.baseSize * ba.nodes.length := by omega
  obtain ⟨cur, hwalk⟩ := walk_copy h.node_size (Nat.div_lt_of_lt_mul hcur)
    (Nat.mod_lt ba.position hb) (show _ + len ≤ _ by omega)
  rw [hdiv] at hwalk
  rw [readAt, hsub, getReadSize, if_neg (not_lt.mpr hlen), walkFrom, if_neg hb.ne', h.cur_eq,
    curAt_of_lt hcur, ← hread]
  simp only [hwalk]
  rfl

theorem toString_ok (h : ba.Wf) : toString ba = .ok ba.unread ba := by
  have hlen := length_unread h
  unfold toString
  split_ifs with h0
  · rw [length_eq_zero_iff.mp (hlen.trans h0)]
  · rw [readAt_position_ok h (pos_of_ne_zero h0) le_rfl, ← hlen, take_length]

theorem seek_eq (hb : 0 < b) (hn : ∀ n ∈ nodes, n.size = b) :
    ∀ (chain : List Node) (i v : ℕ), chain = nodes.drop i → chain ≠ [] →
      b * i + v ≤ b * nodes.length → seek chain i v = some (curAt b nodes.length (b * i + v)) := by
  intro chain
  induction chain with
  | nil =>
    intro i v _ hne
    exact absurd rfl hne
  | cons n rest ih =>
    intro i v hchain _ hv
    obtain ⟨hnb, hrest, hi⟩ := chain_cons hn hchain
    by_cases hmore : n.size < v
    · have hnext : b * (i + 1) + (v - n.size) = b * i + v := by
        rw [Nat.mul_succ]
        omega
      have hroom := Nat.lt_of_mul_lt_mul_left (show b * (i + 1) < b * nodes.length by omega)
      rw [seek, if_pos hmore, ih (i + 1) (v - n.size) hrest _ (hnext ▸ hv), hnext]
      rw [hrest]
      simpa using hroom
    · rw [seek, if_neg hmore]
      congr 1
      split_ifs with hfull
      · rw [hfull, hnb, ← Nat.mul_succ]
        exact nextNode_eq hb hrest
      · rw [curAt_add hi (by omega)]

variable {v : ℕ}

theorem setPosition_ok (h : ba.Wf) (hv : v ≤ ba.capacity) :
    setPosition v ba = .ok () { ba with
      position := v
      size := max ba.size v
      cur := curAt ba.baseSize ba.nodes.length v } := by
  have hseek : seek ba.nodes 0 v = some (curAt ba.baseSize ba.nodes.length v) := by
    have hne := ne_nil_of_length_pos h.nodes_pos
    have hseek := seek_eq h.base_pos h.node_size ba.nodes 0 v rfl hne
      (by rw [← h.capacity_eq]; omega)
    rwa [mul_zero, zero_add] at hseek
  simp only [setPosition, if_neg (not_lt.mpr hv), hseek]

theorem setPosition_advance (h : ba.Wf) (hk : k ≤ ba.getReadSize) :
    setPosition (ba.position + k) ba = .ok () (ba.advance k) := by
  have hend := h.position_add_le hk
  rw [setPosition_ok h (hend.trans h.size_le), max_eq_left hend]
  rfl

theorem setPosition_raised (hv : ba.capacity < v) :
    setPosition v ba = .raised (.outOfRange "setPosition out of range") ba := by
  rw [setPosition, if_pos hv]

structure Positioned (ba : ByteArray) (v : ℕ) (ba' : ByteArray) : Prop where
  wf : ba'.Wf
  memory_eq : ba'.memory = ba.memory
  position_eq : ba'.position = v
  size_eq : ba'.size = max ba.size v
  capacity_eq : ba'.capacity = ba.capacity
  baseSize_eq : ba'.baseSize = ba.baseSize
  endian_eq : ba'.endian = ba.endian

theorem setPosition_spec (h : ba.Wf) (hv : v ≤ ba.capacity) :
    ∃ ba', setPosition v ba = .ok () ba' ∧ Positioned ba v ba' := by
  refine ⟨_, setPosition_ok h hv,
    ⟨h.base_pos, h.node_size, h.nodes_pos, h.capacity_eq, ?_, ?_, rfl⟩, rfl, rfl, rfl, rfl, rfl,
    rfl⟩
  · exact le_max_right _ _
  · exact max_le h.size_le hv

theorem Positioned.contents_eq (hp : Positioned ba v ba')
    (hv : v ≤ ba.size) : ba'.contents = ba.contents := by
  rw [contents, contents, hp.memory_eq, hp.size_eq, max_eq_left hv]

theorem Positioned.unread_eq (hp : Positioned ba 0 ba') :
    ba'.unread = ba.contents := by
  rw [unread, hp.position_eq, drop_zero, hp.contents_eq (zero_le _)]

theorem clear_wf (h : ba.Wf) : ba.clear.Wf := by
  have hlen : (ba.nodes.take 1).length = 1 := by
    rw [length_take]
    exact min_eq_left h.nodes_pos
  refine ⟨h.base_pos, fun n hn => h.node_size n (mem_of_mem_take hn), ?_, ?_, le_rfl,
    Nat.zero_le _, ?_⟩
  · exact hlen ▸ Nat.one_pos
  · change ba.baseSize = ba.baseSize * (ba.nodes.take 1).length
    rw [hlen, Nat.mul_one]
  · change some 0 = curAt ba.baseSize (ba.nodes.take 1).length 0
    rw [hlen, curAt_of_lt (by rw [Nat.mul_one]; exact h.base_pos), Nat.zero_div]

theorem create_wf (hb : 0 < b) (heap : ℕ → UInt8) : (create b heap).Wf := by
  refine ⟨hb, ?_, one_pos, (mul_one b).symm, le_rfl, zero_le _, ?_⟩
  · intro n hn
    obtain rfl := mem_singleton.mp hn
    simp [Node.size, create]
  · exact (curAt_add (i := 0) one_pos hb).symm

theorem wrap_wf {data : List UInt8} (hd : 0 < data.length) (heap : ℕ → UInt8) :
    (wrap data heap).Wf := by
  refine ⟨hd, ?_, one_pos, (mul_one _).symm, zero_le _, le_rfl, ?_⟩
  · intro n hn
    obtain rfl := mem_singleton.mp hn
    rfl
  · exact (curAt_add (i := 0) one_pos hd).symm

end JKYi.ByteArray
