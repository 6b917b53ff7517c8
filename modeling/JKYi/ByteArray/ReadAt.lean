import JKYi.ByteArray.IoVec
import JKYi.ByteArray.Reachable

/-!
# Reading at a position of its own

The const `read(buf, len, position)` takes the offset inside the node from
`position` but the node itself from the cursor, and compares `len` with an
unsigned difference that wraps when `position` is behind the end.
`getReadBuffers(buffers, len, position)` computes the same difference and walks
to the node of `position`. The two agree where the cursor is in that node.
-/

namespace JKYi.ByteArray

open List

def getReadBuffersAt (buffers : List IoVec) (len position : ℕ) :
    Run Exn ByteArray (ℕ × List IoVec) := fun ba =>
  let len := if subSize ba.size position < len then subSize ba.size position else len
  if len = 0 then .ok (0, buffers) ba
  else if ba.baseSize = 0 then .crash
  else
    let count := position / ba.baseSize
    match walk pushPiece (ba.nodes.drop count) count (position % ba.baseSize) len buffers with
    | none => .crash
    | some (_, buffers) => .ok (len, buffers) ba

/-- The address of the first byte that `read(buf, len, position)` copies: the
offset of `position` in the node of the cursor. -/
def readAddress (ba : ByteArray) (position : ℕ) : ℕ :=
  ba.baseSize * (ba.position / ba.baseSize) + position % ba.baseSize

/-- The bytes `[position, position + len)` of the contents. -/
def window (ba : ByteArray) (len position : ℕ) : List UInt8 :=
  (ba.contents.drop position).take len

/-- What is known of an array apart from the bytes it stores. -/
def shape (ba : ByteArray) : ℕ × ℕ × ℕ × ℕ := (ba.baseSize, ba.position, ba.size, ba.capacity)

variable {ba ba' : ByteArray} {len position : ℕ}

theorem shape_eq_iff : ba'.shape = ba.shape ↔ ba'.baseSize = ba.baseSize ∧
    ba'.position = ba.position ∧ ba'.size = ba.size ∧ ba'.capacity = ba.capacity := by
  simp [shape]

theorem subSize_of_le {a p : ℕ} (h : p ≤ a) : subSize a p = a - p := if_pos h

theorem subSize_of_lt {a p : ℕ} (h : a < p) : subSize a p = a + 2 ^ 64 - p := if_neg (by omega)

theorem readAt_raised (h : subSize ba.size position < len) :
    readAt len position ba = .raised (.outOfRange "not enough data to read") ba := by
  rw [readAt, if_pos h]

/-- A read that passes the length check copies from `readAddress` on, if the
cursor has a node and the chain is long enough. -/
theorem readAt_eq (h : ba.Wf) (hlen : len ≤ subSize ba.size position) :
    readAt len position ba =
      if ba.position < ba.capacity ∧ ba.readAddress position + len ≤ ba.capacity then
        .ok ((ba.memory.drop (ba.readAddress position)).take len) ba
      else .crash := by
  have hb := h.base_pos
  have hmod := Nat.mod_lt position hb
  rw [readAt, if_neg (not_lt.mpr hlen), walkFrom, if_neg hb.ne', h.cur_eq]
  by_cases hcur : ba.position < ba.capacity
  · have hcur' := h.capacity_eq ▸ hcur
    have hi := Nat.div_lt_of_lt_mul hcur'
    rw [curAt_of_lt hcur']
    by_cases hend : ba.readAddress position + len ≤ ba.capacity
    · obtain ⟨cur, hwalk⟩ := walk_copy h.node_size hi hmod (h.capacity_eq ▸ hend)
      rw [if_pos ⟨hcur, hend⟩]
      simp only [hwalk]
      rfl
    · have hover : ba.baseSize * ba.nodes.length <
          ba.baseSize * (ba.position / ba.baseSize) + position % ba.baseSize + len := by
        rw [← h.capacity_eq]
        exact not_le.mp hend
      rw [if_neg (fun hc => hend hc.2)]
      simp only [walk_eq_none h.node_size _ _ _ _ _ rfl hmod hover]
  · rw [curAt_of_le (by rw [← h.capacity_eq]; exact not_lt.mp hcur), if_neg (fun hc => hcur hc.1)]

theorem readAddress_eq (h : ba.position / ba.baseSize = position / ba.baseSize) :
    ba.readAddress position = position := by
  rw [readAddress, h, Nat.div_add_mod]

theorem drop_take_contents (hlen : position + len ≤ ba.size) :
    (ba.memory.drop position).take len = ba.window len position := by
  rw [window, contents, drop_take, take_take, min_eq_left (by omega)]

theorem getReadBuffersAt_ok (h : ba.Wf) (hlen : position + len ≤ ba.size) :
    ∃ iovs, getReadBuffersAt [] len position ba = .ok (len, iovs) ba ∧
      gather iovs ba.nodes = ba.window len position := by
  have hb := h.base_pos
  have hsize := h.size_le
  have hsub : ¬ subSize ba.size position < len := by
    rw [subSize_of_le (by omega)]
    omega
  rcases Nat.eq_zero_or_pos len with rfl | h0
  · refine ⟨[], ?_, by simp [gather, window]⟩
    simp [getReadBuffersAt]
  have hdiv := Nat.div_add_mod position ba.baseSize
  have hend : ba.baseSize * (position / ba.baseSize) + position % ba.baseSize + len ≤
      ba.baseSize * ba.nodes.length := by
    rw [← h.capacity_eq]
    omega
  have hi : position / ba.baseSize < ba.nodes.length := Nat.div_lt_of_lt_mul (by omega)
  obtain ⟨cur, iovs, hwalk, hcons, htotal⟩ := walk_pushPiece h.node_size hi (Nat.mod_lt _ hb) hend
  refine ⟨iovs, ?_, ?_⟩
  · simp only [getReadBuffersAt, if_neg hsub, if_neg h0.ne', if_neg hb.ne', hwalk]
  · rw [gather_consecutive hcons h.node_size, htotal, hdiv]
    exact drop_take_contents hlen

/-! Arrays of one shape. -/

theorem Reachable.poke (hr : Reachable ba) (h : ba.Wf) {p : ℕ} (hp : p < ba.capacity) (x : UInt8) :
    ∃ ba', Reachable ba' ∧ ba'.Wf ∧ ba'.shape = ba.shape ∧ ba'.memory = ba.memory.set p x := by
  have hmod := Nat.mod_lt p h.base_pos
  have hi := Nat.div_lt_of_lt_mul (by rw [← h.capacity_eq]; exact hp)
  have hfit : p % ba.baseSize + [x].length ≤ ba.baseSize := hmod
  refine ⟨_, hr.fill (p / ba.baseSize) _ [x] hfit, wf_fill h _ hfit, rfl, ?_⟩
  rw [← splice_singleton (by rw [length_memory h]; exact hp)]
  have hmem := memory_modify h.node_size hi hfit
  rwa [Nat.div_add_mod] at hmem

theorem Reachable.exists_memory (hr : Reachable ba) (h : ba.Wf) {m : List UInt8}
    (hm : m.length = ba.capacity) :
    ∃ ba', Reachable ba' ∧ ba'.Wf ∧ ba'.shape = ba.shape ∧ ba'.memory = m := by
  have hstep : ∀ k ≤ ba.capacity, ∃ ba', Reachable ba' ∧ ba'.Wf ∧ ba'.shape = ba.shape ∧
      ba'.memory = m.take k ++ ba.memory.drop k := by
    intro k
    induction k with
    | zero => exact fun _ => ⟨ba, hr, h, rfl, by simp⟩
    | succ k ih =>
      intro hk
      obtain ⟨ba', hr', hw', hs', hmem⟩ := ih (by omega)
      have hcap : ba'.capacity = ba.capacity := congrArg (·.2.2.2) hs'
      obtain ⟨ba'', hr'', hw'', hs'', hmem'⟩ := hr'.poke hw' (p := k) (by omega) m[k]
      refine ⟨ba'', hr'', hw'', hs''.trans hs', ?_⟩
      have htake : (m.take k).length = k := by
        rw [length_take]
        omega
      have hold : k < ba.memory.length := by rw [length_memory h]; omega
      rw [hmem', hmem, set_append_right _ _ htake.le, htake, Nat.sub_self,
        drop_eq_getElem_cons hold, set_cons_zero, take_succ_eq_append_getElem,
        append_assoc, singleton_append]
  obtain ⟨ba', hr', hw', hs', hmem⟩ := hstep _ le_rfl
  refine ⟨ba', hr', hw', hs', ?_⟩
  rw [hmem, ← hm, take_length, hm, drop_eq_nil_of_le (length_memory h).le, append_nil]

theorem Reachable.exists_marked (hr : Reachable ba) (h : ba.Wf) {p : ℕ} (hp : p < ba.capacity) :
    ∃ ba', Reachable ba' ∧ ba'.Wf ∧ ba'.shape = ba.shape ∧
      ∀ a, ba'.memory[a]? = some 1 ↔ a = p := by
  obtain ⟨ba', hr', hw', hs', hmem⟩ := hr.exists_memory h
    (m := (replicate ba.capacity 0).set p 1) (by simp)
  refine ⟨ba', hr', hw', hs', fun a => ?_⟩
  rw [hmem, getElem?_set, getElem?_replicate, length_replicate]
  grind

/-- What the two functions promise: the bytes at `position` when there are that
many, and the exception otherwise. -/
def ReadsAt (len position : ℕ) (ba : ByteArray) : Prop :=
  if position + len ≤ ba.size then
    readAt len position ba = .ok (ba.window len position) ba ∧
      ∃ iovs, getReadBuffersAt [] len position ba = .ok (len, iovs) ba ∧
        gather iovs ba.nodes = ba.window len position
  else readAt len position ba = .raised (.outOfRange "not enough data to read") ba

/-- The cursor is in the node of `position`, unless no byte is asked for, and the
difference `m_size - position` does not wrap below `len`. -/
def ReadAtSafe (len position : ℕ) (ba : ByteArray) : Prop :=
  (position + len ≤ ba.size → ba.position < ba.capacity ∧
    (len = 0 ∨ ba.position / ba.baseSize = position / ba.baseSize)) ∧
  (ba.size < position → ba.size + 2 ^ 64 < position + len)

theorem raises_iff (hp : position < 2 ^ 64) (hout : ¬ position + len ≤ ba.size) :
    subSize ba.size position < len ↔ ba.size < position → ba.size + 2 ^ 64 < position + len := by
  rcases Nat.lt_or_ge ba.size position with hlt | hle
  · rw [subSize_of_lt hlt]
    omega
  · rw [subSize_of_le hle]
    omega

theorem Hollow.readAt_crash (h : Hollow ba) (hlen : len ≤ subSize ba.size position) :
    readAt len position ba = .crash := by
  rw [readAt, if_neg (not_lt.mpr hlen), walkFrom, if_pos h.baseSize_eq]

theorem readAt_ne_raised (hr : Reachable ba) (hlen : len ≤ subSize ba.size position) (e : Exn) :
    readAt len position ba ≠ .raised e ba := by
  rcases hr.wf_or_hollow with h | h
  · rw [readAt_eq h hlen]
    split_ifs <;> simp
  · simp [h.readAt_crash hlen]

theorem readsAt_iff (hr : Reachable ba) (hp : position < 2 ^ 64) :
    ReadsAt len position ba ↔
      (position + len ≤ ba.size → ba.position < ba.capacity ∧
        ba.readAddress position + len ≤ ba.capacity ∧
        (ba.memory.drop (ba.readAddress position)).take len = ba.window len position) ∧
      (ba.size < position → ba.size + 2 ^ 64 < position + len) := by
  rw [ReadsAt]
  split_ifs with hin
  · have hsub : len ≤ subSize ba.size position := by
      rw [subSize_of_le (by omega)]
      omega
    have hnowrap : ba.size < position → ba.size + 2 ^ 64 < position + len := by omega
    rw [and_iff_left hnowrap]
    simp only [hin, true_imp_iff]
    rcases hr.wf_or_hollow with h | h
    · simp only [getReadBuffersAt_ok h hin, and_true, readAt_eq h hsub]
      split_ifs with hc
      · simp [hc]
      · simp only [false_iff]
        exact fun hall => hc ⟨hall.1, hall.2.1⟩
    · simp [h.readAt_crash hsub, h.capacity_eq]
  · simp only [hin, false_imp_iff, true_and, ← raises_iff hp hin]
    constructor
    · intro hraised
      by_contra hlen
      exact readAt_ne_raised hr (not_lt.mp hlen) _ hraised
    · exact readAt_raised

theorem readAddress_lt (h : ba.Wf) (hcur : ba.position < ba.capacity) (position : ℕ) :
    ba.readAddress position < ba.capacity := by
  have hmod := Nat.mod_lt position h.base_pos
  have hi : ba.position / ba.baseSize < ba.nodes.length :=
    Nat.div_lt_of_lt_mul (by rw [← h.capacity_eq]; exact hcur)
  have hle : ba.baseSize * (ba.position / ba.baseSize + 1) ≤ ba.baseSize * ba.nodes.length :=
    Nat.mul_le_mul_left _ hi
  rw [Nat.mul_succ] at hle
  rw [readAddress, h.capacity_eq]
  omega

theorem ReadAtSafe.readsAt (hr : Reachable ba) (hp : position < 2 ^ 64)
    (h : ReadAtSafe len position ba) : ReadsAt len position ba := by
  refine (readsAt_iff hr hp).mpr ⟨fun hin => ?_, h.2⟩
  obtain ⟨hcur, hnode⟩ := h.1 hin
  rcases hr.wf_or_hollow with hw | hw
  · rcases hnode with rfl | hnode
    · exact ⟨hcur, (readAddress_lt hw hcur position).le, rfl⟩
    · rw [readAddress_eq hnode]
      exact ⟨hcur, hin.trans hw.size_le, drop_take_contents hin⟩
  · rw [hw.capacity_eq] at hcur
    omega

/-- A stretch that starts in another node than `position` differs from the one at
`position` in some array of the shape. -/
theorem same_node_of_readsAt (hr : Reachable ba) (hp : position < 2 ^ 64) (h0 : 0 < len)
    (hin : position + len ≤ ba.size)
    (hall : ∀ ba', Reachable ba' → ba'.shape = ba.shape → ReadsAt len position ba') :
    ba.position / ba.baseSize = position / ba.baseSize := by
  obtain ⟨hcur, -⟩ := ((readsAt_iff hr hp).mp (hall ba hr rfl)).1 hin
  have h : ba.Wf := by
    refine hr.wf_or_hollow.resolve_right fun hw => ?_
    rw [hw.capacity_eq] at hcur
    omega
  have hdiv := Nat.div_add_mod position ba.baseSize
  by_contra hne
  have haddr : position ≠ ba.readAddress position := by
    intro heq
    rw [readAddress] at heq
    apply hne
    exact Nat.eq_of_mul_eq_mul_left h.base_pos (by omega)
  have hsize_le := h.size_le
  obtain ⟨ba', hr', -, hs', hmem⟩ := hr.exists_marked h (p := position) (by omega)
  obtain ⟨hbase, hpos, hsize, -⟩ := shape_eq_iff.mp hs'
  have hin' : position + len ≤ ba'.size := by omega
  obtain ⟨-, -, heq⟩ := ((readsAt_iff hr' hp).mp (hall ba' hr' hs')).1 hin'
  rw [← drop_take_contents hin'] at heq
  have hfirst := congrArg (·[0]?) heq
  simp only [getElem?_take_of_lt h0, getElem?_drop, Nat.add_zero] at hfirst
  rw [readAddress, hbase, hpos, (hmem position).mpr rfl, hmem] at hfirst
  exact haddr hfirst.symm

/-- Reads at a position are right in one array when the bytes picked coincide, and
in all arrays of its shape exactly when the cursor is in the node of the position
and the difference in the check does not wrap. -/
theorem readAt_exact_iff_cursor_in_node {ba : ByteArray} (hr : Reachable ba)
    (len position : UInt64) :
    (ReadsAt len.toNat position.toNat ba ↔
      (position.toNat + len.toNat ≤ ba.size → ba.position < ba.capacity ∧
        ba.readAddress position.toNat + len.toNat ≤ ba.capacity ∧
        (ba.memory.drop (ba.readAddress position.toNat)).take len.toNat =
          ba.window len.toNat position.toNat) ∧
      (ba.size < position.toNat → ba.size + 2 ^ 64 < position.toNat + len.toNat)) ∧
    ((∀ ba', Reachable ba' → ba'.shape = ba.shape → ReadsAt len.toNat position.toNat ba') ↔
      ReadAtSafe len.toNat position.toNat ba) := by
  have hp := position.toNat_lt
  refine ⟨readsAt_iff hr hp, ?_, ?_⟩
  · intro hall
    obtain ⟨hin, hwrap⟩ := (readsAt_iff hr hp).mp (hall ba hr rfl)
    refine ⟨fun hle => ⟨(hin hle).1, ?_⟩, hwrap⟩
    rcases Nat.eq_zero_or_pos len.toNat with h0 | h0
    · exact .inl h0
    · exact .inr (same_node_of_readsAt hr hp h0 hle hall)
  · intro hsafe ba' hr' hs'
    obtain ⟨hbase, hpos, hsize, hcap⟩ := shape_eq_iff.mp hs'
    apply ReadAtSafe.readsAt hr' hp
    rw [ReadAtSafe, hbase, hpos, hsize, hcap]
    exact hsafe

theorem readAt_exact_iff_cursor_in_node_wrap :
    Reachable (wrap [1, 2, 3] fun _ => 0) ∧ ReadAtSafe 2 1 (wrap [1, 2, 3] fun _ => 0) ∧
      ReadsAt 2 1 (wrap [1, 2, 3] fun _ => 0) := by
  have hr : Reachable (wrap [1, 2, 3] fun _ => 0) := .wrap _ _
  have hsafe : ReadAtSafe 2 1 (wrap [1, 2, 3] fun _ => 0) := by
    simp [ReadAtSafe, wrap]
  exact ⟨hr, hsafe, (readAt_exact_iff_cursor_in_node hr 2 1).2.mpr hsafe _ hr rfl⟩

/-- With the cursor in the second node a read at position 0 returns the third byte;
behind the end nothing is thrown; with the cursor at the end of the chain even a
read of stored bytes uses a null pointer. -/
theorem readAt_follows_cursor :
    (∃ ba, Reachable ba ∧ ba.contents = [1, 2, 3] ∧ readAt 1 0 ba = .ok [3] ba) ∧
    (∃ ba, Reachable ba ∧ ba.contents = [1] ∧ readAt 1 2 ba = .ok [1] ba) ∧
    ∃ ba, Reachable ba ∧ ba.contents = [1, 2] ∧ readAt 1 0 ba = .crash := by
  have hfirst : write [1] (create 2 fun _ => 0) = .ok () _ := rfl
  have hfull : write [1, 2] (create 2 fun _ => 0) = .ok () _ := rfl
  refine ⟨?_, ⟨_, .write (.create 2 _) hfirst, rfl, rfl⟩, ⟨_, .write (.create 2 _) hfull, rfl, rfl⟩⟩
  have hruns : ∃ ba, write [1, 2, 3] (create 2 fun _ => 0) = .ok () ba ∧
      ba.contents = [1, 2, 3] ∧ (readAt 1 0 ba).value = some [3] := by
    decide +kernel
  obtain ⟨ba, hwrite, hcontents, hread⟩ := hruns
  obtain ⟨s, hread⟩ := Outcome.value_eq_some.mp hread
  have hsame : s = ba := by
    unfold readAt at hread
    split at hread
    · cases hread
    · split at hread <;> cases hread
      rfl
  exact ⟨ba, .write (.create 2 _) hwrite, hcontents, hsame ▸ hread⟩

end JKYi.ByteArray
