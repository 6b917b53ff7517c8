import JKYi.ByteArray.ReadAt

/-!
# Arrays in files

`writeToFile` stores the bytes behind the cursor node by node. It takes the
offset of the cursor off the length of every piece, also when the piece is the
whole rest and shorter than a node. `readFromFile` appends a file in pieces of
one node until the stream has seen its end.
-/

namespace JKYi.ByteArray

open Nat List Option

variable {k p r : ℕ} {dst : ByteArray}

structure OutFile where
  bytes : List UInt8
  bad : Bool

/-- `ofs.write(n->ptr + diff, len)`. A negative length fails and sets `badbit`, and
then nothing is written any more; a pointer in front of the node is undefined. -/
def OutFile.write (f : OutFile) (n : Node) (diff len : ℤ) : Option OutFile :=
  if diff < 0 then none
  else if f.bad then some f
  else if len < 0 then some { f with bad := true }
  else some { f with bytes := f.bytes ++ (n.ptr.drop diff.toNat).take len.toNat }

def writeChain (b : ℕ) : List Node → ℤ → ℤ → OutFile → Option OutFile
  | [], _, readSize, f => if 0 < readSize then none else some f
  | n :: rest, pos, readSize, f =>
    if 0 < readSize then
      if b = 0 then none
      else do
        let diff := intOfSize (pos % b).toNat
        let len := (if (b : ℤ) < readSize then (b : ℤ) else readSize) - diff
        writeChain b rest (pos + len) (readSize - len) (← f.write n diff len)
    else some f

def chain (ba : ByteArray) : List Node :=
  match ba.cur with
  | none => []
  | some i => ba.nodes.drop i

/-- `writeToFile`, where `opened` says whether the file could be opened: the result
and what the file holds then. -/
def writeToFile (opened : Bool) : Run Exn ByteArray (Bool × List UInt8) := fun ba =>
  if !opened then .ok (false, []) ba
  else
    match writeChain ba.baseSize ba.chain ba.position ba.getReadSize ⟨[], false⟩ with
    | none => .crash
    | some f => .ok (true, f.bytes) ba

/-- The loop of `readFromFile` over what is left of the file. A read that asks for
more than that sets `eof()`. The value says whether the loop has ended within the
given number of rounds. -/
def readPieces : ℕ → List UInt8 → Run Exn ByteArray Bool
  | 0, _ => pure false
  | rounds + 1, file => do
    let ba ← Run.get
    write (file.take ba.baseSize)
    if file.length < ba.baseSize then pure true
    else readPieces rounds (file.drop ba.baseSize)

/-- `readFromFile` of a file with the given bytes, `none` if it cannot be opened. The
result is `none` as long as the function has not returned after so many rounds. -/
def readFromFile (rounds : ℕ) (file : Option (List UInt8)) : Run Exn ByteArray (Option Bool) :=
  match file with
  | none => pure (some false)
  | some file => do
    let done ← readPieces rounds file
    pure (if done then some true else none)

/-! Reading a file. -/

variable {ba : ByteArray}

theorem write_piece_total {buf : List UInt8} (h : ba.Wf) (hlen : buf.length ≤ ba.baseSize) :
    ∃ ba', write buf ba = .ok () ba' := by
  by_cases h0 : buf.length = 0
  · exact ⟨ba, by rw [write, if_pos h0]⟩
  have hpos := h.position_le
  have hsize := h.size_le
  by_cases hover : ba.getWriteSize < buf.length
  · obtain ⟨fresh, heap, heq, hcount, -⟩ := addCapacity_eq h hover
    have hone : 0 < fresh.length := by
      rw [hcount]
      exact ceilQuot_pos (by omega) h.base_pos
    have hgrow : ba.baseSize ≤ ba.baseSize * fresh.length := Nat.le_mul_of_pos_right _ hone
    obtain ⟨ba', hw, -⟩ := write_of_room h h0 heq (by dsimp only; omega)
    exact ⟨ba', hw⟩
  · have heq : ba.addCapacity buf.length = some ba := by
      rw [addCapacity, if_neg h0, if_pos (not_lt.mp hover)]
    unfold getWriteSize at hover
    obtain ⟨ba', hw, -⟩ := write_of_room h h0 heq (by omega)
    exact ⟨ba', hw⟩

theorem readPieces_ok (h : ba.Wf) (hend : ba.position = ba.size) (file : List UInt8) :
    ∃ rounds ba', readPieces rounds file ba = .ok true ba' ∧
      ba'.contents = ba.contents ++ file := by
  induction hn : file.length using Nat.strong_induction_on generalizing file ba with
  | _ n ih =>
    subst hn
    have hb := h.base_pos
    have hpiece : (file.take ba.baseSize).length ≤ ba.baseSize := by simp
    obtain ⟨ba₁, hw⟩ := write_piece_total h hpiece
    have hwritten := write_ok h hw
    have hcontents : ba₁.contents = ba.contents ++ file.take ba.baseSize := by
      have hlen : ba.contents.length = ba.position := by rw [length_contents h, hend]
      rw [hwritten.contents_eq, splice, ← hlen, take_length, drop_eq_nil_of_le (by omega),
        append_nil]
    by_cases hlast : file.length < ba.baseSize
    · refine ⟨1, ba₁, ?_, ?_⟩
      · rw [readPieces, Run.bind_ok (Run.get_run ba), Run.bind_ok hw, if_pos hlast]
        rfl
      · rw [hcontents, take_of_length_le hlast.le]
    · have hend₁ : ba₁.position = ba₁.size := by
        rw [hwritten.position_eq, hwritten.size_eq h, hend]
        omega
      obtain ⟨rounds, ba₂, hrest, hall⟩ :=
        ih _ (by rw [length_drop]; omega) hwritten.wf hend₁ (file.drop ba.baseSize) rfl
      refine ⟨rounds + 1, ba₂, ?_, ?_⟩
      · rw [readPieces, Run.bind_ok (Run.get_run ba), Run.bind_ok hw, if_neg hlast]
        exact hrest
      · rw [hall, hcontents, append_assoc, take_append_drop]

theorem Hollow.readPieces_false (h : Hollow ba) (rounds : ℕ) (file : List UInt8) :
    readPieces rounds file ba = .ok false ba := by
  induction rounds with
  | zero => rfl
  | succ rounds ih =>
    have hw : write (file.take ba.baseSize) ba = .ok () ba := by simp [h.baseSize_eq, write]
    rw [readPieces, Run.bind_ok (Run.get_run ba), Run.bind_ok hw, if_neg (by simp [h.baseSize_eq]),
      h.baseSize_eq, drop_zero]
    exact ih

/-! Writing a file. -/

section

variable {b : ℕ} {nodes rest : List Node} {n : Node} {i : ℕ} {pos readSize : ℤ} {f : OutFile}

theorem OutFile.write_natCast (bytes : List UInt8) (n : Node) (diff len : ℕ) :
    OutFile.write ⟨bytes, false⟩ n diff len =
      some ⟨bytes ++ (n.ptr.drop diff).take len, false⟩ := by
  simp [OutFile.write]

theorem OutFile.write_isSome {diff len : ℤ} (hdiff : 0 ≤ diff) :
    ∃ f', f.write n diff len = some f' := by
  unfold OutFile.write
  rw [if_neg (not_lt.mpr hdiff)]
  split_ifs <;> exact ⟨_, rfl⟩

theorem OutFile.write_inv {diff len : ℤ} {f' : OutFile} (h : f.write n diff len = some f') :
    0 ≤ diff ∧ ∃ k : ℕ, (k : ℤ) ≤ max len 0 ∧
      f'.bytes = f.bytes ++ (n.ptr.drop diff.toNat).take k := by
  unfold OutFile.write at h
  split_ifs at h with hdiff hbad hlen
  · cases h
    exact ⟨not_lt.mp hdiff, 0, by simp, by simp⟩
  · cases h
    exact ⟨not_lt.mp hdiff, 0, by simp, by simp⟩
  · cases h
    exact ⟨not_lt.mp hdiff, len.toNat, by simp, rfl⟩

theorem writeChain_done (b : ℕ) (chain : List Node) (pos : ℤ) (h : readSize ≤ 0) :
    writeChain b chain pos readSize f = some f := by
  cases chain <;> simp [writeChain, not_lt.mpr h]

theorem writeChain_cons (hb : 0 < b) (h : 0 < readSize) :
    writeChain b (n :: rest) pos readSize f = (do
      let diff := intOfSize (pos % b).toNat
      let len := (if (b : ℤ) < readSize then (b : ℤ) else readSize) - diff
      writeChain b rest (pos + len) (readSize - len) (← f.write n diff len)) := by
  rw [writeChain, if_pos h, if_neg hb.ne']

theorem chain_piece (hn : ∀ n ∈ nodes, n.size = b) (hchain : n :: rest = nodes.drop i) {o : ℕ}
    (hk : o + k ≤ b) :
    (n.ptr.drop o).take k = ((nodes.map Node.ptr).flatten.drop (b * i + o)).take k := by
  have hget : nodes[i]? = some n := by
    rw [← add_zero i, ← getElem?_drop, ← hchain]
    rfl
  obtain ⟨-, -, hi⟩ := chain_cons hn hchain
  rw [← peek_eq hn hi hk rfl, peek, hget]

theorem diff_eq (h : p % b < 2 ^ 31) : intOfSize ((p : ℤ) % b).toNat = (p % b : ℕ) := by
  rw [← Int.natCast_mod, Int.toNat_natCast]
  exact intOfSize_eq h

theorem writeChain_round (hb : 0 < b) {bytes : List UInt8} (hr : 0 < r)
    (hd : p % b < 2 ^ 31) (hk : p % b + k = min b r) :
    writeChain b (n :: rest) p r ⟨bytes, false⟩ =
      writeChain b rest (p + k : ℕ) (r - k : ℕ)
        ⟨bytes ++ (n.ptr.drop (p % b)).take k, false⟩ := by
  have hlen : (if (b : ℤ) < r then (b : ℤ) else r) - (p % b : ℕ) = k := by
    split_ifs <;> omega
  have hleft : (r : ℤ) - k = (r - k : ℕ) := by omega
  rw [writeChain_cons hb (by exact_mod_cast hr), diff_eq hd]
  simp only [hlen, OutFile.write_natCast, hleft, bind_eq_bind, bind_some]
  rw [cast_add]

theorem writeChain_aligned (hb : 0 < b) (hn : ∀ n ∈ nodes, n.size = b) :
    ∀ (chain : List Node) (i r : ℕ) (bytes : List UInt8), chain = nodes.drop i →
      b * i + r ≤ b * nodes.length →
      writeChain b chain (b * i : ℕ) r ⟨bytes, false⟩ =
        some ⟨bytes ++ ((nodes.map Node.ptr).flatten.drop (b * i)).take r, false⟩ := by
  intro chain
  induction chain with
  | nil =>
    intro i r bytes hchain hroom
    have hle := drop_eq_nil_iff.mp hchain.symm
    have hmul := Nat.mul_le_mul_left b hle
    obtain rfl : r = 0 := by omega
    simp [writeChain]
  | cons n rest ih =>
    intro i r bytes hchain hroom
    obtain ⟨hsize, hrest, hi⟩ := chain_cons hn hchain
    rcases Nat.eq_zero_or_pos r with rfl | hr
    · simp [writeChain]
    have hmod := Nat.mul_mod_right b i
    have hpiece := chain_piece hn hchain (o := 0) (k := min b r) (by omega)
    rw [writeChain_round hb hr (by omega) (k := min b r) (by omega), hmod, hpiece, Nat.add_zero]
    rcases le_total b r with hle | hle
    · have hstep := ih (i + 1) (r - b)
        (bytes ++ ((nodes.map Node.ptr).flatten.drop (b * i)).take b) hrest
        (by rw [Nat.mul_succ]; omega)
      rw [min_eq_left hle, ← Nat.mul_succ, hstep, append_assoc, Nat.mul_succ,
        ← drop_drop, ← take_add, Nat.add_sub_cancel' hle]
    · rw [min_eq_right hle, Nat.sub_self]
      exact writeChain_done _ _ _ le_rfl

theorem writeChain_all (hb : 0 < b) (hn : ∀ n ∈ nodes, n.size = b) (hr : 0 < r)
    (hroom : p + r ≤ b * nodes.length) (hint : p % b < 2 ^ 31) (hfits : p % b = 0 ∨ b ≤ r) :
    writeChain b (nodes.drop (p / b)) p r ⟨[], false⟩ =
      some ⟨((nodes.map Node.ptr).flatten.drop p).take r, false⟩ := by
  have hdiv := Nat.div_add_mod p b
  have hmod := Nat.mod_lt p hb
  by_cases hstart : p % b = 0
  · have hp : b * (p / b) = p := by omega
    have hall := writeChain_aligned hb hn _ (p / b) r [] rfl (by omega)
    rwa [hp, nil_append] at hall
  · have hi : p / b < nodes.length := Nat.div_lt_of_lt_mul (by omega)
    have hchain := drop_eq_getElem_cons hi
    have hnext : p + (b - p % b) = b * (p / b + 1) := by
      rw [Nat.mul_succ]
      omega
    rw [hchain, writeChain_round hb hr hint (k := b - p % b) (by omega), hnext,
      chain_piece hn hchain.symm (by omega), hdiv,
      writeChain_aligned hb hn _ (p / b + 1) _ _ rfl (by omega), nil_append, ← hnext,
      ← drop_drop, ← take_add, Nat.add_sub_cancel' (by omega)]

/-- Once a piece shorter than a node starts inside a node, offset and rest change places
in every round until the chain ends. -/
theorem writeChain_crash (hb : b ≤ 2 ^ 31) : ∀ (chain : List Node) (p r : ℕ) (f : OutFile),
    p % b ≠ 0 → 0 < r → r < b → writeChain b chain p r f = none := by
  intro chain
  induction chain with
  | nil =>
    intro p r f _ hr _
    simp [writeChain, hr]
  | cons n rest ih =>
    intro p r f hd hr hrb
    have hmod := mod_lt p (by omega : 0 < b)
    have hdiv := div_add_mod p b
    have hlen : ¬ (b : ℤ) < r := by omega
    obtain ⟨f', hf'⟩ : ∃ f', f.write n (p % b : ℕ) (r - (p % b : ℕ)) = some f' :=
      OutFile.write_isSome (by omega)
    have hpos : (p : ℤ) + (r - (p % b : ℕ)) = (b * (p / b) + r : ℕ) := by
      rw [cast_add]
      omega
    have hnext : (b * (p / b) + r) % b = r := by
      rw [mul_add_mod, mod_eq_of_lt hrb]
    rw [writeChain_cons (by omega) (by exact_mod_cast hr), diff_eq (by omega)]
    simp only [if_neg hlen, hf', bind_eq_bind, bind_some, hpos, sub_sub_cancel]
    exact ih _ (p % b) f' (by omega) (by omega) (by omega)

theorem writeChain_appends : ∀ (chain : List Node) (pos readSize : ℤ) (f f' : OutFile),
    writeChain b chain pos readSize f = some f' →
    ∃ extra, f'.bytes = f.bytes ++ extra ∧ ∀ x ∈ extra, ∃ n ∈ chain, x ∈ n.ptr := by
  intro chain
  induction chain with
  | nil =>
    intro pos readSize f f' h
    simp only [writeChain, ite_none_left_eq_some, Option.some.injEq] at h
    exact ⟨[], by simp [h.2], by simp⟩
  | cons n rest ih =>
    intro pos readSize f f' h
    by_cases hr : 0 < readSize
    · rcases Nat.eq_zero_or_pos b with rfl | hb
      · simp [writeChain, hr] at h
      rw [writeChain_cons hb hr] at h
      obtain ⟨f₁, hf₁, hrest⟩ := bind_eq_some_iff.mp h
      obtain ⟨extra, hextra, hmem⟩ := ih _ _ _ _ hrest
      obtain ⟨-, k, -, hpiece⟩ := OutFile.write_inv hf₁
      refine ⟨(n.ptr.drop (intOfSize (pos % b).toNat).toNat).take k ++ extra,
        by rw [hextra, hpiece, append_assoc], ?_⟩
      intro x hx
      rcases mem_append.mp hx with hx | hx
      · exact ⟨n, mem_cons_self, mem_of_mem_drop (mem_of_mem_take hx)⟩
      · obtain ⟨m, hm, hxm⟩ := hmem x hx
        exact ⟨m, mem_cons_of_mem n hm, hxm⟩
    · rw [writeChain_done _ _ _ (not_lt.mp hr)] at h
      cases h
      exact ⟨[], by simp, by simp⟩

theorem getElem?_memory (hn : ∀ n ∈ nodes, n.size = b) (hi : nodes[i]? = some n) {o : ℕ}
    {x : UInt8} (ho : n.ptr[o]? = some x) :
    (nodes.map Node.ptr).flatten[b * i + o]? = some x := by
  have hlen : n.ptr.length = b := hn n (mem_of_getElem? hi)
  have hlt : o < b := by
    obtain ⟨hlt, -⟩ := List.getElem?_eq_some_iff.mp ho
    omega
  rw [getElem?_flatten_blocks (length_of_mem_ptr hn) (by rw [List.getElem?_map, hi]; rfl) hlt, ho]

/-- A byte that stands only at one address of the cursor's node is not at its place in the
file when the first piece starts at another offset or ends in front of it. -/
theorem writeChain_misses (hn : ∀ n ∈ nodes, n.size = b) (hb : 0 < b) {f' : OutFile}
    (hk : k < r) (hnode : p + k < b * (p / b + 1))
    (hmark : ∀ a, (nodes.map Node.ptr).flatten[a]? = some 1 ↔ a = p + k)
    (hbad : intOfSize (p % b) ≠ (p % b : ℕ) ∨ min b r ≤ p % b + k)
    (hrun : writeChain b (nodes.drop (p / b)) p r ⟨[], false⟩ = some f') :
    f'.bytes[k]? ≠ some 1 := by
  intro hbyte
  cases hchain : nodes.drop (p / b) with
  | nil => simp [hchain, writeChain, show 0 < r by omega] at hrun
  | cons n rest =>
    have hget : nodes[p / b]? = some n := by
      rw [← add_zero (p / b), ← List.getElem?_drop, hchain]
      rfl
    obtain ⟨-, hrest, -⟩ := chain_cons hn hchain.symm
    have hdiff : intOfSize (((p : ℤ) % b).toNat) = intOfSize (p % b) := by
      rw [← Int.natCast_mod, Int.toNat_natCast]
    rw [hchain, writeChain_cons hb (by omega), hdiff] at hrun
    generalize intOfSize (p % b) = diff at hrun hbad
    obtain ⟨f₁, hf₁, htail⟩ := bind_eq_some_iff.mp hrun
    obtain ⟨hpos, j, hj, hpiece⟩ := OutFile.write_inv hf₁
    obtain ⟨extra, hextra, hmem⟩ := writeChain_appends _ _ _ _ _ htail
    rw [hextra] at hbyte
    have hdiv := div_add_mod p b
    rcases lt_or_ge k f₁.bytes.length with hfirst | hlater
    · -- the byte is in the first piece, so the piece starts at the cursor
      rw [List.getElem?_append_left hfirst, hpiece, nil_append] at hbyte
      obtain ⟨hkj, -⟩ := List.getElem?_eq_some_iff.mp hbyte
      rw [length_take] at hkj
      rw [List.getElem?_take_of_lt (by omega), List.getElem?_drop] at hbyte
      have haddr := (hmark _).mp (getElem?_memory hn hget hbyte)
      have hstart : diff = (p % b : ℕ) := by omega
      rcases hbad with hbad | hbad
      · exact hbad hstart
      · split_ifs at hj <;> omega
    · -- the later pieces are from the nodes behind it
      rw [List.getElem?_append_right hlater] at hbyte
      obtain ⟨m, hm, hone⟩ := hmem 1 (mem_of_getElem? hbyte)
      obtain ⟨q, hq⟩ := mem_iff_getElem?.mp hm
      obtain ⟨o, ho⟩ := mem_iff_getElem?.mp hone
      rw [hrest, List.getElem?_drop] at hq
      have haddr := (hmark _).mp (getElem?_memory hn hq ho)
      rw [mul_add] at haddr
      omega

end

/-- The cursor is at the start of a node, or a whole node's worth of bytes is left; and its
offset in the node fits an `int`. -/
def FileSafe (ba : ByteArray) : Prop :=
  ba.getReadSize = 0 ∨ (ba.position % ba.baseSize < 2 ^ 31 ∧
    (ba.position % ba.baseSize = 0 ∨ ba.baseSize ≤ ba.getReadSize))

/-- `writeToFile` stores what `toString` returns, and `readFromFile` returns with `dst`
holding just that. -/
def FileExact (ba dst : ByteArray) : Prop :=
  ∃ file, toString ba = .ok file ba ∧ writeToFile true ba = .ok (true, file) ba ∧
    ∃ rounds dst', readFromFile rounds (some file) dst = .ok (some true) dst' ∧
      dst'.contents = file

theorem chain_eq (h : ba.Wf) (h0 : 0 < ba.getReadSize) :
    ba.chain = ba.nodes.drop (ba.position / ba.baseSize) := by
  have hsize := h.size_le
  unfold getReadSize at h0
  rw [chain, h.cur_eq, curAt_of_lt (by rw [← h.capacity_eq]; omega)]

theorem Reachable.wf_of_unread (hr : Reachable ba) (h0 : 0 < ba.getReadSize) : ba.Wf :=
  hr.wf_or_hollow.resolve_right fun h => h0.ne' h.getReadSize_eq

theorem Hollow.unread_eq (h : Hollow ba) : ba.unread = [] := by
  simp [unread, contents, h.size_eq]

theorem Reachable.toString_ok (hr : Reachable ba) : toString ba = .ok ba.unread ba := by
  rcases hr.wf_or_hollow with h | h
  · exact ByteArray.toString_ok h
  · rw [toString, if_pos h.getReadSize_eq, h.unread_eq]

theorem writeToFile_of_chain {f : OutFile}
    (h : writeChain ba.baseSize ba.chain ba.position ba.getReadSize ⟨[], false⟩ = some f) :
    writeToFile true ba = .ok (true, f.bytes) ba := by
  simp [writeToFile, h]

theorem FileSafe.writeToFile_ok (hr : Reachable ba) (hs : FileSafe ba) :
    writeToFile true ba = .ok (true, ba.unread) ba := by
  rcases Nat.eq_zero_or_pos ba.getReadSize with h0 | h0
  · have hnil : ba.unread = [] := by
      rcases hr.wf_or_hollow with h | h
      · exact length_eq_zero_iff.mp ((length_unread h).trans h0)
      · exact h.unread_eq
    rw [writeToFile_of_chain (writeChain_done _ _ _ (by omega)), hnil]
  have h := hr.wf_of_unread h0
  have hb := h.base_pos
  have hcap := h.capacity_eq
  have hpos := h.position_le
  have hsize := h.size_le
  obtain ⟨hint, hfits⟩ := hs.resolve_left h0.ne'
  have hrun := writeChain_all hb h.node_size h0 (by unfold getReadSize; omega) hint hfits
  have hall := take_drop_memory h (k := ba.getReadSize) le_rfl
  rw [← length_unread h, take_length, length_unread h] at hall
  rw [← chain_eq h h0] at hrun
  rw [writeToFile_of_chain hrun, ← hall]
  rfl

theorem not_fileSafe_iff : ¬ FileSafe ba ↔ 0 < ba.getReadSize ∧
    (2 ^ 31 ≤ ba.position % ba.baseSize ∨
      (ba.position % ba.baseSize ≠ 0 ∧ ba.getReadSize < ba.baseSize)) := by
  unfold FileSafe
  omega

theorem not_fileSafe_crash (h : ba.Wf) (hb : ba.baseSize ≤ 2 ^ 31) (hs : ¬ FileSafe ba) :
    writeToFile true ba = .crash := by
  obtain ⟨h0, hd⟩ := not_fileSafe_iff.mp hs
  have hmod := mod_lt ba.position h.base_pos
  have hshort := hd.resolve_left (by omega)
  simp [writeToFile, writeChain_crash hb ba.chain _ _ ⟨[], false⟩ hshort.1 h0 hshort.2]

theorem getElem?_unread (hk : k < ba.getReadSize) :
    ba.unread[k]? = ba.memory[ba.position + k]? := by
  unfold getReadSize at hk
  rw [unread, getElem?_drop, contents, getElem?_take_of_lt (by omega)]

def missedByte (ba : ByteArray) : ℕ :=
  if 2 ^ 31 ≤ ba.position % ba.baseSize then 0
  else ba.getReadSize - ba.position % ba.baseSize

theorem not_fileSafe_wrong (hr : Reachable ba) (hs : ¬ FileSafe ba) :
    ∃ ba', Reachable ba' ∧ ba'.shape = ba.shape ∧
      writeToFile true ba' ≠ .ok (true, ba'.unread) ba' := by
  have h0 := pos_of_ne_zero fun h => hs (.inl h)
  have h := hr.wf_of_unread h0
  have hd := (not_fileSafe_iff.mp hs).2
  have hmod := mod_lt ba.position h.base_pos
  have hdiv := div_add_mod ba.position ba.baseSize
  have hbound := h.size_le
  have hk : ba.missedByte < ba.getReadSize ∧
      ba.position % ba.baseSize + ba.missedByte < ba.baseSize ∧
      (intOfSize (ba.position % ba.baseSize) ≠ (ba.position % ba.baseSize : ℕ) ∨
        min ba.baseSize ba.getReadSize ≤ ba.position % ba.baseSize + ba.missedByte) := by
    have hint := intOfSize_lt (ba.position % ba.baseSize)
    generalize intOfSize (ba.position % ba.baseSize) = diff at hint
    unfold missedByte
    split_ifs <;> omega
  obtain ⟨hlt, hnode, hbad⟩ := hk
  obtain ⟨ba', hr', h', hs', hmark⟩ := hr.exists_marked h (p := ba.position + ba.missedByte)
    (by unfold getReadSize at hlt; omega)
  obtain ⟨hbase, hpos, hsize, -⟩ := shape_eq_iff.mp hs'
  have hread : ba'.getReadSize = ba.getReadSize := by rw [getReadSize, hsize, hpos]; rfl
  refine ⟨ba', hr', hs', fun hfile => ?_⟩
  have hbyte : ba'.unread[ba.missedByte]? = some 1 := by
    rw [getElem?_unread (by omega), hpos]
    exact (hmark _).mpr rfl
  cases hrun : writeChain ba'.baseSize ba'.chain ba'.position ba'.getReadSize ⟨[], false⟩ with
  | none => simp [writeToFile, hrun] at hfile
  | some f =>
    have hbytes : f.bytes = ba'.unread := by
      rw [writeToFile_of_chain hrun] at hfile
      simpa using hfile
    rw [chain_eq h' (by omega), hread, hbase, hpos] at hrun
    rw [← hbytes] at hbyte
    refine writeChain_misses ?_ h.base_pos hlt ?_ hmark hbad hrun hbyte
    · rw [← hbase]
      exact h'.node_size
    · rw [mul_succ]
      omega

theorem readFromFile_eq_some_iff {rounds : ℕ} {file : List UInt8} {dst' : ByteArray} :
    readFromFile rounds (some file) dst = .ok (some true) dst' ↔
      readPieces rounds file dst = .ok true dst' := by
  rw [readFromFile, Run.bind_eq_ok_iff]
  constructor
  · rintro ⟨done, t, hrun, hdone⟩
    cases done <;> simp_all
  · intro hrun
    exact ⟨true, dst', hrun, rfl⟩

theorem readFromFile_iff (hd : Reachable dst) (hempty : dst.size = 0) (file : List UInt8) :
    (∃ rounds dst', readFromFile rounds (some file) dst = .ok (some true) dst' ∧
      dst'.contents = file) ↔ 0 < dst.baseSize := by
  simp only [readFromFile_eq_some_iff]
  rcases hd.wf_or_hollow with h | h
  · refine iff_of_true ?_ h.base_pos
    have hend : dst.position = dst.size := by
      have := h.position_le
      omega
    obtain ⟨rounds, dst', hrun, hcontents⟩ := readPieces_ok h hend file
    refine ⟨rounds, dst', hrun, ?_⟩
    rw [hcontents, contents, hempty, take_zero, nil_append]
  · refine iff_of_false ?_ (by simp [h.baseSize_eq])
    rintro ⟨rounds, dst', hrun, -⟩
    rw [h.readPieces_false] at hrun
    cases hrun

theorem fileExact_iff (hr : Reachable ba) (hd : Reachable dst) (hempty : dst.size = 0) :
    FileExact ba dst ↔ writeToFile true ba = .ok (true, ba.unread) ba ∧ 0 < dst.baseSize := by
  simp only [FileExact, readFromFile_iff hd hempty, hr.toString_ok]
  constructor
  · rintro ⟨file, hfile, hwrite, hpos⟩
    cases hfile
    exact ⟨hwrite, hpos⟩
  · rintro ⟨hwrite, hpos⟩
    exact ⟨_, rfl, hwrite, hpos⟩

theorem fileSafe_of_shape_eq {ba' : ByteArray} (hs : ba'.shape = ba.shape) :
    FileSafe ba' ↔ FileSafe ba := by
  obtain ⟨hbase, hpos, hsize, -⟩ := shape_eq_iff.mp hs
  rw [FileSafe, FileSafe, getReadSize, getReadSize, hbase, hpos, hsize]

/-- The file has the unread bytes and can be read back, in one array whose nodes are of at
most `2 ^ 31` bytes as in all arrays of a shape, exactly when the array is safe and the
nodes of the other one hold a byte. -/
theorem writeToFile_exact_iff_safe {ba dst : ByteArray} (hr : Reachable ba) (hd : Reachable dst)
    (hempty : dst.size = 0) :
    (ba.baseSize ≤ 2 ^ 31 → (FileExact ba dst ↔ FileSafe ba ∧ 0 < dst.baseSize)) ∧
    ((∀ ba', Reachable ba' → ba'.shape = ba.shape → FileExact ba' dst) ↔
      FileSafe ba ∧ 0 < dst.baseSize) := by
  constructor
  · intro hb
    rw [fileExact_iff hr hd hempty]
    refine and_congr_left fun _ => ⟨fun hwrite => ?_, fun hs => hs.writeToFile_ok hr⟩
    by_contra hs
    have h := hr.wf_of_unread (pos_of_ne_zero fun h => hs (.inl h))
    rw [not_fileSafe_crash h hb hs] at hwrite
    cases hwrite
  · constructor
    · intro hall
      refine ⟨?_, ((fileExact_iff hr hd hempty).mp (hall ba hr rfl)).2⟩
      by_contra hs
      obtain ⟨ba', hr', hs', hwrong⟩ := not_fileSafe_wrong hr hs
      exact hwrong ((fileExact_iff hr' hd hempty).mp (hall ba' hr' hs')).1
    · rintro ⟨hs, hpos⟩ ba' hr' hs'
      refine (fileExact_iff hr' hd hempty).mpr ⟨?_, hpos⟩
      exact FileSafe.writeToFile_ok hr' ((fileSafe_of_shape_eq hs').mpr hs)

theorem writeToFile_exact_iff_safe_wrap :
    FileSafe (wrap [1, 2, 3] fun _ => 0) ∧
      FileExact (wrap [1, 2, 3] fun _ => 0) (create 2 fun _ => 0) := by
  have hsafe : FileSafe (wrap [1, 2, 3] fun _ => 0) := by simp [FileSafe, wrap]
  refine ⟨hsafe, ?_⟩
  exact ((writeToFile_exact_iff_safe (.wrap _ _) (.create 2 _) rfl).1 (by simp [wrap])).mpr
    ⟨hsafe, by simp [create]⟩

/-- One byte of three has been read: the piece of two bytes loses the offset one, and the
loop runs off the chain. -/
theorem writeToFile_after_read_crash :
    ∃ ba, Reachable ba ∧ toString ba = .ok [2, 3] ba ∧ writeToFile true ba = .crash := by
  have hread : read 1 (wrap [1, 2, 3] fun _ => 0) = .ok [1] _ := rfl
  have hr : Reachable _ := .read (.wrap _ _) hread
  refine ⟨_, hr, rfl, not_fileSafe_crash (hr.wf_of_unread (by decide)) (by decide) ?_⟩
  exact not_fileSafe_iff.mpr (by decide)

end JKYi.ByteArray
