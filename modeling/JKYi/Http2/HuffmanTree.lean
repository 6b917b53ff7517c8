import JKYi.Http2.HuffmanTable

/-!
# The decoding tree

`hf_init` builds a tree that is walked one byte at a time. A code word marks
the nodes on its whole bytes as inner ones, and every byte that its last bits
can be completed to as a leaf. An inner node is told from a leaf by `size`, the
number of leaves directly below it.
-/

namespace JKYi.Http2

open List

structure HuffNode where
  children : UInt8 → Option HuffNode
  sym : UInt8
  code : ℕ
  codeLen : ℕ
  size : ℕ

def nodeCreate : HuffNode := ⟨fun _ => none, 0, 0, 0, 0⟩

def HuffNode.child (cur : HuffNode) (i : UInt8) : HuffNode := (cur.children i).getD nodeCreate

def HuffNode.setChild (cur : HuffNode) (i : UInt8) (child : HuffNode) : HuffNode :=
  { cur with children := Function.update cur.children i (some child) }

def addLeaves (sym : UInt8) (code codeLen : ℕ) : ℕ → ℕ → HuffNode → HuffNode
  | 0, _, cur => cur
  | count + 1, j, cur =>
    let leaf := { cur.child (UInt8.ofNat j) with code := code, sym := sym, codeLen := codeLen }
    addLeaves sym code codeLen count (j + 1)
      { cur.setChild (UInt8.ofNat j) leaf with size := cur.size + 1 }

def hfAddNode (sym : UInt8) (code codeLen : ℕ) (cur : HuffNode) : HuffNode :=
  if 8 < codeLen then
    let i := UInt8.ofNat (code >>> (codeLen - 8))
    cur.setChild i (hfAddNode sym code (codeLen - 8) (cur.child i))
  else
    let shift := 8 - codeLen
    let start := (code <<< shift) % 256
    addLeaves sym code codeLen (2 ^ shift) start cur
termination_by codeLen

@[irreducible] def hfInit : HuffNode :=
  (List.range 256).foldl
    (fun root i => hfAddNode (UInt8.ofNat i) (hexToHfCode (UInt8.ofNat i))
      (hexToHfCodeLen (UInt8.ofNat i)) root)
    nodeCreate

variable {b : UInt8}

namespace HuffNode

def find : HuffNode → List UInt8 → Option HuffNode
  | n, [] => some n
  | n, b :: p => (n.children b).bind fun child => child.find p

structure Info where
  sym : UInt8
  codeLen : ℕ
  size : ℕ

def Info.blank : Info := ⟨0, 0, 0⟩

def info (n : HuffNode) (p : List UInt8) : Option Info :=
  (n.find p).map fun m => ⟨m.sym, m.codeLen, m.size⟩

@[simp] theorem find_nil (n : HuffNode) : n.find [] = some n := rfl

theorem find_append (n : HuffNode) (p q : List UInt8) :
    n.find (p ++ q) = (n.find p).bind fun m => m.find q := by
  induction p generalizing n with
  | nil => rfl
  | cons b p ih =>
    simp only [cons_append, find]
    cases n.children b with
    | none => rfl
    | some child => exact ih child

theorem info_nil (n : HuffNode) : n.info [] = some ⟨n.sym, n.codeLen, n.size⟩ := rfl

theorem info_cons (n : HuffNode) (b : UInt8) (p : List UInt8) :
    n.info (b :: p) = (n.children b).bind fun child => child.info p := by
  rw [info, find]
  cases n.children b <;> rfl

theorem info_child_cons (n : HuffNode) (b c : UInt8) (p : List UInt8) :
    (n.child b).info (c :: p) = n.info (b :: c :: p) := by
  rw [info_cons n, child]
  cases n.children b <;> rfl

theorem info_child_nil (n : HuffNode) (b : UInt8) :
    (n.child b).info [] = some ((n.info [b]).getD Info.blank) := by
  rw [info_cons n, child]
  cases n.children b <;> rfl

theorem info_setChild_self (n m : HuffNode) (b : UInt8) (p : List UInt8) :
    (n.setChild b m).info (b :: p) = m.info p := by
  simp [info_cons, setChild]

theorem info_setChild_ne (n m : HuffNode) {c : UInt8} (h : c ≠ b) (p : List UInt8) :
    (n.setChild b m).info (c :: p) = n.info (c :: p) := by
  simp [info_cons, setChild, h]

end HuffNode

open HuffNode

def Interior (w : List Bool) (p : List UInt8) : Prop := byteBits p <+: w ∧ 8 * p.length < w.length

def LeafSlot (w : List Bool) (p : List UInt8) : Prop :=
  w <+: byteBits p ∧ 8 * p.length < w.length + 8

theorem info_addLeaves (sym : UInt8) (code codeLen : ℕ) (count j : ℕ) (cur : HuffNode)
    (h : j + count ≤ 256) (b : UInt8) (p : List UInt8) :
    (addLeaves sym code codeLen count j cur).info (b :: p) =
      if j ≤ b.toNat ∧ b.toNat < j + count ∧ p = [] then
        some ⟨sym, codeLen, ((cur.info [b]).getD Info.blank).size⟩
      else cur.info (b :: p) := by
  induction count generalizing j cur with
  | zero =>
    rw [if_neg (by omega)]
    rfl
  | succ count ih =>
    have hj : (UInt8.ofNat j).toNat = j := UInt8.toNat_ofNat_of_lt' (by rw [UInt8.size]; omega)
    have hkids : ∀ (n : HuffNode) (k : ℕ) (q : List UInt8),
        ({ n with size := k } : HuffNode).info (b :: q) = n.info (b :: q) := fun n k q => by
      rw [info_cons, info_cons]
    rw [addLeaves, ih _ _ (by omega), hkids, hkids]
    by_cases hb : b = UInt8.ofNat j
    · subst hb
      rw [if_neg (by omega), info_setChild_self]
      cases p with
      | nil =>
        have hold := Option.some.inj (info_child_nil cur (UInt8.ofNat j))
        rw [if_pos ⟨by omega, by omega, rfl⟩, ← hold]
        rfl
      | cons c p =>
        rw [if_neg (by simp), ← info_child_cons]
        rfl
    · have hne : b.toNat ≠ j := fun heq => hb (by rw [← heq, UInt8.ofNat_toNat])
      have hrange : (j + 1 ≤ b.toNat ∧ b.toNat < j + 1 + count ∧ p = []) ↔
          (j ≤ b.toNat ∧ b.toNat < j + (count + 1) ∧ p = []) :=
        ⟨fun h => ⟨by omega, by omega, h.2.2⟩, fun h => ⟨by omega, by omega, h.2.2⟩⟩
      simp only [info_setChild_ne _ _ hb, hrange]

theorem addLeaves_own (sym : UInt8) (code codeLen : ℕ) (count j : ℕ) (cur : HuffNode) :
    (addLeaves sym code codeLen count j cur).info [] =
      some ⟨cur.sym, cur.codeLen, cur.size + count⟩ := by
  induction count generalizing j cur with
  | zero => rfl
  | succ count ih =>
    rw [addLeaves, ih, HuffNode.setChild, Nat.add_right_comm]
    rfl

variable {w : List Bool}

theorem interior_nil (hw : 0 < w.length) : Interior w [] :=
  ⟨List.nil_prefix, by simpa using hw⟩

variable {i : UInt8} {q : List UInt8}

theorem interior_cons :
    Interior (bits 8 i.toNat ++ w) (b :: q) ↔ b = i ∧ Interior w q := by
  unfold Interior
  rw [byteBits_cons, append_prefix_append_iff (by simp), length_append, length_bits,
    length_cons]
  constructor
  · rintro ⟨⟨hbyte, hpre⟩, hlen⟩
    exact ⟨bits_byte_inj hbyte, hpre, by omega⟩
  · rintro ⟨rfl, hpre, hlen⟩
    exact ⟨⟨rfl, hpre⟩, by omega⟩

theorem leafSlot_cons :
    LeafSlot (bits 8 i.toNat ++ w) (b :: q) ↔ b = i ∧ LeafSlot w q := by
  unfold LeafSlot
  rw [byteBits_cons, append_prefix_append_iff (by simp), length_append, length_bits,
    length_cons]
  constructor
  · rintro ⟨⟨hbyte, hpre⟩, hlen⟩
    exact ⟨(bits_byte_inj hbyte).symm, hpre, by omega⟩
  · rintro ⟨rfl, hpre, hlen⟩
    exact ⟨⟨rfl, hpre⟩, by omega⟩

variable {l : ℕ}

theorem byte_pow_split (hl : l ≤ 8) : 256 = 2 ^ l * 2 ^ (8 - l) := by
  rw [← pow_add, Nat.add_sub_cancel' hl]
  norm_num

theorem leaf_start_eq (code : ℕ) (hl : l ≤ 8) :
    (code <<< (8 - l)) % 256 = code % 2 ^ l * 2 ^ (8 - l) := by
  rw [Nat.shiftLeft_eq, byte_pow_split hl, Nat.mul_mod_mul_right]

variable {code : ℕ}

theorem leafSlot_short (h0 : 0 < l) (hl : l ≤ 8) :
    LeafSlot (bits l code) (b :: q) ↔ (code <<< (8 - l)) % 256 ≤ b.toNat ∧
      b.toNat < (code <<< (8 - l)) % 256 + 2 ^ (8 - l) ∧ q = [] := by
  have hquot : b.toNat / 2 ^ (8 - l) % 2 ^ l = b.toNat / 2 ^ (8 - l) := by
    apply Nat.mod_eq_of_lt
    rw [Nat.div_lt_iff_lt_mul (Nat.two_pow_pos _), ← byte_pow_split hl]
    exact b.toNat_lt
  have hbyte : bits l code <+: bits 8 b.toNat ↔ code % 2 ^ l * 2 ^ (8 - l) ≤ b.toNat ∧
      b.toNat < code % 2 ^ l * 2 ^ (8 - l) + 2 ^ (8 - l) := by
    have hpos := Nat.two_pow_pos (8 - l)
    rw [bits_prefix_bits hl, hquot, eq_comm, Nat.div_eq_iff hpos]
    omega
  unfold LeafSlot
  rw [leaf_start_eq code hl, ← and_assoc, ← hbyte, byteBits_cons, length_bits, length_cons]
  constructor
  · rintro ⟨hpre, hlen⟩
    obtain rfl : q = [] := length_eq_zero_iff.mp (by omega)
    exact ⟨by simpa using hpre, rfl⟩
  · rintro ⟨hpre, rfl⟩
    exact ⟨by simpa using hpre, by simp; omega⟩

theorem bits_eq_byte_append (hl : 8 < l) :
    bits l code = bits 8 (UInt8.ofNat (code >>> (l - 8))).toNat ++ bits (l - 8) code := by
  have hbyte : bits 8 (UInt8.ofNat (code >>> (l - 8))).toNat = bits 8 (code >>> (l - 8)) := by
    rw [UInt8.toNat_ofNat']
    exact bits_mod 8 _
  rw [hbyte, ← bits_append, Nat.add_sub_cancel' hl.le]

structure Stamped (sym : UInt8) (code l : ℕ) (p : List UInt8) (old new : Option Info) : Prop where
  interior : Interior (bits l code) p → new = some
    { old.getD Info.blank with
      size := (old.getD Info.blank).size +
        if l ≤ 8 * p.length + 8 then 2 ^ (8 * p.length + 8 - l) else 0 }
  leaf : LeafSlot (bits l code) p →
    new = some ⟨sym, l + 8 - 8 * p.length, (old.getD Info.blank).size⟩
  other : ¬ Interior (bits l code) p → ¬ LeafSlot (bits l code) p → new = old

theorem stamped_short {sym : UInt8} (h0 : 0 < l) (hl : l ≤ 8) (cur : HuffNode)
    (p : List UInt8) : Stamped sym code l p (cur.info p) ((hfAddNode sym code l cur).info p) := by
  have hadd : hfAddNode sym code l cur =
      addLeaves sym code l (2 ^ (8 - l)) ((code <<< (8 - l)) % 256) cur := by
    rw [hfAddNode, if_neg (by omega)]
  have hroom : (code <<< (8 - l)) % 256 + 2 ^ (8 - l) ≤ 256 := by
    have hlt : code % 2 ^ l + 1 ≤ 2 ^ l := Nat.mod_lt _ (Nat.two_pow_pos l)
    rw [leaf_start_eq code hl]
    calc code % 2 ^ l * 2 ^ (8 - l) + 2 ^ (8 - l) = (code % 2 ^ l + 1) * 2 ^ (8 - l) := by ring
      _ ≤ 2 ^ l * 2 ^ (8 - l) := Nat.mul_le_mul_right _ hlt
      _ = 256 := (byte_pow_split hl).symm
  cases p with
  | nil =>
    rw [hadd, addLeaves_own]
    constructor
    · intro _
      simp [info_nil, hl]
    · rintro ⟨hpre, -⟩
      have := hpre.length_le
      simp at this
      omega
    · intro hno
      exact absurd (interior_nil (by simpa using h0)) hno
  | cons b q =>
    rw [hadd, info_addLeaves _ _ _ _ _ _ hroom]
    constructor
    · rintro ⟨-, hlen⟩
      simp at hlen
      omega
    · intro hleaf
      rw [if_pos ((leafSlot_short h0 hl).mp hleaf)]
      obtain ⟨-, -, rfl⟩ := (leafSlot_short h0 hl).mp hleaf
      simp
    · intro _ hleaf
      rw [if_neg (mt (leafSlot_short h0 hl).mpr hleaf)]

theorem getD_info_child (cur : HuffNode) (i : UInt8) (q : List UInt8) :
    ((cur.child i).info q).getD Info.blank = (cur.info (i :: q)).getD Info.blank := by
  cases q with
  | nil => rw [info_child_nil, Option.getD_some]
  | cons c q => rw [info_child_cons]

theorem Stamped.cons {sym : UInt8} {below old new : Option Info}
    (hl : 8 < l) (hword : bits l code = bits 8 i.toNat ++ bits (l - 8) code)
    (h : Stamped sym code (l - 8) q below new) (hold : below.getD Info.blank = old.getD Info.blank)
    (hsame : q ≠ [] → below = old) : Stamped sym code l (i :: q) old new := by
  obtain ⟨hint, hleaf, hother⟩ := h
  rw [hold] at hint hleaf
  have hcond : l - 8 ≤ 8 * q.length + 8 ↔ l ≤ 8 * (q.length + 1) + 8 := by omega
  have hexp : 8 * q.length + 8 - (l - 8) = 8 * (q.length + 1) + 8 - l := by omega
  have hlen : l - 8 + 8 - 8 * q.length = l + 8 - 8 * (q.length + 1) := by omega
  rw [hlen] at hleaf
  simp only [hcond, hexp] at hint
  constructor
  · intro hin
    rw [hword, interior_cons] at hin
    exact hint hin.2
  · intro hin
    rw [hword, leafSlot_cons] at hin
    exact hleaf hin.2
  · intro hno hno'
    rw [hword, interior_cons] at hno
    rw [hword, leafSlot_cons] at hno'
    have hnil : q ≠ [] := by
      rintro rfl
      exact hno ⟨rfl, interior_nil (by rw [length_bits]; omega)⟩
    rw [hother (fun hin => hno ⟨rfl, hin⟩) (fun hin => hno' ⟨rfl, hin⟩), hsame hnil]

theorem stamped_hfAddNode (sym : UInt8) (code : ℕ) (h0 : 0 < l) (cur : HuffNode)
    (p : List UInt8) : Stamped sym code l p (cur.info p) ((hfAddNode sym code l cur).info p) := by
  induction l using Nat.strong_induction_on generalizing cur p with
  | _ l ih =>
    by_cases hl : l ≤ 8
    · exact stamped_short h0 hl cur p
    · have hadd : hfAddNode sym code l cur = cur.setChild (UInt8.ofNat (code >>> (l - 8)))
          (hfAddNode sym code (l - 8) (cur.child (UInt8.ofNat (code >>> (l - 8))))) := by
        rw [hfAddNode, if_pos (by omega)]
      generalize hi : UInt8.ofNat (code >>> (l - 8)) = i at hadd
      have hword : bits l code = bits 8 i.toNat ++ bits (l - 8) code := by
        rw [← hi, bits_eq_byte_append (by omega)]
      rw [hadd]
      cases p with
      | nil =>
        constructor
        · intro _
          simp [info_nil, hl, setChild]
        · rintro ⟨hpre, -⟩
          have := hpre.length_le
          simp at this
          omega
        · intro hno
          exact absurd (interior_nil (by simpa using h0)) hno
      | cons b q =>
        by_cases hb : b = i
        · subst hb
          rw [info_setChild_self]
          refine (ih (l - 8) (by omega) (by omega) (cur.child b) q).cons (by omega) hword
            (getD_info_child cur b q) ?_
          intro hq
          obtain ⟨c, q', rfl⟩ := exists_cons_of_ne_nil hq
          exact info_child_cons cur b c q'
        · rw [info_setChild_ne _ _ hb]
          constructor
          · intro h
            rw [hword, interior_cons] at h
            exact absurd h.1 hb
          · intro h
            rw [hword, leafSlot_cons] at h
            exact absurd h.1 hb
          · intro _ _
            rfl

structure Built (done : List UInt8) (root : HuffNode) : Prop where
  leaf : ∀ ch ∈ done, ∀ p, LeafSlot (codeWord ch) p →
    root.info p = some ⟨ch, hexToHfCodeLen ch + 8 - 8 * p.length, 0⟩
  branch : ∀ ch ∈ done, ∀ p, Interior (codeWord ch) p → hexToHfCodeLen ch ≤ 8 * p.length + 8 →
    ∃ i, root.info p = some i ∧ 0 < i.size
  inner : ∀ p i, root.info p = some i → 0 < i.size → ∃ ch ∈ done, Interior (codeWord ch) p

variable {p : List UInt8}

theorem interior_leafSlot {a : UInt8} (ha : LeafSlot (codeWord a) p)
    (hb : Interior (codeWord b) p) : a = b :=
  codeWord_prefix_free (ha.1.trans hb.1)

theorem leafSlot_unique {a : UInt8} (ha : LeafSlot (codeWord a) p)
    (hb : LeafSlot (codeWord b) p) : a = b := by
  rcases prefix_or_prefix_of_prefix ha.1 hb.1 with h | h
  · exact codeWord_prefix_free h
  · exact (codeWord_prefix_free h).symm

theorem exists_of_getD_size {old : Option Info} (h : 0 < (old.getD Info.blank).size) :
    ∃ i, old = some i ∧ 0 < i.size := by
  cases old with
  | none => exact absurd h (Nat.lt_irrefl 0)
  | some i => exact ⟨i, rfl, h⟩

theorem built_nil : Built [] nodeCreate := by
  refine ⟨by simp, by simp, ?_⟩
  intro p i hi hsize
  cases p with
  | nil =>
    cases hi
    exact absurd hsize (Nat.lt_irrefl 0)
  | cons b p => cases hi

variable {ch : UInt8}

/-- Prefix freeness keeps the words apart: no leaf of one lies on the path of another. -/
theorem Built.add {done : List UInt8} {root : HuffNode} (h : Built done root)
    (hnew : ch ∉ done) :
    Built (ch :: done) (hfAddNode ch (hexToHfCode ch) (hexToHfCodeLen ch) root) := by
  have hlen : 0 < hexToHfCodeLen ch := lt_of_lt_of_le (by simp) (hexToHfCodeLen_ge ch)
  have hstamp : ∀ p, Stamped ch (hexToHfCode ch) (hexToHfCodeLen ch) p (root.info p) _ :=
    fun p => stamped_hfAddNode ch (hexToHfCode ch) hlen root p
  refine ⟨?_, ?_, ?_⟩
  · intro a ha p hleaf
    rcases mem_cons.mp ha with rfl | hdone
    · rw [(hstamp p).leaf hleaf]
      by_contra hne
      have hsize : 0 < ((root.info p).getD Info.blank).size := by
        rw [Nat.pos_iff_ne_zero]
        intro h0
        rw [h0] at hne
        exact hne rfl
      obtain ⟨i, hi, hpos⟩ := exists_of_getD_size hsize
      obtain ⟨b, hb, hin⟩ := h.inner p i hi hpos
      exact hnew (interior_leafSlot hleaf hin ▸ hb)
    · rw [(hstamp p).other, h.leaf a hdone p hleaf]
      · intro hin
        exact hnew (interior_leafSlot hleaf hin ▸ hdone)
      · intro hleaf'
        exact hnew (leafSlot_unique hleaf hleaf' ▸ hdone)
  · intro a ha p hin hshort
    rcases mem_cons.mp ha with rfl | hdone
    · refine ⟨_, (hstamp p).interior hin, ?_⟩
      have := Nat.two_pow_pos (8 * p.length + 8 - hexToHfCodeLen a)
      simp only [hshort, if_true]
      omega
    · obtain ⟨i, hi, hpos⟩ := h.branch a hdone p hin hshort
      by_cases hin' : Interior (codeWord ch) p
      · refine ⟨_, (hstamp p).interior hin', ?_⟩
        simp only [hi, Option.getD_some]
        omega
      · rw [(hstamp p).other hin']
        · exact ⟨i, hi, hpos⟩
        · intro hleaf
          exact hnew (interior_leafSlot hleaf hin ▸ hdone)
  · intro p i hi hpos
    by_cases hin : Interior (codeWord ch) p
    · exact ⟨ch, by simp, hin⟩
    · have hold : ∃ j, root.info p = some j ∧ 0 < j.size := by
        by_cases hleaf : LeafSlot (codeWord ch) p
        · rw [(hstamp p).leaf hleaf] at hi
          cases hi
          exact exists_of_getD_size hpos
        · rw [(hstamp p).other hin hleaf] at hi
          exact ⟨i, hi, hpos⟩
      obtain ⟨j, hj, hjpos⟩ := hold
      obtain ⟨b, hb, hbin⟩ := h.inner p j hj hjpos
      exact ⟨b, by simp [hb], hbin⟩

/-- What holds of the empty tree and survives the insertion of a new symbol holds of the
finished tree. -/
theorem hfInit_rule {P : List UInt8 → HuffNode → Prop} (hnil : P [] nodeCreate)
    (hadd : ∀ done root ch, P done root → ch ∉ done →
      P (ch :: done) (hfAddNode ch (hexToHfCode ch) (hexToHfCodeLen ch) root)) :
    ∃ done : List UInt8, (∀ ch, ch ∈ done) ∧ P done hfInit := by
  have hloop : ∀ k ≤ 256, ∃ done : List UInt8, (∀ ch, ch ∈ done ↔ ch.toNat < k) ∧
      P done ((List.range k).foldl (fun root i => hfAddNode (UInt8.ofNat i)
        (hexToHfCode (UInt8.ofNat i)) (hexToHfCodeLen (UInt8.ofNat i)) root) nodeCreate) := by
    intro k
    induction k with
    | zero =>
      intro _
      exact ⟨[], by simp, hnil⟩
    | succ k ih =>
      intro hk
      obtain ⟨done, hdone, hroot⟩ := ih (by omega)
      have hbyte : (UInt8.ofNat k).toNat = k := UInt8.toNat_ofNat_of_lt' (by rw [UInt8.size]; omega)
      refine ⟨UInt8.ofNat k :: done, ?_, ?_⟩
      · intro ch
        rw [mem_cons, hdone, ← UInt8.toNat_inj, hbyte]
        omega
      · rw [range_succ, foldl_append]
        apply hadd done _ _ hroot
        rw [hdone, hbyte]
        exact Nat.lt_irrefl k
  obtain ⟨done, hdone, hroot⟩ := hloop 256 le_rfl
  refine ⟨done, fun ch => (hdone ch).mpr ch.toNat_lt, ?_⟩
  unfold hfInit
  exact hroot

theorem built_hfInit : ∃ done : List UInt8, (∀ ch, ch ∈ done) ∧ Built done hfInit :=
  hfInit_rule built_nil fun _ _ _ hbuilt hnew => hbuilt.add hnew

theorem hfInit_only {i : Info} (hi : hfInit.info p = some i) (hp : p ≠ []) :
    ∃ ch, Interior (codeWord ch) p ∨ LeafSlot (codeWord ch) p := by
  obtain ⟨done, -, honly⟩ := hfInit_rule
    (P := fun _ root => ∀ p i, root.info p = some i → p ≠ [] →
      ∃ ch, Interior (codeWord ch) p ∨ LeafSlot (codeWord ch) p)
    (by
      intro p i hi hp
      obtain ⟨b, q, rfl⟩ := exists_cons_of_ne_nil hp
      cases hi)
    (by
      intro done root ch hroot _ p i hi hp
      have hlen : 0 < hexToHfCodeLen ch := lt_of_lt_of_le (by simp) (hexToHfCodeLen_ge ch)
      by_cases hword : Interior (codeWord ch) p ∨ LeafSlot (codeWord ch) p
      · exact ⟨ch, hword⟩
      · obtain ⟨hin, hleaf⟩ := not_or.mp hword
        rw [(stamped_hfAddNode ch (hexToHfCode ch) hlen root p).other hin hleaf] at hi
        exact hroot p i hi hp)
  exact honly p i hi hp

theorem hfInit_leaf (h : LeafSlot (codeWord ch) p) :
    hfInit.info p = some ⟨ch, hexToHfCodeLen ch + 8 - 8 * p.length, 0⟩ := by
  obtain ⟨done, hall, hbuilt⟩ := built_hfInit
  exact hbuilt.leaf ch (hall ch) p h

theorem hfInit_inner (hp : p ≠ []) (h : Interior (codeWord ch) p) :
    ∃ i, hfInit.info p = some i ∧ 0 < i.size := by
  obtain ⟨done, hall, hbuilt⟩ := built_hfInit
  have hlen := h.2
  rw [length_codeWord] at hlen
  obtain ⟨d, hlo, hhi, htake⟩ := exists_branch (length_pos_iff.mpr hp) hlen
  refine hbuilt.branch d (hall d) p ⟨?_, by simpa using hlo⟩ hhi
  have hpath := prefix_iff_eq_take.mp h.1
  rw [length_byteBits, ← htake] at hpath
  rw [hpath]
  exact take_prefix _ _

end JKYi.Http2
