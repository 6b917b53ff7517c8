import JKYi.Http2.HuffmanTree
import JKYi.Http2.HuffmanEncode

/-!
# Huffman decoding of strings

The decoder shifts the input into a word and walks the tree with its next eight
bits. A leaf gives back the bits behind its code. What is left at the end is
looked up once more, filled up with zeros, so that a short last symbol is
found and the padding of ones is not taken for one.
-/

namespace JKYi.Http2

open Nat List

structure DecodeState where
  n : HuffNode
  cur : ℕ
  nbits : ℕ
  out : List UInt8

/-- The inner loop. `raised` is an early `return`. A round takes at least one bit,
a leaf without bits would be found for ever. -/
def decodeWindow (hNode : HuffNode) (outSz : ℕ) : ℕ → Run ℤ DecodeState Unit
  | 0 => Run.crash
  | rounds + 1 => fun st =>
    if 8 ≤ st.nbits then
      match st.n.children (UInt8.ofNat (st.cur >>> (st.nbits - 8))) with
      | none => .raised (-1) st
      | some n =>
        if n.size = 0 then
          if 0 < outSz ∧ outSz < st.out.length then .raised (-2) st
          else if st.out.length < outSz then
            decodeWindow hNode outSz rounds
              { st with n := hNode, nbits := st.nbits - n.codeLen, out := st.out ++ [n.sym] }
          else .crash
        else decodeWindow hNode outSz rounds { st with n := n, nbits := st.nbits - 8 }
    else .ok () st

def decodeInput (hNode : HuffNode) (outSz : ℕ) : List UInt8 → Run ℤ DecodeState Unit
  | [] => pure ()
  | b :: enc => do
    let st ← Run.get
    Run.set { st with cur := (st.cur <<< 8 ||| b.toNat) % 2 ^ 32, nbits := st.nbits + 8 }
    decodeWindow hNode outSz (st.nbits + 9)
    decodeInput hNode outSz enc

def decodeRest (hNode : HuffNode) (outSz : ℕ) : ℕ → Run ℤ DecodeState Unit
  | 0 => Run.crash
  | rounds + 1 => fun st =>
    if 0 < st.nbits then
      match st.n.children (UInt8.ofNat (st.cur <<< (8 - st.nbits))) with
      | none => .crash
      | some n =>
        if n.size ≠ 0 ∨ st.nbits < n.codeLen then .ok () { st with n := n }
        else if st.out.length < outSz then
          decodeRest hNode outSz rounds
            { st with n := hNode, nbits := st.nbits - n.codeLen, out := st.out ++ [n.sym] }
        else .crash
    else .ok () st

def hfStringDecode (hNode : HuffNode) (enc : List UInt8) (outSz : ℕ) : Run ℤ DecodeState Unit := do
  decodeInput hNode outSz enc
  let st ← Run.get
  decodeRest hNode outSz (st.nbits + 1)

/-- `Huffman::DecodeString(in, out)`: the result and `out`, which `resize` refuses to
make of negative size. -/
def decodeString {σ : Type} (input : List UInt8) : Run Exn σ (ℤ × List UInt8) :=
  if 2 ^ 31 ≤ maxHuffmanBuffLen input.length then Run.crash
  else
    match hfStringDecode hfInit input (maxHuffmanBuffLen input.length) ⟨hfInit, 0, 0, []⟩ with
    | .ok _ st => pure (st.out.length, st.out)
    | .raised _ _ => Run.throw (.lengthError "basic_string::_M_replace_aux")
    | .crash => Run.crash

section

variable {hNode c : HuffNode} {outSz : ℕ} {st : DecodeState}

theorem decodeWindow_leaf (hbits : 8 ≤ st.nbits)
    (hc : st.n.children (UInt8.ofNat (st.cur >>> (st.nbits - 8))) = some c) (hsize : c.size = 0)
    (hout : st.out.length < outSz) (rounds : ℕ) :
    decodeWindow hNode outSz (rounds + 1) st = decodeWindow hNode outSz rounds
      { st with n := hNode, nbits := st.nbits - c.codeLen, out := st.out ++ [c.sym] } := by
  simp [decodeWindow, hbits, hc, hsize, hout, hout.le]

theorem decodeWindow_inner (hbits : 8 ≤ st.nbits)
    (hc : st.n.children (UInt8.ofNat (st.cur >>> (st.nbits - 8))) = some c) (hsize : c.size ≠ 0)
    (rounds : ℕ) : decodeWindow hNode outSz (rounds + 1) st =
      decodeWindow hNode outSz rounds { st with n := c, nbits := st.nbits - 8 } := by
  simp [decodeWindow, hbits, hc, hsize]

theorem decodeRest_leaf (hbits : 0 < st.nbits)
    (hc : st.n.children (UInt8.ofNat (st.cur <<< (8 - st.nbits))) = some c) (hsize : c.size = 0)
    (hlen : c.codeLen ≤ st.nbits) (hout : st.out.length < outSz) (rounds : ℕ) :
    decodeRest hNode outSz (rounds + 1) st = decodeRest hNode outSz rounds
      { st with n := hNode, nbits := st.nbits - c.codeLen, out := st.out ++ [c.sym] } := by
  simp only [decodeRest, hbits, if_true, hc]
  rw [if_neg (by omega), if_pos hout]

theorem decodeRest_stop (hbits : 0 < st.nbits)
    (hc : st.n.children (UInt8.ofNat (st.cur <<< (8 - st.nbits))) = some c)
    (hstop : c.size ≠ 0 ∨ st.nbits < c.codeLen) (rounds : ℕ) :
    decodeRest hNode outSz (rounds + 1) st = .ok () { st with n := c } := by
  simp only [decodeRest, hbits, if_true, hc]
  rw [if_pos hstop]

end

variable {path : List UInt8} {b : UInt8}

theorem child_of_info {n m : HuffNode} {i : HuffNode.Info}
    (hn : n.find path = some m) (hi : n.info (path ++ [b]) = some i) :
    ∃ c, m.children b = some c ∧ n.find (path ++ [b]) = some c ∧
      c.sym = i.sym ∧ c.codeLen = i.codeLen ∧ c.size = i.size := by
  have hfind : n.find (path ++ [b]) = m.children b := by
    rw [HuffNode.find_append, hn, Option.bind_some]
    simp only [HuffNode.find]
    cases m.children b <;> rfl
  rw [HuffNode.info, hfind] at hi
  obtain ⟨c, hc, rfl⟩ := Option.map_eq_some_iff.mp hi
  exact ⟨c, hc, hfind.trans hc, rfl, rfl, rfl⟩

variable {ch : UInt8}

theorem interior_split (h : Interior (codeWord ch) path) :
    codeWord ch = byteBits path ++ (codeWord ch).drop (8 * path.length) := by
  have htake := prefix_iff_eq_take.mp h.1
  rw [length_byteBits] at htake
  conv_lhs => rw [← take_append_drop (8 * path.length) (codeWord ch), ← htake]

theorem leafSlot_snoc (h : Interior (codeWord ch) path)
    (hb : (codeWord ch).drop (8 * path.length) <+: bits 8 b.toNat) :
    LeafSlot (codeWord ch) (path ++ [b]) := by
  constructor
  · rw [interior_split h, byteBits_append, append_prefix_append_iff rfl]
    exact ⟨rfl, by simpa using hb⟩
  · have := h.2
    rw [length_append, length_singleton]
    omega

variable {nbits : ℕ}

theorem pending_drop {cur : ℕ} {x d t : List Bool} (h : bits nbits cur ++ x = d ++ t)
    (hd : d.length ≤ nbits) : bits (nbits - d.length) cur ++ x = t := by
  have := congrArg (List.drop d.length) h
  rwa [drop_append_of_le_length (by simpa using hd), drop_bits hd, drop_left] at this

theorem window_prefix (cur : ℕ) (h : 8 ≤ nbits) (x : List Bool) :
    bits 8 (UInt8.ofNat (cur >>> (nbits - 8))).toNat <+: bits nbits cur ++ x := by
  have hbyte : bits 8 (UInt8.ofNat (cur >>> (nbits - 8))).toNat = (bits nbits cur).take 8 := by
    rw [UInt8.toNat_ofNat', take_bits h]
    exact bits_mod 8 _
  rw [hbyte]
  exact (List.take_prefix _ _).trans (prefix_append _ _)

theorem leaf_child {n : HuffNode}
    (hnode : hfInit.find path = some n) (hin : Interior (codeWord ch) path)
    (hb : (codeWord ch).drop (8 * path.length) <+: bits 8 b.toNat) :
    ∃ c, n.children b = some c ∧ c.sym = ch ∧
      c.codeLen = ((codeWord ch).drop (8 * path.length)).length ∧ c.size = 0 := by
  obtain ⟨c, hc, -, hsym, hlen, hsize⟩ := child_of_info hnode (hfInit_leaf (leafSlot_snoc hin hb))
  refine ⟨c, hc, hsym, ?_, hsize⟩
  rw [hlen, length_drop, length_codeWord, length_append, length_singleton]
  dsimp only
  omega

theorem feed_bits {cur : ℕ} (hbits : nbits < 8) (input : List UInt8) :
    bits nbits cur ++ byteBits (b :: input) =
      bits (nbits + 8) ((cur <<< 8 ||| b.toNat) % 2 ^ 32) ++ byteBits input := by
  have hword : cur <<< 8 ||| b.toNat = 2 ^ 8 * cur + b.toNat := by
    rw [shiftLeft_eq, mul_comm, two_pow_add_eq_or_of_lt b.toNat_lt]
  have hhigh : (2 ^ 8 * cur + b.toNat) >>> 8 = cur := by
    rw [shiftRight_eq_div_pow, mul_add_div (by simp), div_eq_of_lt b.toNat_lt,
      add_zero]
  have hlow : bits 8 (2 ^ 8 * cur + b.toNat) = bits 8 b.toNat := by
    rw [bits_inj, mul_add_mod]
  have hmod : bits (nbits + 8) ((2 ^ 8 * cur + b.toNat) % 2 ^ 32) =
      bits (nbits + 8) (2 ^ 8 * cur + b.toNat) := by
    rw [bits_inj]
    exact mod_mod_of_dvd _ (pow_dvd_pow 2 (by omega))
  rw [byteBits_cons, ← append_assoc, hword, hmod, bits_append, hhigh, hlow]

theorem rest_window (cur : ℕ) (h : nbits ≤ 8) :
    bits 8 (UInt8.ofNat (cur <<< (8 - nbits))).toNat =
      bits nbits cur ++ List.replicate (8 - nbits) false := by
  have hbyte : bits 8 (UInt8.ofNat (cur <<< (8 - nbits))).toNat = bits 8 (cur <<< (8 - nbits)) := by
    rw [UInt8.toNat_ofNat']
    exact bits_mod 8 _
  have hsplit := bits_append nbits (8 - nbits) (cur <<< (8 - nbits))
  have hzero : bits (8 - nbits) (cur <<< (8 - nbits)) = bits (8 - nbits) 0 := by
    rw [bits_inj, Nat.shiftLeft_eq, Nat.mul_mod_left, Nat.zero_mod]
  rw [Nat.add_sub_cancel' h, Nat.shiftLeft_shiftRight, hzero, bits_zero] at hsplit
  rw [hbyte, hsplit]

theorem length_encodeBits_ge (s : List UInt8) : 5 * s.length ≤ (encodeBits s).length := by
  induction s with
  | nil => simp
  | cons ch s ih =>
    have := hexToHfCodeLen_ge ch
    rw [encodeBits_cons, length_append, length_codeWord, length_cons]
    omega

end JKYi.Http2
