import JKYi.Foundation.Bits

/-!
# The Huffman code of HPACK

The tables `huffman_codes` and `huffman_code_len`, and what evaluating them
shows: no code word is a prefix of another one, every byte string that is
cut off a longer code word is also cut off one that ends in the next byte, and
only `EOS` is missing for a code word at the start of every bit string.
-/

namespace JKYi.Http2

open List

def huffmanCodes : List ℕ :=
  [0x1ff8, 0x7fffd8, 0xfffffe2, 0xfffffe3, 0xfffffe4, 0xfffffe5, 0xfffffe6, 0xfffffe7,
   0xfffffe8, 0xffffea, 0x3ffffffc, 0xfffffe9, 0xfffffea, 0x3ffffffd, 0xfffffeb, 0xfffffec,
   0xfffffed, 0xfffffee, 0xfffffef, 0xffffff0, 0xffffff1, 0xffffff2, 0x3ffffffe, 0xffffff3,
   0xffffff4, 0xffffff5, 0xffffff6, 0xffffff7, 0xffffff8, 0xffffff9, 0xffffffa, 0xffffffb,
   0x14, 0x3f8, 0x3f9, 0xffa, 0x1ff9, 0x15, 0xf8, 0x7fa,
   0x3fa, 0x3fb, 0xf9, 0x7fb, 0xfa, 0x16, 0x17, 0x18,
   0x0, 0x1, 0x2, 0x19, 0x1a, 0x1b, 0x1c, 0x1d,
   0x1e, 0x1f, 0x5c, 0xfb, 0x7ffc, 0x20, 0xffb, 0x3fc,
   0x1ffa, 0x21, 0x5d, 0x5e, 0x5f, 0x60, 0x61, 0x62,
   0x63, 0x64, 0x65, 0x66, 0x67, 0x68, 0x69, 0x6a,
   0x6b, 0x6c, 0x6d, 0x6e, 0x6f, 0x70, 0x71, 0x72,
   0xfc, 0x73, 0xfd, 0x1ffb, 0x7fff0, 0x1ffc, 0x3ffc, 0x22,
   0x7ffd, 0x3, 0x23, 0x4, 0x24, 0x5, 0x25, 0x26,
   0x27, 0x6, 0x74, 0x75, 0x28, 0x29, 0x2a, 0x7,
   0x2b, 0x76, 0x2c, 0x8, 0x9, 0x2d, 0x77, 0x78,
   0x79, 0x7a, 0x7b, 0x7ffe, 0x7fc, 0x3ffd, 0x1ffd, 0xffffffc,
   0xfffe6, 0x3fffd2, 0xfffe7, 0xfffe8, 0x3fffd3, 0x3fffd4, 0x3fffd5, 0x7fffd9,
   0x3fffd6, 0x7fffda, 0x7fffdb, 0x7fffdc, 0x7fffdd, 0x7fffde, 0xffffeb, 0x7fffdf,
   0xffffec, 0xffffed, 0x3fffd7, 0x7fffe0, 0xffffee, 0x7fffe1, 0x7fffe2, 0x7fffe3,
   0x7fffe4, 0x1fffdc, 0x3fffd8, 0x7fffe5, 0x3fffd9, 0x7fffe6, 0x7fffe7, 0xffffef,
   0x3fffda, 0x1fffdd, 0xfffe9, 0x3fffdb, 0x3fffdc, 0x7fffe8, 0x7fffe9, 0x1fffde,
   0x7fffea, 0x3fffdd, 0x3fffde, 0xfffff0, 0x1fffdf, 0x3fffdf, 0x7fffeb, 0x7fffec,
   0x1fffe0, 0x1fffe1, 0x3fffe0, 0x1fffe2, 0x7fffed, 0x3fffe1, 0x7fffee, 0x7fffef,
   0xfffea, 0x3fffe2, 0x3fffe3, 0x3fffe4, 0x7ffff0, 0x3fffe5, 0x3fffe6, 0x7ffff1,
   0x3ffffe0, 0x3ffffe1, 0xfffeb, 0x7fff1, 0x3fffe7, 0x7ffff2, 0x3fffe8, 0x1ffffec,
   0x3ffffe2, 0x3ffffe3, 0x3ffffe4, 0x7ffffde, 0x7ffffdf, 0x3ffffe5, 0xfffff1, 0x1ffffed,
   0x7fff2, 0x1fffe3, 0x3ffffe6, 0x7ffffe0, 0x7ffffe1, 0x3ffffe7, 0x7ffffe2, 0xfffff2,
   0x1fffe4, 0x1fffe5, 0x3ffffe8, 0x3ffffe9, 0xffffffd, 0x7ffffe3, 0x7ffffe4, 0x7ffffe5,
   0xfffec, 0xfffff3, 0xfffed, 0x1fffe6, 0x3fffe9, 0x1fffe7, 0x1fffe8, 0x7ffff3,
   0x3fffea, 0x3fffeb, 0x1ffffee, 0x1ffffef, 0xfffff4, 0xfffff5, 0x3ffffea, 0x7ffff4,
   0x3ffffeb, 0x7ffffe6, 0x3ffffec, 0x3ffffed, 0x7ffffe7, 0x7ffffe8, 0x7ffffe9, 0x7ffffea,
   0x7ffffeb, 0xffffffe, 0x7ffffec, 0x7ffffed, 0x7ffffee, 0x7ffffef, 0x7fffff0, 0x3ffffee]

def huffmanCodeLen : List ℕ :=
  [13, 23, 28, 28, 28, 28, 28, 28, 28, 24, 30, 28, 28, 30, 28, 28,
   28, 28, 28, 28, 28, 28, 30, 28, 28, 28, 28, 28, 28, 28, 28, 28,
   6, 10, 10, 12, 13, 6, 8, 11, 10, 10, 8, 11, 8, 6, 6, 6,
   5, 5, 5, 6, 6, 6, 6, 6, 6, 6, 7, 8, 15, 6, 12, 10,
   13, 6, 7, 7, 7, 7, 7, 7, 7, 7, 7, 7, 7, 7, 7, 7,
   7, 7, 7, 7, 7, 7, 7, 7, 8, 7, 8, 13, 19, 13, 14, 6,
   15, 5, 6, 5, 6, 5, 6, 6, 6, 5, 7, 7, 6, 6, 6, 5,
   6, 7, 6, 5, 5, 6, 7, 7, 7, 7, 7, 15, 11, 14, 13, 28,
   20, 22, 20, 20, 22, 22, 22, 23, 22, 23, 23, 23, 23, 23, 24, 23,
   24, 24, 22, 23, 24, 23, 23, 23, 23, 21, 22, 23, 22, 23, 23, 24,
   22, 21, 20, 22, 22, 23, 23, 21, 23, 22, 22, 24, 21, 22, 23, 23,
   21, 21, 22, 21, 23, 22, 23, 23, 20, 22, 22, 22, 23, 22, 22, 23,
   26, 26, 20, 19, 22, 23, 22, 25, 26, 26, 26, 27, 27, 26, 24, 25,
   19, 21, 26, 27, 27, 26, 27, 24, 21, 21, 26, 26, 28, 27, 27, 27,
   20, 24, 20, 21, 22, 21, 21, 23, 22, 22, 25, 25, 24, 24, 26, 23,
   26, 27, 26, 26, 27, 27, 27, 27, 27, 28, 27, 27, 27, 27, 27, 26]

def hexToHfCode (ch : UInt8) : ℕ := huffmanCodes.getD ch.toNat 0

def hexToHfCodeLen (ch : UInt8) : ℕ := huffmanCodeLen.getD ch.toNat 0

def codeWord (ch : UInt8) : List Bool := bits (hexToHfCodeLen ch) (hexToHfCode ch)

@[simp] theorem length_codeWord (ch : UInt8) : (codeWord ch).length = hexToHfCodeLen ch :=
  length_bits _ _

def huffmanTable : List (ℕ × ℕ) := huffmanCodes.zip huffmanCodeLen

theorem huffmanTable_checked :
    (huffmanCodes.length = 256 ∧ huffmanCodeLen.length = 256) ∧
    (∀ e ∈ huffmanTable, e.1 < 2 ^ e.2 ∧ 5 ≤ e.2 ∧ e.2 ≤ 30) ∧
    (∀ e ∈ huffmanTable, e.1 ≠ 2 ^ e.2 - 1) ∧ DisjointCodes 30 huffmanTable := by
  decide +kernel

theorem length_huffmanTable : huffmanTable.length = 256 := by
  obtain ⟨hcodes, hlens⟩ := huffmanTable_checked.1
  rw [huffmanTable, length_zip, hcodes, hlens, Nat.min_self]

theorem huffmanTable_bounds : ∀ e ∈ huffmanTable, e.1 < 2 ^ e.2 ∧ 5 ≤ e.2 ∧ e.2 ≤ 30 :=
  huffmanTable_checked.2.1

theorem huffmanTable_not_ones : ∀ e ∈ huffmanTable, e.1 ≠ 2 ^ e.2 - 1 :=
  huffmanTable_checked.2.2.1

theorem huffmanTable_disjoint : DisjointCodes 30 huffmanTable := huffmanTable_checked.2.2.2

theorem huffmanTable_complete : CompleteCodes 30 (2 ^ 30 - 1) huffmanTable := by decide +kernel

theorem getElem_zip_getD {a b : List ℕ} {i : ℕ} (ha : i < a.length) (hb : i < b.length)
    (h : i < (a.zip b).length) : (a.zip b)[i] = (a.getD i 0, b.getD i 0) := by
  simp [ha, hb]

theorem huffmanTable_getElem (ch : UInt8) (h : ch.toNat < huffmanTable.length) :
    huffmanTable[ch.toNat] = (hexToHfCode ch, hexToHfCodeLen ch) := by
  obtain ⟨hcodes, hlens⟩ := huffmanTable_checked.1
  exact getElem_zip_getD (hcodes ▸ ch.toNat_lt) (hlens ▸ ch.toNat_lt) h

theorem toNat_lt_length (ch : UInt8) : ch.toNat < huffmanTable.length := by
  rw [length_huffmanTable]
  exact ch.toNat_lt

theorem mem_huffmanTable (ch : UInt8) :
    (hexToHfCode ch, hexToHfCodeLen ch) ∈ huffmanTable := by
  rw [← huffmanTable_getElem ch (toNat_lt_length ch)]
  exact getElem_mem _

theorem exists_symbol {e : ℕ × ℕ} (he : e ∈ huffmanTable) :
    ∃ ch, (hexToHfCode ch, hexToHfCodeLen ch) = e := by
  obtain ⟨i, hi, rfl⟩ := mem_iff_getElem.mp he
  have hbyte : (UInt8.ofNat i).toNat = i := by
    rw [length_huffmanTable] at hi
    exact UInt8.toNat_ofNat_of_lt' hi
  refine ⟨UInt8.ofNat i, ?_⟩
  rw [← huffmanTable_getElem _ (toNat_lt_length _)]
  simp only [hbyte]

theorem huffmanTable_wf : ∀ e ∈ huffmanTable, e.1 < 2 ^ e.2 ∧ e.2 ≤ 30 := fun e he =>
  ⟨(huffmanTable_bounds e he).1, (huffmanTable_bounds e he).2.2⟩

theorem hexToHfCode_lt (ch : UInt8) : hexToHfCode ch < 2 ^ hexToHfCodeLen ch :=
  (huffmanTable_bounds _ (mem_huffmanTable ch)).1

theorem hexToHfCodeLen_ge (ch : UInt8) : 5 ≤ hexToHfCodeLen ch :=
  (huffmanTable_bounds _ (mem_huffmanTable ch)).2.1

theorem hexToHfCodeLen_le (ch : UInt8) : hexToHfCodeLen ch ≤ 30 :=
  (huffmanTable_bounds _ (mem_huffmanTable ch)).2.2

theorem codeWord_prefix_free {a b : UInt8} (h : codeWord a <+: codeWord b) : a = b := by
  apply UInt8.toNat_inj.mp
  apply prefix_free_of_disjoint huffmanTable_disjoint huffmanTable_wf (toNat_lt_length a)
    (toNat_lt_length b)
  rw [huffmanTable_getElem, huffmanTable_getElem]
  exact h

def branchCodes : List (ℕ × ℕ) :=
  [33, 0, 92, 1, 199, 234, 192, 202, 218, 203, 211, 245, 2, 10].map fun i =>
    huffmanTable.getD i (0, 0)

theorem branchCodes_checked : (∀ e ∈ branchCodes, e ∈ huffmanTable) ∧
    ∀ e ∈ huffmanTable, ∀ k ∈ [1, 2, 3], 8 * k < e.2 →
      ∃ d ∈ branchCodes, 8 * k < d.2 ∧ d.2 ≤ 8 * k + 8 ∧
        d.1 >>> (d.2 - 8 * k) = e.1 >>> (e.2 - 8 * k) := by
  decide +kernel

theorem exists_branch {ch : UInt8} {k : ℕ} (h0 : 0 < k) (hk : 8 * k < hexToHfCodeLen ch) :
    ∃ d, 8 * k < hexToHfCodeLen d ∧ hexToHfCodeLen d ≤ 8 * k + 8 ∧
      (codeWord d).take (8 * k) = (codeWord ch).take (8 * k) := by
  have hle := hexToHfCodeLen_le ch
  have hmem : k ∈ [1, 2, 3] := by
    simp only [mem_cons, not_mem_nil, or_false]
    omega
  obtain ⟨hsymbols, hcover⟩ := branchCodes_checked
  obtain ⟨e, he, hlo, hhi, heq⟩ := hcover _ (mem_huffmanTable ch) k hmem hk
  obtain ⟨d, rfl⟩ := exists_symbol (hsymbols e he)
  refine ⟨d, hlo, hhi, ?_⟩
  rw [codeWord, codeWord, take_bits hlo.le, take_bits hk.le, heq]

def eosWord : List Bool := replicate 30 true

theorem codeWord_not_prefix_eosWord (ch : UInt8) : ¬ codeWord ch <+: eosWord := by
  intro hpre
  have hones : codeWord ch = replicate (hexToHfCodeLen ch) true := by
    rw [prefix_iff_eq_take, eosWord, take_replicate, length_codeWord,
      Nat.min_eq_left (hexToHfCodeLen_le ch)] at hpre
    exact hpre
  rw [← bits_ones, codeWord, bits_inj, Nat.mod_eq_of_lt (hexToHfCode_lt ch),
    Nat.mod_eq_of_lt (Nat.sub_lt (Nat.two_pow_pos _) one_pos)] at hones
  exact huffmanTable_not_ones _ (mem_huffmanTable ch) hones

theorem codeWord_not_prefix_of_eos {w : List Bool} (h : eosWord <+: w) (ch : UInt8) :
    ¬ codeWord ch <+: w := by
  intro hpre
  apply codeWord_not_prefix_eosWord ch
  apply prefix_of_prefix_length_le hpre h
  rw [length_codeWord, eosWord, length_replicate]
  exact hexToHfCodeLen_le ch

theorem codeWord_not_prefix_of_cut {w : List Bool} {d : UInt8} (h : w <+: codeWord d)
    (hlen : w.length < hexToHfCodeLen d) (ch : UInt8) : ¬ codeWord ch <+: w := by
  intro hpre
  obtain rfl := codeWord_prefix_free (hpre.trans h)
  have := hpre.length_le
  rw [length_codeWord] at this
  omega

theorem exists_codeWord_of_length {w : List Bool} (hw : w.length = 30) (hne : w ≠ eosWord) :
    ∃ ch, codeWord ch <+: w := by
  have hbits : bits 30 (ofBits w) = w := by
    rw [← hw]
    exact bits_ofBits w
  have hlt : ofBits w < 2 ^ 30 - 1 := by
    have hle := ofBits_lt w
    rw [hw] at hle
    refine lt_of_le_of_ne (Nat.le_sub_one_of_lt hle) ?_
    intro heq
    rw [heq, bits_ones] at hbits
    exact hne hbits.symm
  obtain ⟨e, he, hpre⟩ := huffmanTable_complete.exists_prefix huffmanTable_wf hlt
  obtain ⟨ch, rfl⟩ := exists_symbol he
  rw [hbits] at hpre
  exact ⟨ch, hpre⟩

/-- A bit string starts with a code word, is cut off one or starts with `EOS`. -/
theorem codeWord_cases (w : List Bool) : (∃ ch, codeWord ch <+: w) ∨
    (∃ ch, w <+: codeWord ch ∧ w.length < hexToHfCodeLen ch) ∨ eosWord <+: w := by
  rcases Nat.lt_or_ge w.length 30 with hshort | hlong
  · -- zeros behind the string keep it apart from the ones of `EOS`
    have hlen : (w ++ replicate (30 - w.length) false).length = 30 := by
      rw [length_append, length_replicate]
      omega
    have hne : w ++ replicate (30 - w.length) false ≠ eosWord := by
      intro heq
      have hmem : false ∈ eosWord := by
        rw [← heq, mem_append]
        exact .inr (mem_replicate.mpr ⟨by omega, rfl⟩)
      simp [eosWord] at hmem
    obtain ⟨ch, hpre⟩ := exists_codeWord_of_length hlen hne
    rcases Nat.lt_or_ge w.length (hexToHfCodeLen ch) with hlt | hge
    · refine .inr (.inl ⟨ch, ?_, hlt⟩)
      exact prefix_of_prefix_length_le (prefix_append _ _) hpre (by simpa using hlt.le)
    · refine .inl ⟨ch, ?_⟩
      exact prefix_of_prefix_length_le hpre (prefix_append _ _) (by simpa using hge)
  · by_cases heq : w.take 30 = eosWord
    · exact .inr (.inr (heq ▸ take_prefix 30 w))
    · obtain ⟨ch, hpre⟩ := exists_codeWord_of_length (by simpa using hlong) heq
      exact .inl ⟨ch, hpre.trans (List.take_prefix 30 w)⟩

end JKYi.Http2
