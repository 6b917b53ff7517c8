import JKYi.Http2.HuffmanDecode

/-!
# What decoding does on any input

The code words and `EOS` leave no gap, so a walk down the tree misses a child only
where the input goes on with `EOS`. The main loop then returns an error, which
`DecodeString` hands to `resize`; the loop over the last bits follows the null
pointer. What `EncodeString` produces does not contain `EOS`.
-/

namespace JKYi.Http2

open List Run

variable {w : List Bool} {st : DecodeState} {input path : List UInt8}

/-- `Huffman::DecodeString(const std::string& in, out)`: the length becomes an `int`. -/
def decodeStdString {σ : Type} (input : List UInt8) : Run Exn σ (ℤ × List UInt8) :=
  let inLen := intOfSize input.length
  if inLen < 0 then
    if inLen * 8 + 1 < -2 ^ 31 then Run.crash
    else Run.throw (.lengthError "basic_string::_M_replace_aux")
  else decodeString (input.take inLen.toNat)

variable {σ : Type}

theorem decodeStdString_eq (h : input.length < 2 ^ 31) :
    (decodeStdString input : Run Exn σ _) = decodeString input := by
  rw [decodeStdString, intOfSize_eq h, if_neg (by omega), Int.toNat_natCast, take_length]

/-- The bits start with the code words of `s` and go on with `EOS`. -/
def EosAfter (s : List UInt8) (w : List Bool) : Prop := encodeBits s ++ eosWord <+: w

instance (s : List UInt8) (w : List Bool) : Decidable (EosAfter s w) :=
  inferInstanceAs (Decidable (_ <+: _))

def Spells (s : List UInt8) (w : List Bool) : Prop :=
  ∃ r ch, w = encodeBits s ++ r ∧ r <+: codeWord ch ∧ r.length < hexToHfCodeLen ch

variable {s s' : List UInt8}

theorem encodeBits_unique {r r' : List Bool}
    (h : encodeBits s ++ r = encodeBits s' ++ r') (hr : ∀ ch, ¬ codeWord ch <+: r)
    (hr' : ∀ ch, ¬ codeWord ch <+: r') : s = s' := by
  induction s generalizing s' with
  | nil =>
    cases s' with
    | nil => rfl
    | cons ch' s' =>
      rw [encodeBits_cons, append_assoc] at h
      exact absurd ⟨_, h.symm⟩ (hr ch')
  | cons ch s ih =>
    cases s' with
    | nil =>
      rw [encodeBits_cons, append_assoc] at h
      exact absurd ⟨_, h⟩ (hr' ch)
    | cons ch' s' =>
      rw [encodeBits_cons, encodeBits_cons, append_assoc, append_assoc] at h
      obtain rfl : ch = ch' := by
        have hpre : codeWord ch' <+: codeWord ch ++ (encodeBits s ++ r) := ⟨_, h.symm⟩
        rcases prefix_or_prefix_of_prefix (prefix_append _ _) hpre with hle | hle
        · exact codeWord_prefix_free hle
        · exact (codeWord_prefix_free hle).symm
      rw [ih (append_cancel_left h)]

theorem EosAfter.unique (h : EosAfter s w) (h' : EosAfter s' w) : s = s' := by
  obtain ⟨t, rfl⟩ := h
  obtain ⟨t', ht'⟩ := h'
  rw [append_assoc, append_assoc] at ht'
  exact encodeBits_unique ht'.symm (codeWord_not_prefix_of_eos (prefix_append _ _))
    (codeWord_not_prefix_of_eos (prefix_append _ _))

theorem Spells.not_eosAfter (h : Spells s w) : ¬ EosAfter s' w := by
  rintro ⟨t, ht⟩
  obtain ⟨r, ch, rfl, hpre, hlen⟩ := h
  rw [append_assoc] at ht
  have hcut := codeWord_not_prefix_of_cut hpre hlen
  obtain rfl := encodeBits_unique ht (codeWord_not_prefix_of_eos (prefix_append _ _)) hcut
  have heos : eosWord <+: r := ⟨t, append_cancel_left ht⟩
  exact codeWord_not_prefix_of_eos (heos.trans hpre) ch prefix_rfl

theorem child_cases {n : HuffNode} (hnode : hfInit.find path = some n)
    (hpath : ∃ ch, Interior (codeWord ch) path) (b : UInt8) :
    (∃ ch c, Interior (codeWord ch) path ∧ LeafSlot (codeWord ch) (path ++ [b]) ∧
      n.children b = some c ∧ c.sym = ch ∧ c.size = 0 ∧
      c.codeLen = ((codeWord ch).drop (8 * path.length)).length) ∨
    (∃ ch c, Interior (codeWord ch) (path ++ [b]) ∧ n.children b = some c ∧
      hfInit.find (path ++ [b]) = some c ∧ c.size ≠ 0) ∨
    (eosWord <+: byteBits (path ++ [b]) ∧ n.children b = none) := by
  obtain ⟨d, hd⟩ := hpath
  rcases codeWord_cases (byteBits (path ++ [b])) with ⟨ch, hpre⟩ | ⟨ch, hpre, hlen⟩ | heos
  · have hsub : byteBits path <+: byteBits (path ++ [b]) := by
      rw [byteBits_append]
      exact prefix_append _ _
    have hlonger : 8 * path.length < hexToHfCodeLen ch := by
      by_contra hle
      have hshort := prefix_of_prefix_length_le hpre hsub (by simpa using hle)
      have hcut := hd.2
      exact codeWord_not_prefix_of_cut hd.1 (by simpa using hcut) ch hshort
    have hin : Interior (codeWord ch) path :=
      ⟨prefix_of_prefix_length_le hsub hpre (by simpa using hlonger.le),
        by simpa using hlonger⟩
    have hlast : (codeWord ch).drop (8 * path.length) <+: bits 8 b.toNat := by
      rw [interior_split hin, byteBits_append, append_prefix_append_iff rfl] at hpre
      simpa using hpre.2
    obtain ⟨c, hc, hsym, hclen, hsize⟩ := leaf_child hnode hin hlast
    exact .inl ⟨ch, c, hin, leafSlot_snoc hin hlast, hc, hsym, hsize, hclen⟩
  · have hin : Interior (codeWord ch) (path ++ [b]) := ⟨hpre, by simpa using hlen⟩
    obtain ⟨i, hi, hpos⟩ := hfInit_inner (by simp) hin
    obtain ⟨c, hc, hfind, -, -, hsize⟩ := child_of_info hnode hi
    exact .inr (.inl ⟨ch, c, hin, hc, hfind, by omega⟩)
  · refine .inr (.inr ⟨heos, ?_⟩)
    by_contra hsome
    obtain ⟨c, hc⟩ := Option.ne_none_iff_exists'.mp hsome
    have hinfo : hfInit.info (path ++ [b]) = some ⟨c.sym, c.codeLen, c.size⟩ := by
      rw [HuffNode.info, HuffNode.find_append, hnode, Option.bind_some, HuffNode.find, hc]
      rfl
    obtain ⟨ch, hin | hleaf⟩ := hfInit_only hinfo (by simp)
    · exact codeWord_not_prefix_of_eos (heos.trans hin.1) ch prefix_rfl
    · exact codeWord_not_prefix_of_eos heos ch hleaf.1

theorem decodeWindow_missing {hNode : HuffNode} {outSz : ℕ} (hbits : 8 ≤ st.nbits)
    (hc : st.n.children (UInt8.ofNat (st.cur >>> (st.nbits - 8))) = none) (rounds : ℕ) :
    decodeWindow hNode outSz (rounds + 1) st = .raised (-1) st := by
  simp only [decodeWindow, if_pos hbits, hc]

theorem decodeRest_missing {hNode : HuffNode} {outSz : ℕ} (hbits : 0 < st.nbits)
    (hc : st.n.children (UInt8.ofNat (st.cur <<< (8 - st.nbits))) = none) (rounds : ℕ) :
    decodeRest hNode outSz (rounds + 1) st = .crash := by
  simp only [decodeRest, if_pos hbits, hc]

/-- The symbols in `out` and the bytes of `path` have been taken off the bits `w`, and a
code word goes through the node at `path`. -/
structure Progress (w : List Bool) (st : DecodeState) (input path : List UInt8) : Prop where
  node : hfInit.find path = some st.n
  spent : w = encodeBits st.out ++ (byteBits path ++ (bits st.nbits st.cur ++ byteBits input))
  entered : ∃ ch, Interior (codeWord ch) path

theorem encodeBits_snoc (s : List UInt8) (ch : UInt8) :
    encodeBits (s ++ [ch]) = encodeBits s ++ codeWord ch := by
  simp [encodeBits]

theorem interior_root : ∃ ch, Interior (codeWord ch) [] := by
  refine ⟨0, interior_nil ?_⟩
  rw [length_codeWord]
  exact lt_of_lt_of_le (by simp) (hexToHfCodeLen_ge 0)

section

variable {outSz : ℕ}

theorem Progress.out_lt (h : Progress w st input path) (hout : w.length < outSz) :
    st.out.length < outSz := by
  have hge := length_encodeBits_ge st.out
  rw [h.spent, length_append] at hout
  omega

theorem Progress.emit (h : Progress w st input path) {ch : UInt8}
    (hin : Interior (codeWord ch) path)
    (hpre : (codeWord ch).drop (8 * path.length) <+: bits st.nbits st.cur ++ byteBits input)
    (hlen : ((codeWord ch).drop (8 * path.length)).length ≤ st.nbits) :
    Progress w { st with
      n := hfInit
      nbits := st.nbits - ((codeWord ch).drop (8 * path.length)).length
      out := st.out ++ [ch] } input [] := by
  refine ⟨HuffNode.find_nil _, ?_, interior_root⟩
  obtain ⟨t, ht⟩ := hpre
  rw [h.spent, encodeBits_snoc, pending_drop ht.symm hlen, interior_split hin, ← ht]
  simp

variable {b : UInt8}

theorem Progress.enter (h : Progress w st input path) {c : HuffNode}
    (hbits : 8 ≤ st.nbits) (hb : bits 8 b.toNat <+: bits st.nbits st.cur ++ byteBits input)
    (hfind : hfInit.find (path ++ [b]) = some c)
    (hin : ∃ ch, Interior (codeWord ch) (path ++ [b])) :
    Progress w { st with n := c, nbits := st.nbits - 8 } input (path ++ [b]) := by
  refine ⟨hfind, ?_, hin⟩
  obtain ⟨t, ht⟩ := hb
  have hrest := pending_drop ht.symm (by simpa using hbits)
  rw [length_bits] at hrest
  rw [h.spent, hrest, byteBits_append, ← ht]
  simp

/-- A missing child shows that the bits go on with `EOS`, three bytes of which are spent. -/
theorem Progress.eosAfter (h : Progress w st input path)
    (heos : eosWord <+: byteBits (path ++ [b]))
    (hpre : eosWord <+: byteBits path ++ (bits st.nbits st.cur ++ byteBits input)) :
    EosAfter st.out w ∧
      w.length = (encodeBits st.out).length + 24 + st.nbits + 8 * input.length := by
  refine ⟨?_, ?_⟩
  · obtain ⟨t, ht⟩ := hpre
    exact ⟨t, by rw [h.spent, ← ht, append_assoc]⟩
  · obtain ⟨ch, -, hcut⟩ := h.entered
    have hle := heos.length_le
    have hmax := hexToHfCodeLen_le ch
    have hspent := congrArg length h.spent
    rw [length_codeWord] at hcut
    rw [eosWord, length_replicate, length_byteBits, length_append, length_singleton] at hle
    simp only [length_append, length_byteBits, length_bits] at hspent
    omega

def Refused (w : List Bool) : Prop := ∃ s, EosAfter s w ∧ (encodeBits s).length + 32 ≤ w.length

theorem Progress.window_step (h : Progress w st input path) (hbits : 8 ≤ st.nbits)
    (hout : w.length < outSz) (rounds : ℕ) :
    (∃ st' path', decodeWindow hfInit outSz (rounds + 1) st = decodeWindow hfInit outSz rounds st' ∧
      Progress w st' input path' ∧ st'.nbits < st.nbits) ∨
    (decodeWindow hfInit outSz (rounds + 1) st = .raised (-1) st ∧ Refused w) := by
  have hwindow := window_prefix st.cur hbits (byteBits input)
  generalize hb : UInt8.ofNat (st.cur >>> (st.nbits - 8)) = b at hwindow
  rcases child_cases h.node h.entered b with ⟨ch, c, hin, hleaf, hc, hsym, hsize, hclen⟩ |
    ⟨ch, c, hin, hc, hfind, hsize⟩ | ⟨heos, hc⟩
  · have hlast : (codeWord ch).drop (8 * path.length) <+: bits 8 b.toNat := by
      have hpre := hleaf.1
      rw [interior_split hin, byteBits_append, append_prefix_append_iff rfl] at hpre
      simpa using hpre.2
    have hle : ((codeWord ch).drop (8 * path.length)).length ≤ 8 := by
      simpa using hlast.length_le
    have hpos := hin.2
    refine .inl ⟨_, [], ?_, h.emit hin (hlast.trans hwindow) (hle.trans hbits), ?_⟩
    · rw [decodeWindow_leaf hbits (by rw [hb]; exact hc) hsize (h.out_lt hout), hsym, hclen]
    · rw [length_drop]
      dsimp only
      omega
  · refine .inl ⟨_, path ++ [b], ?_, h.enter hbits hwindow hfind ⟨ch, hin⟩, ?_⟩
    · exact decodeWindow_inner hbits (by rw [hb]; exact hc) hsize rounds
    · dsimp only
      omega
  · have hpre : byteBits (path ++ [b]) <+:
        byteBits path ++ (bits st.nbits st.cur ++ byteBits input) := by
      rw [byteBits_append, append_prefix_append_iff rfl]
      exact ⟨rfl, by simpa using hwindow⟩
    obtain ⟨hafter, hlen⟩ := h.eosAfter heos (heos.trans hpre)
    refine .inr ⟨decodeWindow_missing hbits (by rw [hb]; exact hc) rounds, st.out, hafter, ?_⟩
    omega

theorem decodeWindow_cases (hout : w.length < outSz) : ∀ (rounds : ℕ) {st : DecodeState}
    {path : List UInt8}, Progress w st input path → st.nbits < rounds →
    (∃ st' path', decodeWindow hfInit outSz rounds st = .ok () st' ∧
      Progress w st' input path' ∧ st'.nbits < 8) ∨
    (∃ st', decodeWindow hfInit outSz rounds st = .raised (-1) st' ∧ Refused w) := by
  intro rounds
  induction rounds with
  | zero =>
    intro st path _ hlt
    omega
  | succ rounds ih =>
    intro st path h hlt
    by_cases hbits : 8 ≤ st.nbits
    · rcases h.window_step hbits hout rounds with ⟨st₁, path₁, hrun, h₁, hless⟩ | ⟨hrun, href⟩
      · rw [hrun]
        exact ih h₁ (by omega)
      · exact .inr ⟨st, hrun, href⟩
    · refine .inl ⟨st, path, ?_, h, not_le.mp hbits⟩
      simp only [decodeWindow, if_neg hbits]

theorem Progress.feed (h : Progress w st (b :: input) path) (hbits : st.nbits < 8) :
    Progress w { st with
      cur := (st.cur <<< 8 ||| b.toNat) % 2 ^ 32
      nbits := st.nbits + 8 } input path := by
  refine ⟨h.node, ?_, h.entered⟩
  rw [h.spent, feed_bits hbits]

theorem decodeInput_cases (hout : w.length < outSz) : ∀ (input : List UInt8) {st : DecodeState}
    {path : List UInt8}, Progress w st input path → st.nbits < 8 →
    (∃ st' path', decodeInput hfInit outSz input st = .ok () st' ∧
      Progress w st' [] path' ∧ st'.nbits < 8) ∨
    (∃ st', decodeInput hfInit outSz input st = .raised (-1) st' ∧ Refused w) := by
  intro input
  induction input with
  | nil =>
    intro st path h hbits
    exact .inl ⟨st, path, rfl, h, hbits⟩
  | cons b input ih =>
    intro st path h hbits
    rw [decodeInput, bind_ok (get_run _), bind_ok (set_run _ _)]
    rcases decodeWindow_cases hout (st.nbits + 9) (h.feed hbits) (by simp) with
      ⟨st₁, path₁, hwindow, h₁, hbits₁⟩ | ⟨st', hwindow, href⟩
    · rw [bind_ok hwindow]
      exact ih h₁ hbits₁
    · rw [bind_raised hwindow]
      exact .inr ⟨st', rfl, href⟩

theorem ones_prefix_of_zeros {n k : ℕ} {a : List Bool}
    (h : replicate n true <+: a ++ replicate k false) : replicate n true <+: a := by
  induction a generalizing n with
  | nil =>
    cases n with
    | zero => exact nil_prefix
    | succ n => cases k <;> simp [replicate_succ] at h
  | cons x a ih =>
    cases n with
    | zero => exact nil_prefix
    | succ n =>
      rw [replicate_succ, cons_append, cons_prefix_cons] at h
      rw [replicate_succ, cons_prefix_cons]
      exact ⟨h.1, ih h.2⟩

def Dangling (w : List Bool) : Prop := ∃ s, EosAfter s w ∧ w.length < (encodeBits s).length + 32

theorem Progress.spells (h : Progress w st [] path) {ch : UInt8}
    (hpre : byteBits path ++ bits st.nbits st.cur <+: codeWord ch)
    (hlen : 8 * path.length + st.nbits < hexToHfCodeLen ch) : Spells st.out w := by
  refine ⟨byteBits path ++ bits st.nbits st.cur, ch, ?_, hpre, ?_⟩
  · rw [h.spent, byteBits_nil, append_nil]
  · rwa [length_append, length_byteBits, length_bits]

theorem decodeRest_cases (hout : w.length < outSz) : ∀ (rounds : ℕ) {st : DecodeState}
    {path : List UInt8}, Progress w st [] path → st.nbits < rounds → st.nbits < 8 →
    (∃ st', decodeRest hfInit outSz rounds st = .ok () st' ∧ Spells st'.out w) ∨
    (decodeRest hfInit outSz rounds st = .crash ∧ Dangling w) := by
  intro rounds
  induction rounds with
  | zero =>
    intro st path _ hlt
    omega
  | succ rounds ih =>
    intro st path h hlt hbits
    rcases Nat.eq_zero_or_pos st.nbits with hzero | hpos
    · obtain ⟨ch, hpre, hlen⟩ := h.entered
      rw [length_codeWord] at hlen
      have hleft : byteBits path ++ bits st.nbits st.cur <+: codeWord ch := by
        simpa [hzero, bits] using hpre
      refine .inl ⟨st, ?_, h.spells hleft (by omega)⟩
      simp only [decodeRest, hzero, Nat.lt_irrefl, if_false]
    · have hwindow := rest_window st.cur hbits.le
      generalize hb : UInt8.ofNat (st.cur <<< (8 - st.nbits)) = b at hwindow
      have hbytes : byteBits (path ++ [b]) =
          byteBits path ++ bits st.nbits st.cur ++ replicate (8 - st.nbits) false := by
        rw [byteBits_append, byteBits_cons, hwindow, byteBits_nil, append_nil, append_assoc]
      have hleft := hbytes ▸ prefix_append _ _
      rcases child_cases h.node h.entered b with ⟨ch, c, hin, hleaf, hc, hsym, hsize, hclen⟩ |
        ⟨ch, c, hin, hc, -, hsize⟩ | ⟨heos, hc⟩
      · have hdrop := length_drop (i := 8 * path.length) (l := codeWord ch)
        have hin2 := hin.2
        rw [length_codeWord] at hdrop hin2
        rcases Nat.lt_or_ge st.nbits c.codeLen with hless | hfit
        · refine .inl ⟨_, decodeRest_stop hpos (by rw [hb]; exact hc) (.inr hless) rounds, ?_⟩
          refine h.spells (prefix_of_prefix_length_le hleft hleaf.1 ?_) (by omega)
          rw [length_append, length_byteBits, length_bits, length_codeWord]
          omega
        · rw [decodeRest_leaf hpos (by rw [hb]; exact hc) hsize hfit (h.out_lt hout), hsym, hclen]
          have hlast : (codeWord ch).drop (8 * path.length) <+:
              bits st.nbits st.cur ++ byteBits [] := by
            have hpre : codeWord ch <+: byteBits path ++ bits st.nbits st.cur := by
              apply prefix_of_prefix_length_le hleaf.1 hleft
              rw [length_append, length_byteBits, length_bits, length_codeWord]
              omega
            rw [interior_split hin, append_prefix_append_iff rfl] at hpre
            simpa using hpre.2
          refine ih (h.emit hin hlast (by omega)) ?_ ?_
          · dsimp only
            omega
          · dsimp only
            omega
      · refine .inl ⟨_, decodeRest_stop hpos (by rw [hb]; exact hc) (.inl hsize) rounds, ?_⟩
        refine h.spells (hleft.trans hin.1) ?_
        have hin2 := hin.2
        rw [length_codeWord, length_append, length_singleton] at hin2
        omega
      · have hpre : eosWord <+: byteBits path ++ bits st.nbits st.cur := by
          rw [hbytes] at heos
          exact ones_prefix_of_zeros heos
        obtain ⟨hafter, hlen⟩ := h.eosAfter heos (by simpa using hpre)
        refine .inr ⟨decodeRest_missing hpos (by rw [hb]; exact hc) rounds, st.out, hafter, ?_⟩
        rw [length_nil] at hlen
        omega

end

/-- The three ways decoding ends, by the bits of the input. -/
theorem decodeString_cases (t : σ) (hlen : maxHuffmanBuffLen input.length < 2 ^ 31) :
    (∃ s, decodeString input t = .ok ((s.length : ℤ), s) t ∧ Spells s (byteBits input)) ∨
    (decodeString input t = .raised (.lengthError "basic_string::_M_replace_aux") t ∧
      Refused (byteBits input)) ∨
    (decodeString input t = .crash ∧ Dangling (byteBits input)) := by
  have hout : (byteBits input).length < maxHuffmanBuffLen input.length := by
    rw [length_byteBits, maxHuffmanBuffLen]
    omega
  have hstart : Progress (byteBits input) ⟨hfInit, 0, 0, []⟩ input [] :=
    ⟨HuffNode.find_nil hfInit, by simp [bits, encodeBits], interior_root⟩
  rw [decodeString, if_neg (by omega)]
  rcases decodeInput_cases hout input hstart (by simp) with
    ⟨st, path, hinput, hst, hbits⟩ | ⟨st, hinput, href⟩
  · rcases decodeRest_cases hout (st.nbits + 1) hst (by omega) hbits with
      ⟨st', hrest, hspells⟩ | ⟨hrest, hdangling⟩
    · have hrun : hfStringDecode hfInit input (maxHuffmanBuffLen input.length)
          ⟨hfInit, 0, 0, []⟩ = .ok () st' := by
        rw [hfStringDecode, bind_ok hinput, bind_ok (get_run _), hrest]
      rw [hrun]
      exact .inl ⟨st'.out, rfl, hspells⟩
    · have hrun : hfStringDecode hfInit input (maxHuffmanBuffLen input.length)
          ⟨hfInit, 0, 0, []⟩ = .crash := by
        rw [hfStringDecode, bind_ok hinput, bind_ok (get_run _), hrest]
      rw [hrun]
      exact .inr (.inr ⟨rfl, hdangling⟩)
  · have hrun : hfStringDecode hfInit input (maxHuffmanBuffLen input.length)
        ⟨hfInit, 0, 0, []⟩ = .raised (-1) st := by
      rw [hfStringDecode, bind_raised hinput]
    rw [hrun]
    exact .inr (.inl ⟨rfl, href⟩)

/-- Code words followed by less than a byte of ones are decoded to their symbols: no code word and
no `EOS` begins in the ones. -/
theorem decodeString_ok (t : σ) {enc : List UInt8} {pad : ℕ} (hpad : pad < 8)
    (henc : byteBits enc = encodeBits s ++ replicate pad true)
    (hlen : maxHuffmanBuffLen enc.length < 2 ^ 31) :
    decodeString enc t = .ok ((s.length : ℤ), s) t := by
  have hones : replicate pad true <+: eosWord := by
    refine ⟨replicate (30 - pad) true, ?_⟩
    rw [← replicate_add, Nat.add_sub_cancel' (by omega)]
    rfl
  have hcut (ch : UInt8) : ¬ codeWord ch <+: replicate pad true :=
    fun h => codeWord_not_prefix_eosWord ch (h.trans hones)
  have hno (s' : List UInt8) : ¬ EosAfter s' (byteBits enc) := by
    rintro ⟨r, hr⟩
    rw [henc, append_assoc] at hr
    obtain rfl := encodeBits_unique hr (codeWord_not_prefix_of_eos (prefix_append _ _)) hcut
    have := congrArg length (append_cancel_left hr)
    rw [length_append, eosWord, length_replicate, length_replicate] at this
    omega
  rcases decodeString_cases t hlen with ⟨s', hrun, r, ch, hw, hr⟩ | ⟨-, s', h, -⟩ | ⟨-, s', h, -⟩
  · rw [henc] at hw
    obtain rfl := encodeBits_unique hw hcut (codeWord_not_prefix_of_cut hr.1 hr.2)
    exact hrun
  · exact absurd h (hno s')
  · exact absurd h (hno s')

/-- What `EncodeString` produces, `DecodeString` gives back. -/
theorem decodeString_encodeString {σ : Type} (t : σ) {s : List UInt8}
    (hlen : maxHuffmanBuffLen s.length < 2 ^ 31) :
    ∃ enc, encodeString s [] 0 t = .ok (0, enc) t ∧
      (maxHuffmanBuffLen enc.length < 2 ^ 31 → decodeString enc t = .ok ((s.length : ℤ), s) t) := by
  obtain ⟨enc, pad, hrun, hpad, henc⟩ := encodeString_ok t hlen
  exact ⟨enc, hrun, decodeString_ok t hpad henc⟩

theorem decodeString_encodeString_abc : maxHuffmanBuffLen [97, 98, 99].length < 2 ^ 31 ∧
    ∃ enc, encodeString [97, 98, 99] [] 0 () = .ok (0, enc) () ∧
      (maxHuffmanBuffLen enc.length < 2 ^ 31 → decodeString enc () = .ok (3, [97, 98, 99]) ()) :=
  ⟨by decide, decodeString_encodeString () (by decide)⟩

theorem Refused.not_dangling (h : Refused w) : ¬ Dangling w := by
  rintro ⟨s', hafter', hlt⟩
  obtain ⟨s, hafter, hle⟩ := h
  obtain rfl := hafter.unique hafter'
  omega

/-- The null pointer is followed if fewer than 32 bits are left where `EOS` starts. -/
theorem decodeString_eq_crash (t : σ)
    (hlen : maxHuffmanBuffLen input.length < 2 ^ 31) (h : Dangling (byteBits input)) :
    decodeString input t = .crash := by
  rcases decodeString_cases t hlen with ⟨s, -, hspells⟩ | ⟨-, href⟩ | ⟨hrun, -⟩
  · obtain ⟨s', hafter, -⟩ := h
    exact absurd hafter hspells.not_eosAfter
  · exact absurd h href.not_dangling
  · exact hrun

theorem decodeString_eq_raised (t : σ)
    (hlen : maxHuffmanBuffLen input.length < 2 ^ 31) (h : Refused (byteBits input)) :
    decodeString input t = .raised (.lengthError "basic_string::_M_replace_aux") t := by
  rcases decodeString_cases t hlen with ⟨s, -, hspells⟩ | ⟨hrun, -⟩ | ⟨-, hdangling⟩
  · obtain ⟨s', hafter, -⟩ := h
    exact absurd hafter hspells.not_eosAfter
  · exact hrun
  · exact absurd hdangling h.not_dangling

theorem decodeString_returns_iff (t : σ) (input : List UInt8) :
    (∃ n out, decodeString input t = .ok (n, out) t) ↔
      maxHuffmanBuffLen input.length < 2 ^ 31 ∧ ∀ s, ¬ EosAfter s (byteBits input) := by
  constructor
  · rintro ⟨n, out, hrun⟩
    have hlen : maxHuffmanBuffLen input.length < 2 ^ 31 := by
      by_contra hbig
      rw [decodeString, if_pos (by omega), crash_run] at hrun
      cases hrun
    refine ⟨hlen, ?_⟩
    rcases decodeString_cases t hlen with ⟨s, -, hspells⟩ | ⟨hfail, -⟩ | ⟨hfail, -⟩
    · exact fun s' => hspells.not_eosAfter
    · rw [hfail] at hrun
      cases hrun
    · rw [hfail] at hrun
      cases hrun
  · rintro ⟨hlen, hno⟩
    rcases decodeString_cases t hlen with ⟨s, hrun, -⟩ | ⟨-, s, hafter, -⟩ | ⟨-, s, hafter, -⟩
    · exact ⟨_, _, hrun⟩
    · exact absurd hafter (hno s)
    · exact absurd hafter (hno s)

/-- `DecodeString` returns exactly for the strings whose buffer size is an `int` and that
do not go on with `EOS` behind any code words. -/
theorem decodeStdString_returns {σ : Type} (t : σ) (input : List UInt8) :
    (∃ n out, decodeStdString input t = .ok (n, out) t) ↔
      0 ≤ intOfSize input.length ∧
      maxHuffmanBuffLen (input.take (intOfSize input.length).toNat).length < 2 ^ 31 ∧
      ∀ s, ¬ EosAfter s (byteBits (input.take (intOfSize input.length).toNat)) := by
  by_cases hneg : intOfSize input.length < 0
  · have hfail : ∀ r, decodeStdString input t ≠ .ok r t := by
      intro r hrun
      rw [decodeStdString, if_pos hneg] at hrun
      split_ifs at hrun <;> cases hrun
    exact ⟨fun ⟨n, out, hrun⟩ => absurd hrun (hfail _), fun ⟨hpos, _⟩ => by omega⟩
  · rw [decodeStdString, if_neg hneg, decodeString_returns_iff]
    exact ⟨fun h => ⟨not_lt.mp hneg, h⟩, fun h => h.2⟩

/-- Four bytes of ones make `resize` throw, and two symbols of five bits followed by thirty
ones make the last loop follow a null pointer. -/
theorem decodeStdString_eos :
    decodeStdString [0xff, 0xff, 0xff, 0xff] () =
      .raised (.lengthError "basic_string::_M_replace_aux") () ∧
    decodeStdString [0x00, 0x3f, 0xff, 0xff, 0xff] () = .crash := by
  constructor
  · rw [decodeStdString_eq (by simp)]
    exact decodeString_eq_raised () (by decide) ⟨[], by decide +kernel, by decide +kernel⟩
  · rw [decodeStdString_eq (by simp)]
    exact decodeString_eq_crash () (by decide) ⟨[48, 48], by decide +kernel, by decide +kernel⟩

end JKYi.Http2
