import JKYi.Http2.HPackParse

/-!
# Packing header lists and parsing them back

The encoder and the decoder agree on the fields that are found whole in the
tables at an index that fits two bytes, and on nothing else: a field that has to
be stored is sent with the index of its name, even when there is none, and the
decoder loses that name. So tables never change in a round trip that succeeds.
-/

namespace JKYi.Http2

open Nat JKYi.ByteArray Format HPack List Run Option

/-! What the writers leave behind. -/

def Appends {α : Type} (x : Run Exn ByteArray α) : Prop :=
  ∀ (ba ba' : ByteArray) (a : α), ba.Wf → x ba = .ok a ba' → ∃ d, Written ba d ba'

section

variable {α β : Type}

theorem appends_pure (a : α) : Appends (pure a) := by
  intro ba ba' b h hrun
  cases hrun
  exact ⟨[], written_nil h⟩

theorem appends_get : Appends Run.get := by
  intro ba ba' b h hrun
  cases hrun
  exact ⟨[], written_nil h⟩

theorem appends_crash : Appends (Run.crash : Run Exn ByteArray α) := by
  intro ba ba' b h hrun
  cases hrun

theorem appends_write (d : List UInt8) : Appends (write d) := by
  intro ba ba' b h hrun
  exact ⟨d, write_ok h hrun⟩

theorem Appends.bind {x : Run Exn ByteArray α} {f : α → Run Exn ByteArray β} (hx : Appends x)
    (hf : ∀ a, Appends (f a)) : Appends (x >>= f) := by
  intro ba ba' b h hrun
  obtain ⟨a, ba₁, hrun₁, hrun₂⟩ := bind_eq_ok_iff.mp hrun
  obtain ⟨d, hd⟩ := hx ba ba₁ a h hrun₁
  obtain ⟨d', hd'⟩ := hf a ba₁ ba' b hd.wf hrun₂
  exact ⟨d ++ d', hd.append h hd'⟩

theorem appends_encodeString (input out : List UInt8) (pre : ℕ) :
    Appends (encodeString input out pre) := by
  unfold encodeString
  split_ifs
  · exact appends_crash
  · split
    · exact appends_crash
    · exact appends_pure _

end

def varIntRest (value : ℕ) : List UInt8 :=
  if value < 128 then [UInt8.ofNat value]
  else UInt8.ofNat (0x8 ||| (value &&& 0x7f)) :: varIntRest (value >>> 7)
termination_by value
decreasing_by
  rw [shiftRight_eq_div_pow]
  omega

def varIntBytes (pre value : ℕ) (flags : UInt8) : List UInt8 :=
  if value < 2 ^ pre - 1 then [UInt8.ofNat value ||| flags]
  else (UInt8.ofNat (2 ^ pre - 1) ||| flags) :: varIntRest (value - (2 ^ pre - 1))

theorem writes_writeVarIntRest {e : Endian} (value : ℕ) :
    Writes e (writeVarIntRest value) (varIntRest value) := by
  induction value using Nat.strong_induction_on with
  | _ value ih =>
    rw [writeVarIntRest, varIntRest]
    split_ifs with h
    · exact writes_writeFuint8 _
    · apply (writes_writeFuint8 _).bind (d := [_])
      apply ih
      rw [Nat.shiftRight_eq_div_pow]
      omega

theorem writes_discard {e : Endian} {x : Run Exn ByteArray Unit} {d : List UInt8}
    {f : Unit → Run Exn ByteArray ℤ} (hx : Writes e x d) (hf : ∀ ba, ∃ n, f () ba = .ok n ba) :
    Writes e (discard (x >>= f)) d := by
  intro ba h he
  obtain ⟨hdone, htotal⟩ := hx ba h he
  constructor
  · intro u ba' hrun
    obtain ⟨n, hn⟩ := discard_eq_ok_iff.mp hrun
    obtain ⟨u, ba₁, hwrite, hrest⟩ := bind_eq_ok_iff.mp hn
    obtain ⟨m, hm⟩ := hf ba₁
    cases hm.symm.trans hrest
    exact hdone u ba' hwrite
  · intro hlen
    obtain ⟨ba', hrun⟩ := htotal hlen
    obtain ⟨n, hn⟩ := hf ba'
    exact ⟨ba', discard_ok ((bind_ok hrun).trans hn)⟩

theorem writes_get {e : Endian} {d : List UInt8} {f : ByteArray → Run Exn ByteArray ℤ}
    (hf : ∀ ba, Writes e (discard (f ba)) d) : Writes e (discard (Run.get >>= f)) d :=
  fun ba => hf ba ba

theorem writes_writeVarInt {e : Endian} (pre value : ℕ) (flags : UInt8) :
    Writes e (discard (writeVarInt pre value flags)) (varIntBytes pre value flags) := by
  unfold writeVarInt varIntBytes
  apply writes_get
  intro ba
  split_ifs
  · exact writes_discard (writes_writeFuint8 _) fun _ => ⟨1, rfl⟩
  · rw [← Run.bind_assoc]
    exact writes_discard ((writes_writeFuint8 _).bind (writes_writeVarIntRest _)) fun _ => ⟨_, rfl⟩

theorem Appends.discard {α : Type} {x : Run Exn ByteArray α} (hx : Appends x) :
    Appends (discard x) :=
  hx.bind fun _ => appends_pure ()

theorem appends_writeVarInt (pre value : ℕ) (flags : UInt8) :
    Appends (writeVarInt pre value flags) := by
  intro ba ba' n h hrun
  exact ⟨_, (writes_writeVarInt pre value flags ba h rfl).1 () ba' (discard_ok hrun)⟩

theorem appends_writeString (str : List UInt8) (h : Bool) : Appends (writeString str h) := by
  have hlast : ∀ ba : ByteArray, Appends (do
      let now ← Run.get
      pure (intOfSize (now.getPosition - ba.getPosition))) := fun ba =>
    appends_get.bind fun _ => appends_pure _
  unfold writeString
  apply appends_get.bind
  intro ba
  cases h with
  | false =>
    simp only [Bool.false_eq_true, if_false]
    exact (appends_writeVarInt _ _ _).bind fun _ => (appends_write _).bind fun _ => hlast ba
  | true =>
    simp only [if_true]
    refine (appends_encodeString _ _ _).bind fun r => (appends_writeVarInt _ _ _).bind fun _ => ?_
    split
    · exact appends_crash.bind fun _ => hlast ba
    · exact (appends_write _).bind fun _ => hlast ba

theorem appends_packBody (header : HeaderField) : Appends (packBody header) := by
  have hint := fun pre flags => (appends_writeVarInt pre header.index flags).discard
  have hname := (appends_writeString header.name header.hName).discard
  have hvalue := (appends_writeString header.value header.hValue).discard
  unfold packBody
  cases header.type with
  | indexed => exact hint _ _
  | withIndexingIndexedName | withoutIndexingIndexedName | nerverIndexedIndexedName =>
    exact (hint _ _).bind fun _ => hvalue
  | withIndexingNewName | withoutIndexingNewName | nerverIndexedNewName =>
    exact (hint _ _).bind fun _ => hname.bind fun _ => hvalue
  | error => exact appends_pure ()

section

variable {header : HeaderField} {ba ba' : ByteArray} {n : ℤ} {hp hp' : HPack}

theorem packField_inv (hrun : packField header ba = .ok n ba') :
    packBody header ba = .ok () ba' ∧ n = intOfSize (ba'.position - ba.position) := by
  rw [packField, bind_ok (get_run ba)] at hrun
  obtain ⟨_, ba₁, hbody, hrest⟩ := bind_eq_ok_iff.mp hrun
  cases hrest
  exact ⟨hbody, rfl⟩

theorem packField_ok (hbody : packBody header ba = .ok () ba') :
    packField header ba = .ok (intOfSize (ba'.position - ba.position)) ba' := by
  rw [packField, bind_ok (get_run ba), bind_ok hbody, bind_ok (get_run ba')]
  rfl

theorem writes_packBody_indexed {e : Endian} (index : ℕ) :
    Writes e (packBody { type := .indexed, index := index }) (varIntBytes 7 index 0x80) :=
  writes_writeVarInt 7 index 0x80

theorem packBody_indexedName (htype : header.type = .withIndexingIndexedName) (h : ba.Wf)
    (hrun : packBody header ba = .ok () ba') :
    ∃ d, Written ba (varIntBytes 6 header.index 0x40 ++ d) ba' := by
  rw [packBody, htype] at hrun
  obtain ⟨_, ba₁, hindex, hvalue⟩ := bind_eq_ok_iff.mp hrun
  have h₁ := (writes_writeVarInt 6 header.index 0x40 ba h rfl).1 _ _ hindex
  obtain ⟨d, hd⟩ := (appends_writeString _ _).discard ba₁ ba' () h₁.wf hvalue
  exact ⟨d, h₁.append h hd⟩

theorem packLoop_cases {e : Entry} {es : List Entry} {rt : ℤ}
    (hrun : packLoop (e :: es) rt (hp, ba) = .ok n (hp', ba')) :
    ∃ header table len rt' ba₁, classify hp.table e = some (header, table) ∧
      packField header ba = .ok len ba₁ ∧ checkedInt (rt + len) = some rt' ∧
      packLoop es rt' (⟨table, hp.headers ++ [header]⟩, ba₁) = .ok n (hp', ba') := by
  rw [packLoop, bind_ok (get_run _)] at hrun
  dsimp only at hrun
  cases hc : classify hp.table e with rw [hc] at hrun
  | none => cases hrun
  | some r =>
    obtain ⟨header, table⟩ := r
    dsimp only at hrun
    rw [bind_ok (set_run _ _)] at hrun
    obtain ⟨len, ⟨hp₁, ba₁⟩, hheader, hrest⟩ := bind_eq_ok_iff.mp hrun
    rw [packHeader, bind_ok (get_run _)] at hheader
    dsimp only at hheader
    obtain ⟨rfl, hfield⟩ := onSnd_eq_ok_iff.mp hheader
    cases hs : checkedInt (rt + len) with rw [hs] at hrest
    | none => cases hrest
    | some rt' => exact ⟨header, table, len, rt', ba₁, rfl, hfield, hs, hrest⟩

theorem packLoop_step {e : Entry} {es : List Entry} {rt rt' len : ℤ} {table : DynamicTable}
    (hc : classify hp.table e = some (header, table)) (hfield : packField header ba = .ok len ba')
    (hs : checkedInt (rt + len) = some rt') : packLoop (e :: es) rt (hp, ba) =
      packLoop es rt' (⟨table, hp.headers ++ [header]⟩, ba') := by
  have hheader : packHeader header (⟨table, hp.headers⟩, ba) =
      .ok len (⟨table, hp.headers ++ [header]⟩, ba') := by
    rw [packHeader, bind_ok (get_run _)]
    dsimp only
    rw [bind_ok (set_run _ _), onSnd_ok _ hfield]
  rw [packLoop, bind_ok (get_run _)]
  dsimp only
  rw [hc]
  dsimp only
  rw [bind_ok (set_run _ _), bind_ok hheader, hs]

theorem packLoop_appends {es : List Entry} {rt : ℤ} (h : ba.Wf)
    (hrun : packLoop es rt (hp, ba) = .ok n (hp', ba')) : ∃ d, Written ba d ba' := by
  induction es generalizing rt hp ba with
  | nil =>
    cases hrun
    exact ⟨[], written_nil h⟩
  | cons e es ih =>
    obtain ⟨header, table, len, rt', ba₁, -, hfield, -, hrest⟩ := packLoop_cases hrun
    obtain ⟨d, hd⟩ := appends_packBody header ba ba₁ () h (packField_inv hfield).1
    obtain ⟨d', hd'⟩ := ih hd.wf hrest
    exact ⟨d ++ d', hd.append h hd'⟩

end

/-! What arrives. -/

theorem or_flags {pre flags k : ℕ} (hflags : 2 ^ pre ∣ flags) (hbyte : flags + 2 ^ pre ≤ 256)
    (hk : k < 2 ^ pre) : UInt8.ofNat k ||| UInt8.ofNat flags = UInt8.ofNat (flags + k) := by
  obtain ⟨c, rfl⟩ := hflags
  apply UInt8.toNat_inj.mp
  rw [UInt8.toNat_or, UInt8.toNat_ofNat_of_lt' (by rw [UInt8.size]; omega),
    UInt8.toNat_ofNat_of_lt' (by rw [UInt8.size]; omega),
    UInt8.toNat_ofNat_of_lt' (by rw [UInt8.size]; omega), Nat.or_comm,
    Nat.two_pow_add_eq_or_of_lt hk]

theorem varIntBytes_wire (pre flags value : ℕ) (hpre : 1 ≤ pre) (hflags : 2 ^ pre ∣ flags)
    (hbyte : flags + 2 ^ pre ≤ 256) :
    ∃ j d, varIntBytes pre value (UInt8.ofNat flags) = prefixInt pre flags j ++ d ∧
      j < 2 ^ pre - 1 + 128 ∧ (0 < value → 0 < j) ∧
      (value < 2 ^ pre - 1 + 128 → j = value ∧ d = []) := by
  have hpos : 2 ≤ 2 ^ pre := by
    calc 2 = 2 ^ 1 := rfl
      _ ≤ 2 ^ pre := Nat.pow_le_pow_right (by simp) hpre
  by_cases hsmall : value < 2 ^ pre - 1
  · refine ⟨value, [], ?_, by omega, id, fun _ => ⟨rfl, rfl⟩⟩
    rw [varIntBytes, if_pos hsmall, prefixInt, if_pos hsmall, or_flags hflags hbyte (by omega),
      append_nil]
  · obtain ⟨v, rfl⟩ : ∃ v, value = 2 ^ pre - 1 + v := ⟨value - (2 ^ pre - 1), by omega⟩
    rw [varIntBytes, if_neg hsmall, or_flags hflags hbyte (by omega), Nat.add_sub_cancel_left]
    rcases lt_or_ge v 128 with hlast | hmore
    · refine ⟨2 ^ pre - 1 + v, [], ?_, by omega, by omega, fun _ => ⟨rfl, rfl⟩⟩
      rw [prefixInt, if_neg hsmall, Nat.add_sub_cancel_left, varintBytes_of_lt hlast, varIntRest,
        if_pos hlast, append_nil]
    · generalize hc : 0x8 ||| (v &&& 0x7f) = c
      have hlt : c < 128 := by
        rw [← hc]
        exact Nat.or_lt_two_pow (n := 7) (by simp) (by rw [and_7f]; omega)
      refine ⟨2 ^ pre - 1 + c, varIntRest (v >>> 7), ?_, by omega, by omega, by omega⟩
      rw [prefixInt, if_neg (by omega), Nat.add_sub_cancel_left, varintBytes_of_lt hlt, varIntRest,
        if_neg (by omega), hc]
      rfl

def Found (T : DynamicTable) (e : Entry) : Prop := ∃ idx < 255, T.getPair idx = e

section

variable {T T' : DynamicTable} {e : Entry}

theorem getPair_idxOf (hmem : e ∈ T.entries) : T.getPair (T.entries.idxOf e) = e := by
  rw [DynamicTable.getPair_eq, getD_eq_getElem?_getD, getElem?_idxOf hmem, getD_some]

theorem found_iff (hname : e.1 ≠ []) :
    Found T e ↔ e ∈ T.entries ∧ T.entries.idxOf e < 255 := by
  constructor
  · rintro ⟨idx, hidx, hpair⟩
    rw [DynamicTable.getPair_eq, getD_eq_getElem?_getD] at hpair
    cases hget : T.entries[idx]? with rw [hget] at hpair
    | none => exact absurd (congrArg Prod.fst hpair).symm hname
    | some o =>
      rw [getD_some] at hpair
      subst hpair
      have hmem := mem_of_getElem? hget
      have htake : o ∈ T.entries.take (idx + 1) := by
        apply mem_of_getElem? (i := idx)
        rw [getElem?_take, if_pos (lt_succ_self idx), hget]
      have := (mem_take_iff_idxOf_lt hmem).mp htake
      exact ⟨hmem, by omega⟩
  · rintro ⟨hmem, hidx⟩
    exact ⟨_, hidx, getPair_idxOf hmem⟩

theorem classify_of_mem (hmem : e ∈ T.entries) : classify T e =
    some ({ type := .indexed, index := T.entries.idxOf e % 2 ^ 32 }, T) := by
  have hsearch : ¬ ((e.1, e.2) ∉ staticHeaders ∧ T.datas = []) := by
    rintro ⟨hstatic, hempty⟩
    rw [DynamicTable.entries, hempty, reverse_nil, append_nil] at hmem
    exact hstatic hmem
  have hindex : ((0 + (T.entries.idxOf e : ℤ)) % 2 ^ 32).toNat = T.entries.idxOf e % 2 ^ 32 := by
    omega
  rw [classify, DynamicTable.findPair_eq, if_neg hsearch, bind_some,
    pairLoop_of_mem (show (e.1, e.2) ∈ T.entries from hmem)]
  simp only [if_true]
  rw [hindex]

theorem classify_of_not_mem {header : HeaderField} (hname : e.1 ≠ []) (hmem : e ∉ T.entries)
    (hsize : T.entries.length ≤ 2 ^ 32) (hc : classify T e = some (header, T')) :
    header.type = .withIndexingIndexedName ∧ 0 < header.index := by
  rw [classify, DynamicTable.findPair_eq] at hc
  split_ifs at hc with hsearch
  · cases hc
  · obtain ⟨first, hrun, hfirst⟩ :=
      pairLoop_of_not_mem (show (e.1, e.2) ∉ T.entries from hmem) 0 (-1)
    have hpos : first ≠ 0 ∧ 0 < (first % 2 ^ 32).toNat := by
      rcases hfirst with rfl | ⟨j, o, hj, ho, rfl⟩
      · decide
      · have hlt := (List.getElem?_eq_some_iff.mp hj).1
        have hj0 : j ≠ 0 := by
          rintro rfl
          have hzero : T.entries[0]? = some ([], []) := by
            rw [DynamicTable.entries,
              List.getElem?_append_left (by rw [length_staticHeaders]; norm_num),
              staticHeaders_zero]
          cases hj
          exact hname ho.symm
        omega
    rw [bind_some, hrun] at hc
    simp only [Bool.false_eq_true, if_false, ne_eq, hpos.1, not_false_eq_true, if_true] at hc
    obtain ⟨hValue, -, hc⟩ := bind_eq_some_iff.mp hc
    obtain ⟨table, -, hc⟩ := map_eq_some_iff.mp hc
    cases hc
    exact ⟨rfl, hpos.2⟩

end

section

variable {ba ba' : ByteArray} {h : HeaderField} {rest : List UInt8} {value : ℕ}

theorem readField_indexed (hwf : ba.Wf) (hunread : ba.unread = varIntBytes 7 value 0x80 ++ rest)
    (hrun : readField ba = .ok (some h) ba') :
    ∃ j < 255, h = { type := .indexed, index := j } := by
  obtain ⟨j, d, hwire, hj, -, -⟩ := varIntBytes_wire 7 0x80 value (by simp) (by simp)
    (by simp)
  change varIntBytes 7 value 0x80 = _ at hwire
  rw [hwire, append_assoc] at hunread
  have hread := reads_readField (e := ba.endian) (f := .indexed j)
    (show j < 2 ^ 32 by norm_num at hj; omega) (by simp [Field.strings]) ba _ hwf rfl hunread
  rw [hrun] at hread
  refine ⟨j, by norm_num at hj; omega, ?_⟩
  exact Option.some.inj (Outcome.ok.inj hread).1

theorem readField_indexedName (hwf : ba.Wf) (hvalue : 0 < value)
    (hunread : ba.unread = varIntBytes 6 value 0x40 ++ rest)
    (hrun : readField ba = .ok (some h) ba') : h.type ≠ .indexed ∧ h.name = [] := by
  obtain ⟨j, d, hwire, hj, hpos, -⟩ := varIntBytes_wire 6 0x40 value (by simp) (by simp)
    (by simp)
  change varIntBytes 6 value 0x40 = _ at hwire
  have hj32 : j < 2 ^ 32 := by
    norm_num at hj
    omega
  obtain ⟨b, c, heq, hbranch, hread⟩ := literal_cases (e := ba.endian) .incremental hj32
  change prefixInt 6 0x40 j = _ at heq
  rw [hwire, heq, append_assoc, append_assoc] at hunread
  have hwf₁ := advance_wf hwf (length_le_getReadSize hwf hunread)
  rw [readField, bind_ok (reads_readFuint8 b ba _ hwf rfl hunread), hbranch] at hrun
  obtain ⟨h', ba₁, hliteral, hsome⟩ := bind_eq_ok_iff.mp hrun
  cases hsome
  rw [readLiteral, bind_ok (hread _ _ hwf₁ rfl (unread_advance_append hunread)),
    mod_eq_of_lt hj32, if_pos (hpos hvalue), readStrings, if_pos (hpos hvalue).ne'] at hliteral
  obtain ⟨v, ba₂, -, hpure⟩ := bind_eq_ok_iff.mp hliteral
  cases hpure
  exact ⟨by simp [Indexing.indexedName], rfl⟩

theorem resolve_pair_ne {T T' : DynamicTable} {e : Entry} {header : HeaderField} {len : ℤ}
    {tx tx' : ByteArray} (hname : e.1 ≠ []) (hfound : ¬ Found T e)
    (hsize : T.entries.length ≤ 2 ^ 32) (hc : classify T e = some (header, T')) (htx : tx.Wf)
    (hfield : packField header tx = .ok len tx') :
    ∃ d, Written tx d tx' ∧ ∀ {ba ba' : ByteArray} {rest : List UInt8} {h : HeaderField}, ba.Wf →
      ba.unread = d ++ rest → readField ba = .ok (some h) ba' → (resolve T h).pair ≠ e := by
  obtain ⟨hbody, -⟩ := packField_inv hfield
  by_cases hmem : e ∈ T.entries
  · rw [classify_of_mem hmem] at hc
    cases hc
    refine ⟨_, (writes_packBody_indexed _ tx htx rfl).1 _ _ hbody, ?_⟩
    intro ba ba' rest h hwf hunread hrun hpair
    obtain ⟨j, hj, rfl⟩ := readField_indexed hwf hunread hrun
    exact hfound ⟨j, hj, hpair⟩
  · obtain ⟨htype, hindex⟩ := classify_of_not_mem hname hmem hsize hc
    obtain ⟨d, hd⟩ := packBody_indexedName htype htx hbody
    refine ⟨_, hd, ?_⟩
    intro ba ba' rest h hwf hunread hrun hpair
    rw [append_assoc] at hunread
    obtain ⟨hnot, hnil⟩ := readField_indexedName hwf hindex hunread hrun
    have hresolved : (resolve T h).name = [] := by
      unfold resolve
      rw [if_neg hnot]
      split_ifs
      · exact hnil
      · exact hnil
    exact hname ((congrArg Prod.fst hpair).symm.trans hresolved)

end

def fieldOf (T : DynamicTable) (e : Entry) : Field := .indexed (T.entries.idxOf e)

section

variable {T : DynamicTable} {e : Entry} {es : List Entry}

theorem length_fieldOf_le (hname : e.1 ≠ []) (hfound : Found T e) :
    (fieldOf T e).encode.length ≤ 2 := by
  have hidx := ((found_iff hname).mp hfound).2
  change (prefixInt 7 0x80 _).length ≤ 2
  unfold prefixInt
  split_ifs with hsmall
  · simp
  · rw [varintBytes_of_lt (by norm_num; omega)]
    simp

theorem packField_found (hname : e.1 ≠ []) (hfound : Found T e) {ba : ByteArray} (h : ba.Wf) :
    classify T e = some ((fieldOf T e).header, T) ∧
    ∃ ba', packField (fieldOf T e).header ba = .ok (fieldOf T e).encode.length ba' ∧
      Written ba (fieldOf T e).encode ba' := by
  obtain ⟨hmem, hidx⟩ := (found_iff hname).mp hfound
  have hmod : T.entries.idxOf e % 2 ^ 32 = T.entries.idxOf e := Nat.mod_eq_of_lt (by omega)
  obtain ⟨j, d, hwire, -, -, hexact⟩ := varIntBytes_wire 7 0x80 (T.entries.idxOf e) (by simp)
    (by simp) (by simp)
  obtain ⟨rfl, rfl⟩ := hexact (by norm_num; omega)
  rw [append_nil] at hwire
  change varIntBytes 7 _ 0x80 = (fieldOf T e).encode at hwire
  have hlen := length_fieldOf_le hname hfound
  have hwrites := writes_packBody_indexed (T.entries.idxOf e) ba h rfl
  rw [hwire] at hwrites
  obtain ⟨ba', hbody⟩ := hwrites.2 (by omega)
  have hwritten := hwrites.1 () ba' hbody
  refine ⟨?_, ba', ?_, hwritten⟩
  · rw [classify_of_mem hmem, hmod]
    rfl
  · change packField { type := .indexed, index := _ } ba = _
    rw [packField_ok hbody, hwritten.position_eq, Nat.add_sub_cancel_left, intOfSize_eq (by omega)]

theorem reads_found (e : Entry) {i : Endian} (hname : e.1 ≠ []) (hfound : Found T e) :
    Reads i readField (some (fieldOf T e).header) (fieldOf T e).encode := by
  have hidx := ((found_iff hname).mp hfound).2
  exact reads_readField (show T.entries.idxOf e < 2 ^ 32 by omega)
    (by simp [fieldOf, Field.strings])

theorem resolve_found (hname : e.1 ≠ []) (hfound : Found T e) :
    (resolve T (fieldOf T e).header).pair = e ∧
      store T (resolve T (fieldOf T e).header) = some T := by
  exact ⟨getPair_idxOf ((found_iff hname).mp hfound).1, rfl⟩

theorem packLoop_found (es : List Entry) (hnames : ∀ e ∈ es, e.1 ≠ [])
    (hall : ∀ e ∈ es, Found T e) : ∀ (hs : List HeaderField) (ba : ByteArray) (rt : ℕ), ba.Wf →
    rt < 2 ^ 31 →
    (∀ n hp' ba', packLoop es rt (⟨T, hs⟩, ba) = .ok n (hp', ba') →
      hp'.table = T ∧ Written ba (encodeFields (es.map (fieldOf T))) ba' ∧
        rt + (encodeFields (es.map (fieldOf T))).length < 2 ^ 31) ∧
    (rt + (encodeFields (es.map (fieldOf T))).length < 2 ^ 31 →
      ∃ n hp' ba', packLoop es rt (⟨T, hs⟩, ba) = .ok n (hp', ba')) := by
  induction es with
  | nil =>
    intro hs ba rt h hrt
    constructor
    · intro n hp' ba' hrun
      cases hrun
      exact ⟨rfl, written_nil h, by simpa [encodeFields] using hrt⟩
    · intro _
      exact ⟨_, _, _, rfl⟩
  | cons e es ih =>
    intro hs ba rt h hrt
    rw [forall_mem_cons] at hnames hall
    obtain ⟨hc, ba₁, hfield, hwritten⟩ := packField_found hnames.1 hall.1 h
    have hnext := ih hnames.2 hall.2 (hs ++ [(fieldOf T e).header]) ba₁
      (rt + (fieldOf T e).encode.length) hwritten.wf
    rw [map_cons, encodeFields_cons, length_append, ← add_assoc]
    have hstep : ∀ hlt : rt + (fieldOf T e).encode.length < 2 ^ 31,
        packLoop (e :: es) rt (⟨T, hs⟩, ba) = packLoop es (rt + (fieldOf T e).encode.length : ℕ)
          (⟨T, hs ++ [(fieldOf T e).header]⟩, ba₁) := by
      intro hlt
      have hsum := checkedInt_natCast hlt
      exact packLoop_step hc hfield hsum
    constructor
    · intro n hp' ba' hrun
      have hlt : rt + (fieldOf T e).encode.length < 2 ^ 31 := by
        obtain ⟨header, table, len, rt', ba₂, hc', hfield', hsum, -⟩ := packLoop_cases hrun
        cases hc.symm.trans hc'
        cases hfield.symm.trans hfield'
        have := (checkedInt_eq_some.mp hsum).2.1
        omega
      rw [hstep hlt] at hrun
      obtain ⟨htable, hrest, hlen⟩ := (hnext hlt).1 n hp' ba' hrun
      exact ⟨htable, hwritten.append h hrest, hlen⟩
    · intro hlen
      have hlt : rt + (fieldOf T e).encode.length < 2 ^ 31 := by omega
      obtain ⟨n, hp', ba', hrun⟩ := (hnext hlt).2 hlen
      exact ⟨n, hp', ba', (hstep hlt).trans hrun⟩

theorem parseLoop_found {length start : ℕ} (hlength : length < 2 ^ 31) (es : List Entry)
    (hnames : ∀ e ∈ es, e.1 ≠ []) (hall : ∀ e ∈ es, Found T e) :
    ∀ (hs : List HeaderField) (ba : ByteArray) (rest : List UInt8) (rounds parsed : ℕ), ba.Wf →
    ba.unread = encodeFields (es.map (fieldOf T)) ++ rest → es.length < rounds →
    ba.position = start + parsed →
    parsed + (encodeFields (es.map (fieldOf T))).length = length →
    ∃ new ba', parseLoop (intOfSize start) length rounds parsed (⟨T, hs⟩, ba) =
      .ok length (⟨T, hs ++ new⟩, ba') ∧ new.map HeaderField.pair = es := by
  induction es with
  | nil =>
    intro hs ba rest rounds parsed _ _ hrounds _ hparsed
    obtain ⟨rounds, rfl⟩ : ∃ r, rounds = r + 1 := exists_eq_add_one.mpr hrounds
    obtain rfl : parsed = length := by simpa [encodeFields] using hparsed
    refine ⟨[], ba, ?_, rfl⟩
    rw [parseLoop, if_neg (lt_irrefl _), pure_run, append_nil]
  | cons e es ih =>
    intro hs ba rest rounds parsed hwf hunread hrounds hpos hparsed
    obtain ⟨rounds, rfl⟩ : ∃ r, rounds = r + 1 := ⟨rounds - 1, by omega⟩
    obtain ⟨hname, hnames⟩ := forall_mem_cons.mp hnames
    obtain ⟨hfound, hall⟩ := forall_mem_cons.mp hall
    obtain ⟨hpair, hstore⟩ := resolve_found hname hfound
    have hbytes := (fieldOf T e).length_encode_pos
    rw [map_cons, encodeFields_cons, append_assoc] at hunread
    rw [map_cons, encodeFields_cons, length_append] at hparsed
    have hlt : (parsed : ℤ) < length := by omega
    have hstep : parseLoop (intOfSize start) length (rounds + 1) parsed (⟨T, hs⟩, ba) = _ :=
      parseLoop_step (reads_found e hname hfound) hlt hstore hwf rfl hunread
    rw [hpos, add_assoc, parsed_eq (by omega)] at hstep
    obtain ⟨new, ba', hrun, hnew⟩ := ih hnames hall (hs ++ [resolve T (fieldOf T e).header])
      (ba.advance (fieldOf T e).encode.length) rest rounds
      (parsed + (fieldOf T e).encode.length)
      (advance_wf hwf (length_le_getReadSize hwf hunread)) (unread_advance_append hunread)
      (by simpa using hrounds) (by rw [← add_assoc, ← hpos]; rfl) (by omega)
    refine ⟨resolve T (fieldOf T e).header :: new, ba', ?_, by rw [map_cons, hpair, hnew]⟩
    rw [hstep, hrun, append_assoc]
    rfl

theorem parseLoop_takes {hs : List HeaderField} {ba ba₁ : ByteArray} {rounds : ℕ}
    {pos length parsed n : ℤ} {hp₁ : HPack}
    (hloop : parseLoop pos length rounds parsed (⟨T, hs⟩, ba) = .ok n (hp₁, ba₁))
    (hpairs : hp₁.headers.map HeaderField.pair = hs.map HeaderField.pair ++ e :: es) :
    ∃ f ba₂ T₂ r q, readField ba = .ok (some f) ba₂ ∧ store T (resolve T f) = some T₂ ∧
      q < 2 ^ 31 ∧
      parseLoop pos length r q (⟨T₂, hs ++ [resolve T f]⟩, ba₂) = .ok n (hp₁, ba₁) := by
  cases rounds with
  | zero => cases hloop
  | succ rounds =>
    rcases parseLoop_cases hloop with ⟨-, -, rfl⟩ | ⟨-, rfl⟩ | ⟨f, ba₂, T₂, hread, hs, hnext⟩
    · simp at hpairs
    · simp at hpairs
    · exact ⟨f, ba₂, T₂, rounds, _, hread, hs, Int.bmod_lt (by simp), hnext⟩

/-- What arrives as it was sent has been found. The induction is on the headers; the first
one that is not found arrives as another one, and what arrives stays. -/
theorem found_of_parseLoop (hsize : T.entries.length ≤ 2 ^ 32) (es : List Entry)
    (hnames : ∀ e ∈ es, e.1 ≠ []) : ∀ (hs : List HeaderField) (tx : ByteArray) (rt : ℤ) {n : ℤ}
      {hp' : HPack} {tx' : ByteArray}, tx.Wf →
    packLoop es rt (⟨T, hs⟩, tx) = .ok n (hp', tx') →
    ∃ d, Written tx d tx' ∧ ∀ (hs₀ : List HeaderField) {ba ba₁ : ByteArray} {rest : List UInt8}
      {rounds : ℕ} {pos length parsed n₁ : ℤ} {hp₁ : HPack}, ba.Wf → ba.unread = d ++ rest →
      parseLoop pos length rounds parsed (⟨T, hs₀⟩, ba) = .ok n₁ (hp₁, ba₁) →
      hp₁.headers.map HeaderField.pair = hs₀.map HeaderField.pair ++ es →
      ∀ e ∈ es, Found T e := by
  induction es with
  | nil =>
    intro hs tx rt n hp' tx' h hrun
    cases hrun
    exact ⟨[], written_nil h, by simp⟩
  | cons e es ih =>
    intro hs tx rt n hp' tx' h hrun
    obtain ⟨header, table, len, rt', tx₁, hc, hfield, -, hrest⟩ := packLoop_cases hrun
    obtain ⟨hname, hnames⟩ := forall_mem_cons.mp hnames
    by_cases hfound : Found T e
    · obtain ⟨hc', tx₂, hfield', hwritten⟩ := packField_found hname hfound h
      cases hc.symm.trans hc'
      cases hfield.symm.trans hfield'
      obtain ⟨d, hd, hback⟩ := ih hnames _ tx₁ rt' hwritten.wf hrest
      refine ⟨_, hwritten.append h hd, ?_⟩
      intro hs₀ ba ba₁ rest rounds pos length parsed n₁ hp₁ hwf hunread hloop hpairs
      rw [append_assoc] at hunread
      obtain ⟨f, ba₂, T₂, r, q, hread, hs, -, hnext⟩ := parseLoop_takes hloop hpairs
      cases hread.symm.trans (reads_found e hname hfound ba _ hwf rfl hunread)
      obtain ⟨hpair, hstore⟩ := resolve_found hname hfound
      cases hs.symm.trans hstore
      have hle := length_le_getReadSize hwf hunread
      exact forall_mem_cons.mpr ⟨hfound, hback _ (advance_wf hwf hle)
        (unread_advance_append hunread) hnext (by simp [hpairs, hpair])⟩
    · obtain ⟨d, hd, hne⟩ := resolve_pair_ne hname hfound hsize hc h hfield
      obtain ⟨d', hd'⟩ := packLoop_appends hd.wf hrest
      refine ⟨_, hd.append h hd', ?_⟩
      intro hs₀ ba ba₁ rest rounds pos length parsed n₁ hp₁ hwf hunread hloop hpairs
      rw [append_assoc] at hunread
      obtain ⟨f, ba₂, T₂, r, q, hread, -, hq, hnext⟩ := parseLoop_takes hloop hpairs
      obtain ⟨new, hnew⟩ := (parseLoop_inv hq hnext).1
      rw [← hnew] at hpairs
      simp only [map_append, append_assoc, append_cancel_left_eq, map_cons,
        map_nil, cons_append, cons.injEq] at hpairs
      exact absurd hpairs.1 (hne hwf hunread hread)

theorem pack_eq {l : List Entry} {heap : ℕ → UInt8} {hp hp' : HPack} {tx : ByteArray} {n : ℤ}
    {d : List UInt8} (hloop : packLoop l 0 (hp, create 4096 heap) = .ok n (hp', tx))
    (hd : Written (create 4096 heap) d tx) : pack l heap hp = .ok (n, d) hp' := by
  obtain ⟨tx₀, hset, hp₀⟩ := setPosition_spec hd.wf (zero_le tx.capacity)
  have hout : tx₀.unread = d := by
    rw [hp₀.unread_eq, hd.contents_eq]
    simp [contents, create, splice]
  refine withLocal_eq_ok_iff.mpr ⟨tx₀, ?_⟩
  rw [bind_ok hloop, bind_ok (onSnd_ok hp' hset),
    bind_ok (onSnd_ok hp' (toString_ok hp₀.wf)), hout, pure_run]

theorem pack_inv {l : List Entry} {heap : ℕ → UInt8} {hp hp' : HPack} {n : ℤ}
    {out : List UInt8} (hrun : pack l heap hp = .ok (n, out) hp') :
    ∃ tx, packLoop l 0 (hp, create 4096 heap) = .ok n (hp', tx) ∧
      Written (create 4096 heap) out tx := by
  obtain ⟨tx', hlocal⟩ := withLocal_eq_ok_iff.mp hrun
  obtain ⟨m, ⟨hp₁, tx⟩, hloop, -⟩ := bind_eq_ok_iff.mp hlocal
  obtain ⟨d, hd⟩ := packLoop_appends (create_wf (by simp) heap) hloop
  cases hrun.symm.trans (pack_eq hloop hd)
  exact ⟨tx, hloop, hd⟩

end

/-! Whole histories. -/

/-- Wherever `out` is parsed, the headers `l` arrive and the table becomes `T'`. -/
def Delivers (T : DynamicTable) (out : List UInt8) (l : List Entry) (T' : DynamicTable) : Prop :=
  ∀ (hs : List HeaderField) (ba : ByteArray) (rest : List UInt8), ba.Wf →
    ba.unread = out ++ rest → ∃ n new ba',
      parse out.length (⟨T, hs⟩, ba) = .ok n (⟨T', hs ++ new⟩, ba') ∧
        new.map HeaderField.pair = l

/-- Both sides start with the table `T`: every list arrives, and after each of them the
tables are equal again. -/
def RoundTrips (heap : ℕ → UInt8) : DynamicTable → List (List Entry) → Prop
  | _, [] => True
  | T, l :: ls => ∃ out T',
      (∀ hs, ∃ n hs', pack l heap ⟨T, hs⟩ = .ok (n, out) ⟨T', hs'⟩) ∧
      Delivers T out l T' ∧ RoundTrips heap T' ls

/-- All of the list stands in the tables, and an `int` holds the length of its indices. -/
def Indexable (T : DynamicTable) (l : List Entry) : Prop :=
  (∀ e ∈ l, Found T e) ∧ (encodeFields (l.map (fieldOf T))).length < 2 ^ 31

section

variable {T : DynamicTable} {l : List Entry} {heap : ℕ → UInt8}

theorem pack_indexable (hnames : ∀ e ∈ l, e.1 ≠ []) (h : Indexable T l)
    (hs : List HeaderField) : ∃ n hs',
    pack l heap ⟨T, hs⟩ = .ok (n, encodeFields (l.map (fieldOf T))) ⟨T, hs'⟩ := by
  have hwf : (create 4096 heap).Wf := create_wf (by simp) heap
  obtain ⟨hinv, hreturns⟩ := packLoop_found l hnames h.1 hs _ 0 hwf (by simp)
  obtain ⟨n, ⟨T', hs'⟩, tx, hloop⟩ := hreturns (by simpa using h.2)
  obtain ⟨htable, hwritten, -⟩ := hinv n _ tx hloop
  obtain rfl : T' = T := htable
  exact ⟨n, hs', pack_eq hloop hwritten⟩

theorem delivers_indexable (hnames : ∀ e ∈ l, e.1 ≠ []) (h : Indexable T l) :
    Delivers T (encodeFields (l.map (fieldOf T))) l T := by
  intro hs ba rest hwf hunread
  have hrounds : l.length < ba.getReadSize + 1 := by
    have hcount := length_le_encodeFields (l.map (fieldOf T))
    have := length_le_getReadSize hwf hunread
    rw [length_map] at hcount
    omega
  obtain ⟨new, ba', hrun, hnew⟩ := parseLoop_found h.2 l hnames h.1 hs ba rest _ 0 hwf hunread
    hrounds rfl (zero_add _)
  exact ⟨_, new, ba', hrun, hnew⟩

theorem roundTrips_of_indexable (ls : List (List Entry)) (hnames : ∀ l ∈ ls, ∀ e ∈ l, e.1 ≠ [])
    (h : ∀ l ∈ ls, Indexable T l) : RoundTrips heap T ls := by
  induction ls with
  | nil => trivial
  | cons l ls ih =>
    rw [forall_mem_cons] at hnames h
    exact ⟨_, T, pack_indexable hnames.1 h.1, delivers_indexable hnames.1 h.1, ih hnames.2 h.2⟩

theorem indexable_of_delivers {T' : DynamicTable} {out : List UInt8} {n : ℤ}
    {hs' : List HeaderField} (hnames : ∀ e ∈ l, e.1 ≠ []) (hsize : T.entries.length ≤ 2 ^ 32)
    (hpack : pack l heap ⟨T, []⟩ = .ok (n, out) ⟨T', hs'⟩) (hdel : Delivers T out l T') :
    Indexable T l ∧ T' = T := by
  have hwf : (create 4096 heap).Wf := create_wf (by simp) heap
  obtain ⟨tx, hloop, hout⟩ := pack_inv hpack
  obtain ⟨d, hd, hback⟩ := found_of_parseLoop hsize l hnames [] _ 0 hwf hloop
  cases hpack.symm.trans (pack_eq hloop hd)
  obtain ⟨ba, hba, hunread⟩ := exists_unread out
  obtain ⟨m, new, ba', hparse, hnew⟩ := hdel [] ba [] hba hunread
  have hall := hback [] hba hunread hparse (by simpa using hnew)
  obtain ⟨htable, -, hlen⟩ :=
    (packLoop_found l hnames hall [] _ 0 hwf (by simp)).1 n _ tx hloop
  exact ⟨⟨hall, by simpa using hlen⟩, htable⟩

theorem indexable_of_roundTrips (ls : List (List Entry)) (hnames : ∀ l ∈ ls, ∀ e ∈ l, e.1 ≠ [])
    (hsize : T.entries.length ≤ 2 ^ 32) (h : RoundTrips heap T ls) : ∀ l ∈ ls, Indexable T l := by
  induction ls with
  | nil => simp
  | cons l ls ih =>
    obtain ⟨out, T', hpack, hdel, hrest⟩ := h
    obtain ⟨n, hs', hpack⟩ := hpack []
    rw [forall_mem_cons] at hnames
    obtain ⟨hl, rfl⟩ := indexable_of_delivers hnames.1 hsize hpack hdel
    exact forall_mem_cons.mpr ⟨hl, ih hnames.2 hrest⟩

end

/-- Header lists survive exactly when all their headers stand in the tables already; with
`parse(std::string&)` none does. -/
theorem pack_parse_lists (heap : ℕ → UInt8) (T : DynamicTable) (ls : List (List Entry))
    (hnames : ∀ l ∈ ls, ∀ e ∈ l, e.1 ≠ []) :
    ((∀ l ∈ ls, Indexable T l) → RoundTrips heap T ls) ∧
    (T.entries.length ≤ 2 ^ 32 → RoundTrips heap T ls → ∀ l ∈ ls, Indexable T l) ∧
    ∀ data hs, parseString data heap ⟨T, hs⟩ = .crash :=
  ⟨roundTrips_of_indexable ls hnames, indexable_of_roundTrips ls hnames,
    fun data hs => parseString_crash data heap ⟨T, hs⟩⟩

theorem pack_parse_lists_method_get :
    RoundTrips (fun _ => 0) DynamicTable.create [[(ascii ":method", ascii "GET")], []] := by
  have hidx : DynamicTable.create.entries.idxOf (ascii ":method", ascii "GET") = 2 := by decide
  have hfound : Found DynamicTable.create (ascii ":method", ascii "GET") :=
    ⟨2, by decide, by decide⟩
  refine (pack_parse_lists _ _ _ (by simp [ascii])).1 ?_
  intro l hl
  simp only [mem_cons, not_mem_nil, or_false] at hl
  obtain rfl | rfl := hl
  · refine ⟨by simpa using hfound, ?_⟩
    simp only [map_cons, map_nil, fieldOf, hidx]
    decide
  · exact ⟨by simp, by decide⟩

/-- A header whose name alone stands in the tables, after one that has been stored. -/
theorem pack_parse_path_fails : ∃ T : DynamicTable,
    DynamicTable.create.update (ascii "a") (ascii "b") = some T ∧
    ¬ RoundTrips (fun _ => 0) T [[(ascii ":path", ascii "x")]] := by
  refine ⟨⟨4096, 34, [(ascii "a", ascii "b")]⟩, by decide +kernel, ?_⟩
  intro h
  have hall := indexable_of_roundTrips _ (by simp [ascii]) (by decide) h
    [(ascii ":path", ascii "x")] (by simp)
  have hmem := ((found_iff (by decide)).mp (hall.1 _ (mem_singleton_self _))).1
  exact absurd hmem (by decide +kernel)

end JKYi.Http2
