import JKYi.ByteArray.Codec

/-!
# Reachable arrays and reads of zero bytes

`read` looks at `m_cur` before it looks at the length, so a read of zero bytes
needs a node under the cursor, and there is none when the cursor is at the end
of the chain. Over all reachable arrays this is the only way a read within
`getReadSize()` fails, and it shows when an empty string is read back whose
length field ends with the chain.
-/

namespace JKYi.ByteArray

open List

variable {ba : ByteArray}

/-- The arrays a program can build. `fill` stores bytes through a pointer that
`getWriteBuffers` has handed out. -/
inductive Reachable : ByteArray → Prop where
  | create (b : ℕ) (heap : ℕ → UInt8) : Reachable (create b heap)
  | wrap (data : List UInt8) (heap : ℕ → UInt8) : Reachable (wrap data heap)
  | setIsLittleEndian {ba : ByteArray} (v : Bool) :
      Reachable ba → Reachable (ba.setIsLittleEndian v)
  | write {ba ba' : ByteArray} {buf : List UInt8} {u : Unit} :
      Reachable ba → write buf ba = .ok u ba' → Reachable ba'
  | read {ba ba' : ByteArray} {len : ℕ} {out : List UInt8} :
      Reachable ba → read len ba = .ok out ba' → Reachable ba'
  | setPosition {ba ba' : ByteArray} {v : ℕ} {u : Unit} :
      Reachable ba → setPosition v ba = .ok u ba' → Reachable ba'
  | clear {ba : ByteArray} : Reachable ba → Reachable ba.clear
  | getWriteBuffers {ba ba' : ByteArray} {iovs : List IoVec} {len : ℕ} {r : ℕ × List IoVec} :
      Reachable ba → getWriteBuffers iovs len ba = .ok r ba' → Reachable ba'
  | fill {ba : ByteArray} (i npos : ℕ) (d : List UInt8) : npos + d.length ≤ ba.baseSize →
      Reachable ba →
      Reachable { ba with nodes := ba.nodes.modify i (fun n => n.memcpy npos d) }

structure Hollow (ba : ByteArray) : Prop where
  baseSize_eq : ba.baseSize = 0
  position_eq : ba.position = 0
  size_eq : ba.size = 0
  capacity_eq : ba.capacity = 0

section

variable {ba' : ByteArray}

theorem Hollow.addCapacity_eq_none (h : Hollow ba) {size : ℕ} (hs : size ≠ 0) :
    ba.addCapacity size = none := by
  have hroom : ¬ size ≤ ba.getWriteSize := by
    rw [getWriteSize, h.capacity_eq]
    omega
  rw [addCapacity, if_neg hs, if_neg hroom, if_pos h.baseSize_eq]

theorem Hollow.write_crash (h : Hollow ba) {buf : List UInt8} (hb : buf ≠ []) :
    write buf ba = .crash := by
  have hlen : buf.length ≠ 0 := by simpa using hb
  rw [write, if_neg hlen, h.addCapacity_eq_none hlen]

theorem Hollow.read_zero_crash (h : Hollow ba) : read 0 ba = .crash := by
  simp [read, walkFrom, h.baseSize_eq]

theorem Hollow.setPosition (h : Hollow ba) {v : ℕ} {u : Unit} (hv : v = 0)
    (hs : setPosition v ba = .ok u ba') : Hollow ba' := by
  subst hv
  rw [ByteArray.setPosition, if_neg (Nat.not_lt_zero _)] at hs
  split at hs
  · cases hs
  · cases hs
    exact ⟨h.baseSize_eq, rfl, by simp [h.size_eq], h.capacity_eq⟩

theorem Hollow.getReadSize_eq (h : Hollow ba) : ba.getReadSize = 0 := by
  rw [getReadSize, h.size_eq, Nat.zero_sub]

end

theorem wf_setIsLittleEndian (h : ba.Wf) (v : Bool) : (ba.setIsLittleEndian v).Wf :=
  ⟨h.base_pos, h.node_size, h.nodes_pos, h.capacity_eq, h.position_le, h.size_le, h.cur_eq⟩

theorem wf_fill (h : ba.Wf) (i : ℕ) {npos : ℕ} {d : List UInt8}
    (hd : npos + d.length ≤ ba.baseSize) :
    Wf { ba with nodes := ba.nodes.modify i (fun n => n.memcpy npos d) } := by
  refine ⟨h.base_pos, size_modify h.node_size hd, ?_, ?_, h.position_le, h.size_le, ?_⟩
  · simpa using h.nodes_pos
  · simpa using h.capacity_eq
  · simpa using h.cur_eq

theorem getWriteBuffers_wf {ba' : ByteArray} {iovs : List IoVec} {len : ℕ}
    {r : ℕ × List IoVec} (h : ba.Wf) (hg : getWriteBuffers iovs len ba = .ok r ba') : ba'.Wf := by
  rw [getWriteBuffers] at hg
  split_ifs at hg with h0
  · cases hg
    exact h
  · split at hg
    · cases hg
    next g hadd =>
      split at hg
      · cases hg
      · cases hg
        exact (addCapacity_grown h hadd).wf

theorem Reachable.wf_or_hollow (h : Reachable ba) : ba.Wf ∨ Hollow ba := by
  induction h with
  | create b heap =>
    rcases Nat.eq_zero_or_pos b with rfl | hb
    · exact .inr ⟨rfl, rfl, rfl, rfl⟩
    · exact .inl (create_wf hb heap)
  | wrap data heap =>
    rcases Nat.eq_zero_or_pos data.length with h0 | hd
    · exact .inr ⟨h0, rfl, h0, h0⟩
    · exact .inl (wrap_wf hd heap)
  | setIsLittleEndian v _ ih =>
    exact ih.imp (wf_setIsLittleEndian · v) fun h => ⟨h.1, h.2, h.3, h.4⟩
  | @write ba ba' buf u _ hw ih =>
    rcases ih with h | h
    · exact .inl (write_ok h hw).wf
    · by_cases hb : buf = []
      · subst hb
        cases hw
        exact .inr h
      · rw [h.write_crash hb] at hw
        cases hw
  | @read ba ba' len out _ hr ih =>
    rcases ih with h | h
    · obtain ⟨hlen, -, rfl⟩ := read_inv h hr
      exact .inl (advance_wf h hlen)
    · rcases Nat.eq_zero_or_pos len with rfl | h0
      · cases hr.symm.trans h.read_zero_crash
      · cases hr.symm.trans (read_raised (by rw [h.getReadSize_eq]; exact h0))
  | @setPosition ba ba' v u _ hs ih =>
    by_cases hv : v ≤ ba.capacity
    · rcases ih with h | h
      · obtain ⟨ba₁, hs₁, hp⟩ := setPosition_spec h hv
        cases hs.symm.trans hs₁
        exact .inl hp.wf
      · exact .inr (h.setPosition (by rwa [h.capacity_eq, Nat.le_zero] at hv) hs)
    · cases hs.symm.trans (setPosition_raised (not_le.mp hv))
  | clear _ ih =>
    exact ih.imp clear_wf fun h => ⟨h.1, rfl, rfl, h.1⟩
  | @getWriteBuffers ba ba' iovs len r _ hg ih =>
    by_cases h0 : len = 0
    · rw [ByteArray.getWriteBuffers, if_pos h0] at hg
      cases hg
      exact ih
    · rcases ih with h | h
      · exact .inl (getWriteBuffers_wf h hg)
      · rw [ByteArray.getWriteBuffers, if_neg h0, h.addCapacity_eq_none h0] at hg
        cases hg
  | fill i npos d hd _ ih =>
    exact ih.imp (wf_fill · i hd) fun h => ⟨h.1, h.2, h.3, h.4⟩

/-- The size of the length field of the empty string. -/
def StringForm.emptyFieldSize : StringForm → ℕ
  | f16 => 2
  | f32 => 4
  | f64 => 8
  | vint => 1

theorem length_lengthField_zero (e : Endian) (f : StringForm) :
    (f.lengthField e 0).length = f.emptyFieldSize := by
  cases f with
  | f16 | f32 | f64 => exact length_fixedBytes _ _ _
  | vint => rw [StringForm.lengthField, varintBytes_of_lt (by decide)]; rfl

theorem lengthField_ne_nil (e : Endian) (f : StringForm) (n : ℕ) : f.lengthField e n ≠ [] := by
  cases f with
  | f16 | f32 | f64 =>
    rw [← length_pos_iff, StringForm.lengthField, length_fixedBytes]
    norm_num
  | vint => exact varintBytes_ne_nil _

theorem length_lengthField_le (e : Endian) (f : StringForm) (n : ℕ) :
    (f.lengthField e n).length ≤ 10 := by
  cases f with
  | f16 | f32 | f64 =>
    rw [StringForm.lengthField, length_fixedBytes]
    norm_num
  | vint =>
    apply length_varintBytes_le (by simp)
    exact (UInt64.toNat_lt _).trans (by simp)

section

variable {f : StringForm} {s : List UInt8}

theorem string_write_back (h : ba.Wf) (hlen : s.length < 2 ^ 53) :
    ∃ ba₁ ba₂ rest, f.write s ba = .ok () ba₁ ∧ setPosition ba.position ba₁ = .ok () ba₂ ∧
      Positioned ba₁ ba.position ba₂ ∧ ba₂.endian = ba.endian ∧
      ba₂.unread = f.lengthField ba.endian s.length ++ (s ++ rest) := by
  have hfield := length_lengthField_le ba.endian f s.length
  obtain ⟨ba₀, hw₀⟩ := write_total h (lt_of_le_of_lt hfield (by norm_num : 10 < 2 ^ 53))
  have h₀ := write_ok h hw₀
  obtain ⟨ba₁, hw₁⟩ := write_total h₀.wf hlen
  have h₁ := h₀.append h (write_ok h₀.wf hw₁)
  have hpos := h.position_le_length
  have hback : ba.position ≤ ba₁.size := by
    rw [h₁.size_eq h]
    exact h.position_le.trans (le_max_left _ _)
  obtain ⟨ba₂, hset, hp⟩ := setPosition_spec h₁.wf (hback.trans h₁.wf.size_le)
  refine ⟨ba₁, ba₂, ba.contents.drop (ba.position + (f.lengthField ba.endian s.length ++ s).length),
    ?_, hset, hp, hp.endian_eq.trans h₁.endian_eq, ?_⟩
  · rw [string_write_eq, Run.bind_ok hw₀, hw₁]
  · rw [unread, hp.position_eq, hp.contents_eq hback, h₁.contents_eq, drop_splice hpos,
      append_assoc]

theorem empty_string_read {ba₁ ba₂ : ByteArray} {rest : List UInt8} (h : ba.Wf)
    (hw : f.write [] ba = .ok () ba₁) (hp : Positioned ba₁ ba.position ba₂)
    (he : ba₂.endian = ba.endian)
    (hd : ba₂.unread = f.lengthField ba.endian 0 ++ rest) :
    (∃ ba₃, f.read ba₂ = .ok [] ba₃) ↔
      ¬ ba.baseSize ∣ ba.position + f.emptyFieldSize ∨
        ba.position + f.emptyFieldSize < ba.capacity := by
  have hsize := length_lengthField_zero ba.endian f
  have hsmall := length_lengthField_le ba.endian f 0
  have hne : (f.lengthField ba.endian 0).length ≠ 0 := by
    simpa using lengthField_ne_nil ba.endian f 0
  obtain ⟨u, ba₀, hw₀, hnil⟩ := Run.bind_eq_ok_iff.mp ((string_write_eq f [] ba).symm.trans hw)
  cases hnil
  rw [length_nil] at hw₀
  have hfill := write_fills_iff h hne (by omega) hw₀
  have hpos := (write_ok h hw₀).position_eq
  have hread := string_read_eq (f := f) (Nat.zero_le _) hp.wf (by rw [he]; exact hd)
  have hwf := advance_wf hp.wf (length_le_getReadSize hp.wf hd)
  rw [he] at hread
  rw [hsize] at hfill hpos
  have hend : (ba₂.advance (f.lengthField ba.endian 0).length).position =
      ba.position + f.emptyFieldSize := by
    rw [← hsize, ← hp.position_eq]
    rfl
  have hcap : (ba₂.advance (f.lengthField ba.endian 0).length).capacity = ba₁.capacity :=
    hp.capacity_eq
  rw [hread]
  rcases read_cases hwf (Nat.zero_le _) with ⟨hcur, hok⟩ | ⟨-, hnull, hcrash⟩
  · rw [hok]
    simp only [take_zero, Outcome.ok.injEq, true_and, exists_eq', true_iff]
    by_contra hno
    push Not at hno
    omega
  · rw [hcrash]
    have := hfill.mp (by omega)
    simp [this]

/-- A length that does not fit is cut to the width of its field. -/
theorem lengthField_mod (e : Endian) (f : StringForm) (hn : n < 2 ^ 53) :
    f.lengthField e n = f.lengthField e (n % (f.maxLength + 1)) := by
  cases f with
  | f16 => exact congrArg (fixedBytes e 2 ·.toNat) (UInt16.ofNat_mod_size ..).symm
  | f32 => exact congrArg (fixedBytes e 4 ·.toNat) (UInt32.ofNat_mod_size ..).symm
  | f64 | vint => rw [Nat.mod_eq_of_lt (hn.trans (by decide))]

/-- A string is read back if its length fits, unless it is empty and its length field ends with the
chain. -/
theorem string_readBack_iff (h : ba.Wf) (hlen : s.length < 2 ^ 53) :
    (∃ ba₁ ba₂ ba₃, f.write s ba = .ok () ba₁ ∧ setPosition ba.position ba₁ = .ok () ba₂ ∧
      f.read ba₂ = .ok s ba₃) ↔
    s.length ≤ f.maxLength ∧ (s ≠ [] ∨ ¬ ba.baseSize ∣ ba.position + f.emptyFieldSize ∨
      ba.position + f.emptyFieldSize < ba.capacity) := by
  obtain ⟨ba₁, ba₂, rest, hw, hset, hp, he, hd⟩ := string_write_back (f := f) h hlen
  refine Iff.trans (b := ∃ ba₃, f.read ba₂ = .ok s ba₃) ⟨?_, ?_⟩ ?_
  · rintro ⟨c₁, c₂, c₃, hw', hset', hr⟩
    cases hw.symm.trans hw'
    cases hset.symm.trans hset'
    exact ⟨c₃, hr⟩
  · rintro ⟨ba₃, hr⟩
    exact ⟨ba₁, ba₂, ba₃, hw, hset, hr⟩
  by_cases hmax : s.length ≤ f.maxLength
  · by_cases hs : s = []
    · subst hs
      simpa using empty_string_read h hw hp he hd
    · have hr := reads_string hs hmax ba₂ rest hp.wf he (by rw [append_assoc]; exact hd)
      simp [hs, hr, hmax]
  · -- the read returns as many bytes as the field says
    refine iff_of_false ?_ fun hno => hmax hno.1
    rintro ⟨ba₃, hr⟩
    have hm := Nat.lt_succ_iff.mp (Nat.mod_lt s.length f.maxLength.succ_pos)
    rw [lengthField_mod _ _ hlen, ← he] at hd
    rw [string_read_eq hm hp.wf hd] at hr
    have hwf := advance_wf hp.wf (length_le_getReadSize hp.wf hd)
    have hout : s.length ≤ _ := (read_inv hwf hr).2.1 ▸ length_take_le ..
    omega

end

/-- The exact condition under which reads within `getReadSize()` and reads of
strings just written return. -/
theorem read_returns_iff_cursor_node {ba : ByteArray} (h : Reachable ba) :
    (∀ len ≤ ba.getReadSize,
      (∃ out ba', read len ba = .ok out ba') ↔ len ≠ 0 ∨ ba.position < ba.capacity) ∧
    ∀ (f : StringForm) (s : List UInt8), s.length < 2 ^ 53 →
      ((∃ ba₁ ba₂ ba₃, f.write s ba = .ok () ba₁ ∧ setPosition ba.position ba₁ = .ok () ba₂ ∧
        f.read ba₂ = .ok s ba₃) ↔
      0 < ba.baseSize ∧ s.length ≤ f.maxLength ∧
        (s ≠ [] ∨ ¬ ba.baseSize ∣ ba.position + f.emptyFieldSize ∨
          ba.position + f.emptyFieldSize < ba.capacity)) := by
  rcases h.wf_or_hollow with h | h
  · constructor
    · intro len hlen
      rcases read_cases h hlen with ⟨hcond, hok⟩ | ⟨h0, hend, hcrash⟩
      · simp [hok, hcond]
      · subst h0
        simp [hcrash, hend]
    · intro f s hlen
      rw [string_readBack_iff h hlen]
      simp [h.base_pos]
  · constructor
    · intro len hlen
      rw [h.getReadSize_eq, Nat.le_zero] at hlen
      subst hlen
      simp [h.read_zero_crash, h.capacity_eq]
    · intro f s _
      have hcrash : f.write s ba = .crash := by
        rw [string_write_eq]
        exact Run.bind_crash (h.write_crash (lengthField_ne_nil _ _ _))
      simp [hcrash, h.baseSize_eq]

theorem read_returns_iff_cursor_node_create :
    Reachable (create 3 fun _ => 0) ∧
    ∃ ba₁ ba₂ ba₃, writeStringF16 [] (create 3 fun _ => 0) = .ok () ba₁ ∧
      setPosition 0 ba₁ = .ok () ba₂ ∧ readStringF16 ba₂ = .ok [] ba₃ := by
  have hreach : Reachable (create 3 fun _ => 0) := .create 3 _
  refine ⟨hreach, ((read_returns_iff_cursor_node hreach).2 .f16 [] ?_).mpr ⟨?_, ?_, .inr (.inl ?_)⟩⟩
  all_goals decide

/-- With two byte nodes the length field of an empty string fills the only node. -/
theorem empty_string_read_crash : Reachable (create 2 fun _ => 0) ∧
    ∃ ba₁ ba₂, writeStringF16 [] (create 2 fun _ => 0) = .ok () ba₁ ∧
      setPosition 0 ba₁ = .ok () ba₂ ∧ readStringF16 ba₂ = .crash :=
  ⟨.create 2 _, _, _, rfl, rfl, rfl⟩

end JKYi.ByteArray
