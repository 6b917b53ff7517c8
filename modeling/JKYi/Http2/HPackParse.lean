import JKYi.Http2.HPackRead
import JKYi.Http2.TableRefinement

/-!
# Parsing header blocks

`HPack::parse` against the format, over every block. The decoder is right
where it takes nothing but whole entries from the table: a literal with an
indexed name loses its name and takes its value from the table. `Handled` is
the condition on the representations of a block under which this and the
oversized entries of the table have no consequence.
-/

namespace JKYi.Http2

open JKYi.ByteArray Format HPack List Run Option

/-! What holds of every run. -/

variable {h : HeaderField}

theorem store_maxDataSize {T T' : DynamicTable} (hs : store T h = some T') :
    T'.maxDataSize = T.maxDataSize := by
  have hupdate : ∀ name value, T.update name value = some T' → T'.maxDataSize = T.maxDataSize := by
    intro name value hu
    unfold DynamicTable.update at hu
    obtain ⟨r, -, hr⟩ := bind_eq_some_iff.mp hu
    obtain ⟨size, -, rfl⟩ := map_eq_some_iff.mp hr
    rfl
  unfold store at hs
  split at hs
  · exact hupdate _ _ hs
  · exact hupdate _ _ hs
  · cases hs
    rfl

section

variable {pos length : ℤ} {rounds : ℕ} {parsed n : ℤ} {hp hp' : HPack} {ba ba' : ByteArray}

theorem acceptField_ok {T : DynamicTable}
    (hs : store hp.table (resolve hp.table h) = some T) : acceptField h (hp, ba) =
      .ok () (⟨T, hp.headers ++ [resolve hp.table h]⟩, ba) := by
  simp only [acceptField, hs]

theorem acceptField_crash (hs : store hp.table (resolve hp.table h) = none) :
    acceptField h (hp, ba) = .crash := by
  simp only [acceptField, hs]

theorem parseLoop_cases (hrun : parseLoop pos length (rounds + 1) parsed (hp, ba) =
      .ok n (hp', ba')) :
    (length ≤ parsed ∧ n = parsed ∧ hp' = hp) ∨ (n = -1 ∧ hp' = hp) ∨
    ∃ h ba₁ T, readField ba = .ok (some h) ba₁ ∧
      store hp.table (resolve hp.table h) = some T ∧
      parseLoop pos length rounds ((ba₁.getPosition - pos).bmod (2 ^ 32))
        (⟨T, hp.headers ++ [resolve hp.table h]⟩, ba₁) = .ok n (hp', ba') := by
  rw [parseLoop] at hrun
  split_ifs at hrun with hlt
  · obtain ⟨r, ⟨hp₁, ba₁⟩, hfield, hrest⟩ := bind_eq_ok_iff.mp hrun
    obtain ⟨rfl, hread⟩ := onSnd_eq_ok_iff.mp hfield
    cases r with
    | none =>
      cases hrest
      exact .inr (.inl ⟨rfl, rfl⟩)
    | some h =>
      dsimp only at hrest
      cases hs : store hp₁.table (resolve hp₁.table h) with
      | none =>
        rw [bind_crash (acceptField_crash hs)] at hrest
        cases hrest
      | some T =>
        rw [bind_ok (acceptField_ok hs), bind_ok (get_run _)] at hrest
        exact .inr (.inr ⟨h, ba₁, T, hread, hs, hrest⟩)
  · cases hrun
    exact .inl ⟨not_lt.mp hlt, rfl, rfl⟩

theorem parseLoop_inv (hparsed : parsed < 2 ^ 31)
    (hrun : parseLoop pos length rounds parsed (hp, ba) = .ok n (hp', ba')) :
    hp.headers <+: hp'.headers ∧ hp'.table.maxDataSize = hp.table.maxDataSize ∧ n < 2 ^ 31 := by
  induction rounds generalizing parsed hp ba with
  | zero => cases hrun
  | succ rounds ih =>
    rcases parseLoop_cases hrun with ⟨-, rfl, rfl⟩ | ⟨rfl, rfl⟩ | ⟨h, ba₁, T, -, hs, hrest⟩
    · exact ⟨prefix_rfl, rfl, hparsed⟩
    · exact ⟨prefix_rfl, rfl, by norm_num⟩
    · have hnext : ((ba₁.getPosition : ℤ) - pos).bmod (2 ^ 32) < 2 ^ 31 :=
        Int.bmod_lt (by simp)
      obtain ⟨hpre, hmax, hn⟩ := ih hnext hrest
      exact ⟨(prefix_append _ _).trans hpre, hmax.trans (store_maxDataSize hs), hn⟩

theorem parseLoop_step {e : Endian} {T : DynamicTable} {d rest : List UInt8}
    (hread : Reads e readField (some h) d) (hlt : parsed < length)
    (hs : store hp.table (resolve hp.table h) = some T) (hwf : ba.Wf) (he : ba.endian = e)
    (hunread : ba.unread = d ++ rest) : parseLoop pos length (rounds + 1) parsed (hp, ba) =
      parseLoop pos length rounds (((ba.position + d.length : ℕ) - pos).bmod (2 ^ 32))
        (⟨T, hp.headers ++ [resolve hp.table h]⟩, ba.advance d.length) := by
  rw [parseLoop, if_pos hlt, bind_ok (onSnd_ok hp (hread ba rest hwf he hunread))]
  dsimp only
  rw [bind_ok (acceptField_ok hs), bind_ok (get_run _)]
  rfl

end

/-! The condition. -/

/-- What the decoder takes from the table is what is meant: for an indexed name it is
the value of the entry, and no name. -/
def Format.Field.TakenWhole (t : Table) : Field → Prop
  | .literal _ (.indexed i) value => t.lookup i = some ([], value.text)
  | _ => True

/-- The fields that are parsed as they are meant. `extra` is the oversized entry in
the table before them; there is none in the end. -/
def Handled : Table → Option Entry → List Field → Prop
  | _, extra, [] => extra = none
  | t, extra, f :: fs => ∃ e, f.entry t = some e ∧ f.TakenWhole t ∧
      (∀ s ∈ f.strings, BufferFits s) ∧
      (f.isStored = true → entrySize e + trackedSize t extra < 2 ^ 31) ∧
      Handled (t.after f e) (if f.isStored then extraAfter t e else extra) fs

/-- An `int` holds the size of every entry that is stored. -/
def SizesFit : Table → List Field → Prop
  | _, [] => True
  | t, f :: fs => ∀ e, f.entry t = some e →
      (f.isStored = true → entrySize e < 2 ^ 31) ∧ SizesFit (t.after f e) fs

def Yields (out : Outcome Exn (HPack × ByteArray) ℤ) (length : ℤ) (headers : List HeaderField)
    (es : List Entry) (t' : Table) : Prop :=
  ∃ hp' ba', out = .ok length (hp', ba') ∧
    ∃ new, hp'.headers = headers ++ new ∧ new.map HeaderField.pair = es ∧ Represents hp'.table t'

theorem not_yields_crash {length : ℤ} {headers : List HeaderField} {es : List Entry} {t' : Table} :
    ¬ Yields .crash length headers es t' := by
  rintro ⟨_, _, hrun, -⟩
  cases hrun

theorem yields_cons {out : Outcome Exn (HPack × ByteArray) ℤ} {length : ℤ}
    {headers : List HeaderField} {r : HeaderField} {e : Entry} {es : List Entry} {t' : Table}
    (hpre : ∀ n hp' ba', out = .ok n (hp', ba') → headers ++ [r] <+: hp'.headers) :
    Yields out length headers (e :: es) t' ↔
      r.pair = e ∧ Yields out length (headers ++ [r]) es t' := by
  constructor
  · rintro ⟨hp', ba', hrun, new, hnew, hmap, hrep⟩
    obtain ⟨more, hmore⟩ := hpre _ _ _ hrun
    have hcons : new = r :: more := by
      rw [hnew, append_assoc] at hmore
      exact (append_cancel_left hmore).symm
    rw [hcons, map_cons] at hmap
    obtain ⟨hr, hes⟩ := List.cons.inj hmap
    exact ⟨hr, hp', ba', hrun, more, hmore.symm, hes, hrep⟩
  · rintro ⟨rfl, hp', ba', hrun, more, hmore, rfl, hrep⟩
    refine ⟨hp', ba', hrun, r :: more, ?_, rfl, hrep⟩
    rw [hmore, append_assoc]
    rfl

section

variable {T : DynamicTable} {t : Table} {extra : Option Entry} {f : Field} {e : Entry}

theorem Tracks.indexOk (h : Tracks T t extra) (he : f.entry t = some e) : f.IndexOk := by
  cases f with
  | indexed i =>
    have := h.index_lt he
    change i < 2 ^ 32
    omega
  | literal mode name value =>
    cases name with
    | indexed i =>
      obtain ⟨o, ho, -⟩ := map_eq_some_iff.mp he
      have := h.index_lt ho
      change 0 < i ∧ i < 2 ^ 32
      omega
    | literal s => trivial

theorem Tracks.resolve_pair (h : Tracks T t extra) (he : f.entry t = some e) :
    (resolve T f.header).pair = e ↔ f.TakenWhole t := by
  cases f with
  | indexed i =>
    have hpair := h.getPair_eq he
    simp [resolve, Field.header, HeaderField.pair, hpair, Field.TakenWhole]
  | literal mode name value =>
    cases name with
    | indexed i =>
      obtain ⟨o, ho, rfl⟩ := map_eq_some_iff.mp he
      have hpos := (h.index_lt ho).1
      have hpair := h.getPair_eq ho
      have htype : mode.indexedName ≠ .indexed := by cases mode <;> decide
      simp only [resolve, Field.header, htype, if_false, hpos, if_true, HeaderField.pair, hpair,
        Field.TakenWhole, ho, Option.some.injEq]
      constructor
      · intro heq
        obtain ⟨hname, hvalue⟩ := Prod.mk.inj heq
        exact Prod.ext hname.symm hvalue
      · rintro rfl
        rfl
    | literal s =>
      have htype : mode.newName ≠ .indexed := by cases mode <;> decide
      cases he
      simp [resolve, Field.header, htype, HeaderField.pair, Field.TakenWhole]

theorem Tracks.store_eq (h : Tracks T t extra) (he : f.entry t = some e) (hf : f.TakenWhole t) :
    store T (resolve T f.header) = if f.isStored then T.update e.1 e.2 else some T := by
  cases f with
  | indexed i => rfl
  | literal mode name value =>
    cases name with
    | indexed i =>
      have hpos := (h.index_lt hf).1
      have hpair := h.getPair_eq hf
      change (t.lookup i).map _ = _ at he
      rw [show t.lookup i = some ([], value.text) from hf] at he
      cases he
      cases mode <;>
        simp [resolve, Field.header, store, Indexing.indexedName, hpos, hpair,
          DynamicTable.getName, Field.isStored]
    | literal s =>
      cases he
      cases mode <;>
        simp [resolve, Field.header, store, Indexing.newName, Field.isStored]

theorem Tracks.after (h : Tracks T t extra) (he : f.entry t = some e) (hf : f.TakenWhole t)
    (hroom : f.isStored = true → entrySize e + trackedSize t extra < 2 ^ 31) :
    ∃ T', store T (resolve T f.header) = some T' ∧
      Tracks T' (t.after f e) (if f.isStored then extraAfter t e else extra) := by
  rw [h.store_eq he hf, Table.after]
  cases hstored : f.isStored with
  | false => exact ⟨T, rfl, h⟩
  | true => exact h.update (hroom hstored)

theorem Tracks.store_overflow (h : Tracks T t extra) (he : f.entry t = some e)
    (hf : f.TakenWhole t) (hstored : f.isStored = true) (hsize : entrySize e < 2 ^ 31)
    (hover : 2 ^ 31 ≤ entrySize e + trackedSize t extra) :
    store T (resolve T f.header) = none := by
  rw [h.store_eq he hf, if_pos hstored]
  exact h.update_overflow hsize hover

end

theorem parsed_eq {start k : ℕ} (hk : k < 2 ^ 31) :
    (((start + k : ℕ) : ℤ) - intOfSize start).bmod (2 ^ 32) = k := by
  have hdiff : ((start + k : ℕ) : ℤ) - start = k := by omega
  have hint := intOfSize_eq hk
  unfold intOfSize at hint ⊢
  rw [Int.sub_bmod_bmod, hdiff, hint]

theorem represents_iff {T : DynamicTable} {t : Table} {extra : Option Entry}
    (h : Tracks T t extra) : Represents T t ↔ extra = none := by
  constructor
  · intro hrep
    cases extra with
    | none => rfl
    | some o =>
      have hd := hrep.datas_eq
      obtain ⟨hone, hnil, -⟩ := h.datas_eq
      change T.datas = _ at hd
      rw [hone, hnil] at hd
      cases hd
  · rintro rfl
    exact h

theorem parseLoop_crash {pos length parsed : ℤ} {rounds : ℕ} {hp : HPack} {ba : ByteArray}
    {e : Endian} {d rest : List UInt8} (hread : Reads e readField (some h) d)
    (hlt : parsed < length) (hs : store hp.table (resolve hp.table h) = none) (hwf : ba.Wf)
    (he : ba.endian = e) (hunread : ba.unread = d ++ rest) :
    parseLoop pos length (rounds + 1) parsed (hp, ba) = .crash := by
  rw [parseLoop, if_pos hlt, bind_ok (onSnd_ok hp (hread ba rest hwf he hunread))]
  dsimp only
  rw [bind_crash (acceptField_crash hs)]

/-- The loop over the bytes of a list of fields. The induction is on the fields, with
`extra` as the difference between the two tables. -/
theorem parseLoop_fields {length start : ℕ} (hlength : length < 2 ^ 31) (fs : List Field) :
    ∀ {t t' : Table} {extra : Option Entry} {hp : HPack} {ba : ByteArray} {rounds parsed : ℕ}
      {es : List Entry} {rest : List UInt8}, Tracks hp.table t extra →
    decodeFields t fs = some (es, t') → SizesFit t fs →
    (∀ f ∈ fs, ∀ s ∈ f.strings, s.content.length < 2 ^ 31) → ba.Wf →
    ba.unread = encodeFields fs ++ rest → fs.length < rounds → ba.position = start + parsed →
    parsed + (encodeFields fs).length = length →
    (Yields (parseLoop (intOfSize start) length rounds parsed (hp, ba)) length hp.headers es t' ↔
      Handled t extra fs) := by
  induction fs with
  | nil =>
    intro t t' extra hp ba rounds parsed es rest htracks hdec _ _ _ _ hrounds _ hparsed
    obtain ⟨rounds, rfl⟩ : ∃ r, rounds = r + 1 := Nat.exists_eq_add_one.mpr hrounds
    have hdone : ¬ (parsed : ℤ) < length := by
      rw [← hparsed]
      simp [encodeFields]
    have heq : (parsed : ℤ) = length := by
      rw [← hparsed]
      simp [encodeFields]
    cases hdec
    rw [parseLoop, if_neg hdone, pure_run]
    constructor
    · rintro ⟨hp', ba', hrun, new, -, -, hrep⟩
      cases hrun
      exact (represents_iff htracks).mp hrep
    · intro hnone
      exact ⟨hp, ba, by rw [heq], [], by simp, rfl, (represents_iff htracks).mpr hnone⟩
  | cons f fs ih =>
    intro t t' extra hp ba rounds parsed es rest htracks hdec hsizes hstrings hwf hunread hrounds
      hpos hparsed
    obtain ⟨rounds, rfl⟩ : ∃ r, rounds = r + 1 := ⟨rounds - 1, by omega⟩
    obtain ⟨e, es, he, hdec', rfl⟩ := decodeFields_cons.mp hdec
    obtain ⟨hsize, hsizes'⟩ := hsizes e he
    have hidx := htracks.indexOk he
    have hlen := hstrings f (by simp)
    have hbytes := f.length_encode_pos
    rw [encodeFields_cons, append_assoc] at hunread
    rw [encodeFields_cons, length_append] at hparsed
    have hlt : (parsed : ℤ) < length := by omega
    by_cases hfits : ∀ s ∈ f.strings, BufferFits s
    · have hread := reads_readField (e := ba.endian) hidx fun s hs => ⟨hlen s hs, hfits s hs⟩
      have hnext : ∀ {T₁ : DynamicTable}, store hp.table (resolve hp.table f.header) = some T₁ →
          (Yields (parseLoop (intOfSize start) length (rounds + 1) parsed (hp, ba)) length
              hp.headers (e :: es) t' ↔ f.TakenWhole t ∧
            Yields (parseLoop (intOfSize start) length rounds (parsed + f.encode.length : ℕ)
              (⟨T₁, hp.headers ++ [resolve hp.table f.header]⟩, ba.advance f.encode.length)) length
              (hp.headers ++ [resolve hp.table f.header]) es t') := by
        intro T₁ hstore
        rw [parseLoop_step hread hlt hstore hwf rfl hunread, hpos, Nat.add_assoc,
          parsed_eq (by omega), yields_cons, htracks.resolve_pair he]
        intro n hp' ba' hrun
        exact (parseLoop_inv (by omega) hrun).1
      by_cases hwhole : f.TakenWhole t
      · by_cases hroom : f.isStored = true → entrySize e + trackedSize t extra < 2 ^ 31
        · obtain ⟨T₁, hstore, htracks₁⟩ := htracks.after he hwhole hroom
          change Tracks (HPack.mk T₁ (hp.headers ++ [resolve hp.table f.header])).table _ _
            at htracks₁
          have hrest := ih htracks₁ hdec' hsizes' (fun g hg => hstrings g (by simp [hg]))
            (advance_wf hwf (length_le_getReadSize hwf hunread)) (unread_advance_append hunread)
            (Nat.lt_of_succ_lt_succ hrounds)
            (show ba.position + f.encode.length = start + (parsed + f.encode.length) by omega)
            (by omega)
          rw [hnext hstore, hrest]
          constructor
          · rintro ⟨-, hy⟩
            exact ⟨e, he, hwhole, hfits, hroom, hy⟩
          · rintro ⟨e', he', -, -, -, hy⟩
            cases he.symm.trans he'
            exact ⟨hwhole, hy⟩
        · obtain ⟨hstored, hover⟩ := Classical.not_imp.mp hroom
          have hnone := htracks.store_overflow he hwhole hstored (hsize hstored) (not_lt.mp hover)
          rw [parseLoop_crash hread hlt hnone hwf rfl hunread]
          apply iff_of_false not_yields_crash
          rintro ⟨e', he', -, -, hroom', -⟩
          cases he.symm.trans he'
          exact hroom hroom'
      · apply iff_of_false
        · intro hy
          cases hstore : store hp.table (resolve hp.table f.header) with
          | none =>
            rw [parseLoop_crash hread hlt hstore hwf rfl hunread] at hy
            exact not_yields_crash hy
          | some T₁ => exact hwhole ((hnext hstore).mp hy).1
        · rintro ⟨-, -, hwhole', -⟩
          exact hwhole hwhole'
    · have hcrash := crashes_readField (e := ba.endian) hidx hlen hfits ba _ hwf rfl hunread
      rw [parseLoop, if_pos hlt, bind_crash (onSnd_crash hp hcrash)]
      apply iff_of_false not_yields_crash
      rintro ⟨-, -, -, hfits', -⟩
      exact hfits hfits'

/-! Blocks. -/

/-- `parse` of a block returns its length, appends the fields `es` and leaves the table `t'`. -/
def Parses (T : DynamicTable) (block : List UInt8) (es : List Entry) (t' : Table) : Prop :=
  ∀ (headers : List HeaderField) (ba : ByteArray) (rest : List UInt8), ba.Wf →
    ba.unread = block ++ rest →
    Yields (parse block.length (⟨T, headers⟩, ba)) block.length headers es t'

/-- No size update, a length that an `int` holds, and fields that are handled. -/
def BlockHandled (t : Table) (b : Block) : Prop :=
  b.updates = [] ∧ b.encode.length < 2 ^ 31 ∧ Handled t none b.fields

theorem Handled.sizesFit {fs : List Field} : ∀ {t : Table} {extra : Option Entry},
    Handled t extra fs → SizesFit t fs := by
  induction fs with
  | nil =>
    intro t extra _
    trivial
  | cons f fs ih =>
    rintro t extra ⟨e, he, -, -, hroom, hrest⟩ e' he'
    cases he.symm.trans he'
    exact ⟨fun hstored => lt_of_le_of_lt (Nat.le_add_right _ _) (hroom hstored), ih hrest⟩

section

variable {T : DynamicTable} {t t' : Table} {es : List Entry} {b : Block}

theorem exists_unread (d : List UInt8) : ∃ ba : ByteArray, ba.Wf ∧ ba.unread = d ++ [] := by
  rcases d.eq_nil_or_concat with rfl | ⟨xs, x, rfl⟩
  · exact ⟨create 1 fun _ => 0, create_wf Nat.one_pos _, rfl⟩
  · refine ⟨wrap (xs ++ [x]) fun _ => 0, wrap_wf (by simp) _, ?_⟩
    simp [unread, contents, memory, wrap]

theorem parse_eq (length : ℤ) (hp : HPack) (ba : ByteArray) : parse length (hp, ba) =
    parseLoop (intOfSize ba.position) length (ba.getReadSize + 1) 0 (hp, ba) := rfl

theorem parses_iff_of_no_updates (hT : Represents T t) (hno : b.updates = [])
    (hdec : b.decode t = some (es, t')) (hsizes : SizesFit t b.fields)
    (hlen : b.encode.length < 2 ^ 31) : Parses T b.encode es t' ↔ Handled t none b.fields := by
  have henc : b.encode = encodeFields b.fields := by simp [Block.encode, hno]
  have hfields : decodeFields t b.fields = some (es, t') := by
    simpa [Block.decode, hno] using hdec
  rw [henc] at hlen ⊢
  have hstrings : ∀ f ∈ b.fields, ∀ s ∈ f.strings, s.content.length < 2 ^ 31 := by
    intro f hf s hs
    exact ((Field.length_content_le hs).trans (length_encode_le hf)).trans_lt hlen
  have hloop : ∀ (headers : List HeaderField) {ba : ByteArray} {rest : List UInt8}, ba.Wf →
      ba.unread = encodeFields b.fields ++ rest →
      (Yields (parse (encodeFields b.fields).length (⟨T, headers⟩, ba))
        (encodeFields b.fields).length headers es t' ↔ Handled t none b.fields) := by
    intro headers ba rest hwf hunread
    have hrounds := (length_le_encodeFields b.fields).trans (length_le_getReadSize hwf hunread)
    exact parseLoop_fields hlen b.fields (show Tracks (HPack.mk T headers).table t none from hT)
      hfields hsizes hstrings hwf hunread (Nat.lt_succ_of_le hrounds) rfl (Nat.zero_add _)
  constructor
  · intro hparses
    obtain ⟨ba, hwf, hunread⟩ := exists_unread (encodeFields b.fields)
    exact (hloop [] hwf hunread).mp (hparses [] ba [] hwf hunread)
  · intro hhandled headers ba rest hwf hunread
    exact (hloop headers hwf hunread).mpr hhandled

theorem Parses.bounds {block : List UInt8} (hT : Represents T t) (h : Parses T block es t') :
    block.length < 2 ^ 31 ∧ t'.maxSize = t.maxSize := by
  obtain ⟨ba, hwf, hunread⟩ := exists_unread block
  obtain ⟨hp', ba', hrun, -, -, -, hrep⟩ := h [] ba [] hwf hunread
  obtain ⟨-, hmax, hlen⟩ := parseLoop_inv (by simp) hrun
  have hold := hT.maxDataSize_eq
  have hnew := hrep.maxDataSize_eq
  change hp'.table.maxDataSize = T.maxDataSize at hmax
  omega

theorem not_parses_small_update {block : List UInt8} {n : ℕ} (hn : n < 16) :
    ¬ Parses T (prefixInt 5 0x20 n ++ block) es t' := by
  intro h
  have hbyte : (UInt8.ofNat (0x20 + n)).toNat = 0x20 + n :=
    UInt8.toNat_ofNat_of_lt' (by rw [UInt8.size]; omega)
  have hfirst : prefixInt 5 0x20 n = [UInt8.ofNat (0x20 + n)] := by
    rw [prefixInt, if_pos (by omega)]
  obtain ⟨ba, hwf, hunread⟩ := exists_unread (prefixInt 5 0x20 n ++ block)
  obtain ⟨hp', ba', hrun, -⟩ := h [] ba [] hwf hunread
  have hlen : (0 : ℤ) < (prefixInt 5 0x20 n ++ block).length := by simp [hfirst]
  rw [hfirst, append_assoc] at hunread
  have hread : readField ba = .ok none (ba.advance 1) := by
    rw [readField, bind_ok (reads_readFuint8 _ ba _ hwf rfl hunread),
      readRepresentation_update (by rw [hbyte]; omega) (by rw [hbyte]; omega)]
    rfl
  rw [parse_eq, parseLoop, if_pos hlen, bind_ok (onSnd_ok _ hread)] at hrun
  cases hrun

theorem parses_of_handled (hT : Represents T t) (hdec : b.decode t = some (es, t'))
    (h : BlockHandled t b) : Parses T b.encode es t' := by
  obtain ⟨hno, hlen, hhandled⟩ := h
  exact (parses_iff_of_no_updates hT hno hdec hhandled.sizesFit hlen).mpr hhandled

/-- The converse. A size update goes wrong when it changes the limit or is small. -/
theorem handled_of_parses (hT : Represents T t) (hdec : b.decode t = some (es, t'))
    (hsizes : b.updates = [] → SizesFit t b.fields)
    (hupdates : ∀ n ns, b.updates = n :: ns → t'.maxSize = t.maxSize → n < 16)
    (h : Parses T b.encode es t') : BlockHandled t b := by
  obtain ⟨hlen, hmax⟩ := h.bounds hT
  have hno : b.updates = [] := by
    cases hups : b.updates with
    | nil => rfl
    | cons n ns =>
      have henc : b.encode = prefixInt 5 0x20 n ++
          (ns.flatMap (prefixInt 5 0x20) ++ encodeFields b.fields) := by
        simp [Block.encode, hups]
      rw [henc] at h
      exact absurd h (not_parses_small_update (hupdates n ns hups hmax))
  exact ⟨hno, hlen, (parses_iff_of_no_updates hT hno hdec (hsizes hno) hlen).mp h⟩

/-- A block that is handled is parsed as the format says, on every table. The other
direction leaves out entries whose size an `int` does not hold and size updates, from
16 on, after which the limit is the old one: they are misread but may go unnoticed.
`parse(std::string&)` frees the string and parses no block. -/
theorem parse_block (hT : Represents T t) (hdec : b.decode t = some (es, t')) :
    (BlockHandled t b → Parses T b.encode es t') ∧
    ((b.updates = [] → SizesFit t b.fields) →
      (∀ n ns, b.updates = n :: ns → t'.maxSize = t.maxSize → n < 16) →
      Parses T b.encode es t' → BlockHandled t b) ∧
    ∀ heap hs, parseString b.encode heap ⟨T, hs⟩ = .crash :=
  ⟨parses_of_handled hT hdec, handled_of_parses hT hdec,
    fun heap hs => parseString_crash b.encode heap ⟨T, hs⟩⟩

end

theorem represents_create : Represents DynamicTable.create (Table.empty 4096) :=
  ⟨by decide, rfl, rfl, rfl⟩

theorem parse_block_method_get :
    Represents DynamicTable.create (Table.empty 4096) ∧
    Parses DynamicTable.create [0x82] [(ascii ":method", ascii "GET")] (Table.empty 4096) := by
  have hdec : Block.decode ⟨[], [.indexed 2]⟩ (Table.empty 4096) =
      some ([(ascii ":method", ascii "GET")], Table.empty 4096) := by rfl
  refine ⟨represents_create, (parse_block represents_create hdec).1 ⟨rfl, by decide, ?_⟩⟩
  exact ⟨(ascii ":method", ascii "GET"), rfl, trivial, by simp [Field.strings],
    by simp [Field.isStored], rfl⟩

/-- A literal with an indexed name: `:path` with the value `a`. -/
theorem parse_indexed_name_fails : Represents DynamicTable.create (Table.empty 4096) ∧
    ∃ b : Block, b.encode = [0x04, 0x01, 0x61] ∧
    b.decode (Table.empty 4096) = some ([(ascii ":path", ascii "a")], Table.empty 4096) ∧
    ¬ Parses DynamicTable.create b.encode [(ascii ":path", ascii "a")] (Table.empty 4096) := by
  have hdec : Block.decode ⟨[], [.literal .without (.indexed 4) ⟨false, ascii "a"⟩]⟩
      (Table.empty 4096) = some ([(ascii ":path", ascii "a")], Table.empty 4096) := by rfl
  refine ⟨represents_create, ⟨[], [.literal .without (.indexed 4) ⟨false, ascii "a"⟩]⟩, by decide,
    hdec, ?_⟩
  intro h
  obtain ⟨-, -, e, -, hwhole, -⟩ := handled_of_parses represents_create hdec
    (fun _ => by simp [SizesFit, Field.isStored]) (by simp) h
  have hentry : (Table.empty 4096).lookup 4 = some (ascii ":path", ascii "/") := by decide
  exact absurd (hentry.symm.trans hwhole) (by decide)

end JKYi.Http2
