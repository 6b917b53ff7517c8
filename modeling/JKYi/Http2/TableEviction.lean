import JKYi.Http2.TableRefinement

/-!
# What the dynamic table holds after a sequence of calls

With a fixed maximum the table holds the newest entries that fit, or a last entry that does not
fit at all. `setMaxDataSize` drops nothing, so over arbitrary calls the entries stay within the
maximum only if every call leaves room for them.
-/

namespace JKYi.Http2

open List Option
namespace Format

open List

theorem keep_prefix (room : ℕ) (es : List Entry) : keep room es <+: es := by
  induction es generalizing room with
  | nil => exact prefix_refl []
  | cons e es ih =>
    rw [keep]
    split_ifs
    · exact (prefix_cons_inj e).mpr (ih _)
    · exact nil_prefix

theorem prefix_keep {room : ℕ} {d es : List Entry} (hd : d <+: es) (hsize : tableSize d ≤ room) :
    d <+: keep room es := by
  induction es generalizing room d with
  | nil =>
    rw [prefix_nil.mp hd]
    exact nil_prefix
  | cons e es ih =>
    cases d with
    | nil => exact nil_prefix
    | cons f d =>
      obtain ⟨rfl, hrest⟩ := cons_prefix_cons.mp hd
      rw [tableSize_cons] at hsize
      rw [keep, if_pos (by omega)]
      exact (prefix_cons_inj f).mpr (ih hrest (by omega))

theorem keep_keep {room room' : ℕ} (h : room' ≤ room) (es : List Entry) :
    keep room' (keep room es) = keep room' es := by
  induction es generalizing room room' with
  | nil => rfl
  | cons e es ih =>
    by_cases he : entrySize e ≤ room
    · rw [keep, if_pos he, keep, keep]
      split_ifs with he'
      · rw [ih (by omega)]
      · rfl
    · rw [keep, if_neg he, keep, keep, if_neg (by omega)]

end Format

open Format

namespace DynamicTable

/-- `update` for each entry in turn. -/
def updateAll (es : List Entry) (t : DynamicTable) : Option DynamicTable :=
  es.foldlM (fun t e => t.update e.1 e.2) t

end DynamicTable

/-- `d` is the longest suffix of `es` whose total size is at most `n`. -/
structure LongestSuffix (n : ℕ) (es d : List Entry) : Prop where
  suffix : d <:+ es
  size_le : tableSize d ≤ n
  longest : ∀ d', d' <:+ es → tableSize d' ≤ n → d' <:+ d

theorem longestSuffix_keep (n : ℕ) (es : List Entry) :
    LongestSuffix n es (keep n es.reverse).reverse := by
  refine ⟨?_, ?_, ?_⟩
  · rw [← reverse_prefix, reverse_reverse]
    exact keep_prefix n es.reverse
  · rw [tableSize_reverse]
    exact tableSize_keep_le n es.reverse
  · intro d hd hsize
    rw [← reverse_prefix, reverse_reverse]
    exact prefix_keep (List.reverse_prefix.mpr hd) (by rwa [tableSize_reverse])

def oversizedLast (n : ℕ) (es : List Entry) : Option Entry :=
  es.getLast?.filter fun e => decide (n < entrySize e)

section

variable {n : ℕ} {es : List Entry}

def tableAfter (n : ℕ) (es : List Entry) : Table :=
  ⟨keep n es.reverse, n, tableSize_keep_le n es.reverse⟩

theorem tableAfter_append (e : Entry) :
    tableAfter n (es ++ [e]) = (tableAfter n es).insert e := by
  rw [tableAfter, Table.insert, Table.mk.injEq]
  refine ⟨?_, rfl⟩
  rw [reverse_append, reverse_singleton, singleton_append, keep]
  change _ = if entrySize e ≤ n then e :: keep (n - entrySize e) (keep n es.reverse) else []
  rw [keep_keep (Nat.sub_le n _)]

theorem oversizedLast_append (e : Entry) :
    oversizedLast n (es ++ [e]) = extraAfter (tableAfter n es) e := by
  rw [oversizedLast, extraAfter, getLast?_concat]
  change _ = if entrySize e ≤ n then none else some e
  rw [filter_some]
  by_cases he : n < entrySize e
  · rw [if_pos (decide_eq_true he), if_neg (by omega)]
  · rw [if_neg (by simpa using he), if_pos (by omega)]

theorem trackedSize_lt (hn : n < 2 ^ 30) (hes : ∀ e ∈ es, entrySize e < 2 ^ 30) :
    trackedSize (tableAfter n es) (oversizedLast n es) < 2 ^ 30 := by
  cases h : oversizedLast n es with
  | none => exact ((tableAfter n es).fits).trans_lt hn
  | some e =>
    apply hes
    have hlast : es.getLast? = some e := (filter_eq_some_iff.mp h).1
    exact mem_of_getLast? hlast

theorem tracks_updateAll (hn : n < 2 ^ 30) (hes : ∀ e ∈ es, entrySize e < 2 ^ 30) : ∃ T,
    (DynamicTable.create.setMaxDataSize n).updateAll es = some T ∧
      Tracks T (tableAfter n es) (oversizedLast n es) := by
  induction es using reverseRecOn with
  | nil =>
    refine ⟨_, rfl, ?_, rfl, rfl, rfl⟩
    change n < 2 ^ 31
    omega
  | append_singleton es e ih =>
    have hprev : ∀ e ∈ es, entrySize e < 2 ^ 30 := fun f hf => hes f (by simp [hf])
    have he := hes e (by simp)
    obtain ⟨T, hrun, htracks⟩ := ih hprev
    have hroom := trackedSize_lt hn hprev
    obtain ⟨T', hstep, htracks'⟩ := htracks.update (e := e) (by omega)
    refine ⟨T', ?_, ?_⟩
    · rw [DynamicTable.updateAll, foldlM_append, ← DynamicTable.updateAll, hrun]
      simpa using hstep
    · rwa [tableAfter_append, oversizedLast_append]

end

/-- With a fixed maximum the table holds the longest suffix of the updates that fits, or the last
entry if that alone does not, and its size is known exactly. -/
theorem updateAll_longest (n : ℕ) (es : List Entry) (hn : n < 2 ^ 30)
    (hes : ∀ e ∈ es, entrySize e < 2 ^ 30) : ∃ T,
      (DynamicTable.create.setMaxDataSize n).updateAll es = some T ∧
      T.dataSize = tableSize T.datas ∧
      (∀ e, es.getLast? = some e → n < entrySize e → T.datas = [e]) ∧
      ((∀ e, es.getLast? = some e → entrySize e ≤ n) → LongestSuffix n es T.datas) := by
  obtain ⟨T, hrun, htracks⟩ := tracks_updateAll hn hes
  have hdatas := htracks.datas_eq
  refine ⟨T, hrun, htracks.dataSize_eq, ?_, ?_⟩
  · intro e hlast hbig
    have hover : oversizedLast n es = some e := by simp [oversizedLast, hlast, hbig]
    rw [hover] at hdatas
    exact hdatas.1
  · intro hfits
    have hover : oversizedLast n es = none := by
      rw [oversizedLast, filter_eq_none_iff]
      intro e hlast
      simpa using hfits e hlast
    rw [hover] at hdatas
    change T.datas = _ at hdatas
    rw [hdatas]
    exact longestSuffix_keep n es

theorem updateAll_longest_two : ∃ T,
    (DynamicTable.create.setMaxDataSize 40).updateAll [([97], [98]), ([99], [100])] = some T ∧
    LongestSuffix 40 [([97], [98]), ([99], [100])] T.datas := by
  obtain ⟨T, hrun, -, -, hlongest⟩ := updateAll_longest 40 [([97], [98]), ([99], [100])]
    (by simp) (by decide)
  exact ⟨T, hrun, hlongest (by decide)⟩

/-! Arbitrary calls. -/

/-- A call that changes the table. -/
inductive TableCall where
  | update (name value : List UInt8)
  | setMaxDataSize (v : ℤ)

namespace TableCall

def run : TableCall → DynamicTable → Option DynamicTable
  | update name value, t => t.update name value
  | setMaxDataSize v, t => some (t.setMaxDataSize v)

/-- The argument is a size that an `int` holds. -/
def Valid : TableCall → Prop
  | update _ _ => True
  | setMaxDataSize v => 0 ≤ v ∧ v < 2 ^ 31

/-- The entries that are there, or the new one, fit the maximum, and the sum of the sizes fits an
`int`. -/
def Fits (t : DynamicTable) : TableCall → Prop
  | update name value => (entrySize (name, value) : ℤ) ≤ t.maxDataSize ∧
      entrySize (name, value) + tableSize t.datas < 2 ^ 31
  | setMaxDataSize v => (tableSize t.datas : ℤ) ≤ v

end TableCall

/-- After every call the entries are within the current maximum. -/
def StaysWithin : List TableCall → DynamicTable → Prop
  | [], _ => True
  | c :: cs, t => ∃ t', c.run t = some t' ∧ (tableSize t'.datas : ℤ) ≤ t'.maxDataSize ∧
      StaysWithin cs t'

def AllFit : List TableCall → DynamicTable → Prop
  | [], _ => True
  | c :: cs, t => c.Fits t ∧ ∀ t', c.run t = some t' → AllFit cs t'

/-- The entries are within the maximum and their size is known. -/
structure Within (t : DynamicTable) : Prop where
  max_lt : t.maxDataSize < 2 ^ 31
  dataSize_eq : t.dataSize = tableSize t.datas
  size_le : (tableSize t.datas : ℤ) ≤ t.maxDataSize

section

variable {t t' : DynamicTable} {c : TableCall}

theorem Within.represents (h : Within t) : ∃ f : Table, Represents t f ∧
    (f.maxSize : ℤ) = t.maxDataSize ∧ tableSize f.entries = tableSize t.datas := by
  obtain ⟨hmax, hsize, hle⟩ := h
  obtain ⟨m, hm⟩ : ∃ m : ℕ, t.maxDataSize = m := ⟨t.maxDataSize.toNat, by omega⟩
  have hfits : tableSize t.datas.reverse ≤ m := by
    rw [tableSize_reverse]
    omega
  refine ⟨⟨t.datas.reverse, m, hfits⟩, ⟨?_, hm, hsize, ?_⟩, hm.symm, tableSize_reverse _⟩
  · change m < 2 ^ 31
    omega
  · exact (reverse_reverse t.datas).symm

theorem update_datas {name value : List UInt8} (h : t.update name value = some t') :
    t'.maxDataSize = t.maxDataSize ∧ ∃ kept, t'.datas = kept ++ [(name, value)] := by
  obtain ⟨⟨size, kept⟩, -, h⟩ := bind_eq_some_iff.mp h
  obtain ⟨sum, -, rfl⟩ := map_eq_some_iff.mp h
  exact ⟨rfl, kept, rfl⟩

theorem Within.update (h : Within t) {name value : List UInt8}
    (hfits : (TableCall.update name value).Fits t) : ∃ t', t.update name value = some t' ∧
      Within t' := by
  obtain ⟨f, hrep, hmax, hsize⟩ := h.represents
  have hle : entrySize (name, value) ≤ f.maxSize := by
    have hfit := hfits.1
    omega
  have hroom : entrySize (name, value) + trackedSize f none < 2 ^ 31 := by
    rw [trackedSize, hsize]
    exact hfits.2
  obtain ⟨t', hrun, htracks⟩ := Tracks.update hrep hroom
  have hextra : extraAfter f (name, value) = none := if_pos hle
  rw [hextra] at htracks
  have htable : tableSize t'.datas = tableSize (f.insert (name, value)).entries := by
    rw [htracks.tableSize_datas, trackedSize]
  have hbound := (f.insert (name, value)).fits
  refine ⟨t', hrun, ?_, htracks.dataSize_eq, ?_⟩
  · rw [htracks.maxDataSize_eq]
    exact_mod_cast htracks.maxSize_lt
  · rw [htracks.maxDataSize_eq, htable]
    exact_mod_cast hbound

theorem Within.run (h : Within t) (hvalid : c.Valid) (hfits : c.Fits t) :
    ∃ t', c.run t = some t' ∧ Within t' := by
  cases c with
  | update name value => exact h.update hfits
  | setMaxDataSize v => exact ⟨_, rfl, hvalid.2, h.dataSize_eq, hfits⟩

theorem Within.fits_of_run (h : Within t) (hrun : c.run t = some t')
    (hle : (tableSize t'.datas : ℤ) ≤ t'.maxDataSize) : c.Fits t := by
  cases c with
  | update name value =>
    obtain ⟨hmax, kept, hdatas⟩ := update_datas hrun
    rw [hdatas, tableSize_append, tableSize_cons, tableSize_nil, hmax] at hle
    have hfit : (entrySize (name, value) : ℤ) ≤ t.maxDataSize := by omega
    refine ⟨hfit, ?_⟩
    by_contra hover
    obtain ⟨f, hrep, -, hsize⟩ := h.represents
    have hlt := h.max_lt
    have hnone : t.update name value = none := by
      apply Tracks.update_overflow (e := (name, value)) hrep (by omega)
      rw [trackedSize, hsize]
      omega
    cases hnone.symm.trans hrun
  | setMaxDataSize v =>
    cases hrun
    exact hle

theorem staysWithin_iff_allFit {cs : List TableCall} (hvalid : ∀ c ∈ cs, c.Valid) (h : Within t) :
    StaysWithin cs t ↔ AllFit cs t := by
  induction cs generalizing t with
  | nil => exact Iff.rfl
  | cons c cs ih =>
    have hc := hvalid c (by simp)
    have hcs : ∀ c ∈ cs, c.Valid := fun d hd => hvalid d (by simp [hd])
    constructor
    · rintro ⟨t', hrun, hle, hstays⟩
      have hfits := h.fits_of_run hrun hle
      refine ⟨hfits, fun t'' hrun' => ?_⟩
      obtain ⟨t₁, hrun₁, hwithin⟩ := h.run hc hfits
      cases hrun.symm.trans hrun₁
      cases hrun.symm.trans hrun'
      exact (ih hcs hwithin).mp hstays
    · rintro ⟨hfits, hall⟩
      obtain ⟨t', hrun, hwithin⟩ := h.run hc hfits
      exact ⟨t', hrun, hwithin.size_le, (ih hcs hwithin).mpr (hall t' hrun)⟩

end

theorem within_create : Within DynamicTable.create := ⟨by decide, rfl, by decide⟩

/-- Over every sequence of calls the entries stay within the current maximum exactly if every call
fits the state in which it is made. -/
theorem staysWithin_create_iff (cs : List TableCall) (hvalid : ∀ c ∈ cs, c.Valid) :
    StaysWithin cs DynamicTable.create ↔ AllFit cs DynamicTable.create :=
  staysWithin_iff_allFit hvalid within_create

theorem update_create : DynamicTable.create.update [97] [98] = some ⟨4096, 34, [([97], [98])]⟩ := by
  decide +kernel

theorem staysWithin_create_iff_one :
    StaysWithin [.update [97] [98], .setMaxDataSize 100] DynamicTable.create := by
  rw [staysWithin_create_iff _ (by simp [TableCall.Valid])]
  refine ⟨⟨by decide, by decide⟩, fun t hrun => ?_⟩
  cases update_create.symm.trans hrun
  exact ⟨(by decide : (tableSize [([97], [98])] : ℤ) ≤ 100), fun _ _ => trivial⟩

/-- Lowering the maximum drops nothing, and an entry that is larger than the table is stored. -/
theorem entries_exceed_maximum :
    ¬ StaysWithin [.update [97] [98], .setMaxDataSize 0] DynamicTable.create ∧
    ¬ StaysWithin [.setMaxDataSize 33, .update [97] [98]] DynamicTable.create := by
  constructor
  · rintro ⟨t, hrun, -, t', hset, hle, -⟩
    cases update_create.symm.trans hrun
    cases hset
    exact absurd hle (by decide)
  · rintro ⟨t, hset, -, t', hrun, hle, -⟩
    cases hset
    obtain ⟨hmax, kept, hdatas⟩ := update_datas hrun
    rw [hdatas, tableSize_append, tableSize_cons, tableSize_nil, hmax] at hle
    change ((tableSize kept + (34 + 0) : ℕ) : ℤ) ≤ 33 at hle
    omega

end JKYi.Http2
