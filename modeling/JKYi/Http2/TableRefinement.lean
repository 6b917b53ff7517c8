import JKYi.Http2.HeaderFormat

/-!
# The dynamic table against the format

`DynamicTable` keeps an entry that is larger than the whole table, where the
format leaves the table empty. `Tracks` allows for this one difference: `extra`
is the entry that should not be there. The next entry that fits removes it.
-/

namespace JKYi.Http2

open Format List Option

/-- `T` holds the entries of `t`, or only the oversized entry `extra`. -/
structure Tracks (T : DynamicTable) (t : Table) (extra : Option Entry) : Prop where
  maxSize_lt : t.maxSize < 2 ^ 31
  maxDataSize_eq : T.maxDataSize = t.maxSize
  dataSize_eq : T.dataSize = tableSize T.datas
  datas_eq : match extra with
    | none => T.datas = t.entries.reverse
    | some e => T.datas = [e] ∧ t.entries = [] ∧ t.maxSize < entrySize e

/-- The table of the code that holds exactly the entries of `t`. -/
def Represents (T : DynamicTable) (t : Table) : Prop := Tracks T t none

def extraAfter (t : Table) (e : Entry) : Option Entry :=
  if entrySize e ≤ t.maxSize then none else some e

def trackedSize (t : Table) : Option Entry → ℕ
  | none => tableSize t.entries
  | some e => entrySize e

variable {T : DynamicTable} {t : Table} {extra : Option Entry} {e : Entry}

theorem Tracks.tableSize_datas (h : Tracks T t extra) :
    tableSize T.datas = trackedSize t extra := by
  have hd := h.datas_eq
  cases extra with
  | none =>
    change T.datas = _ at hd
    rw [hd, tableSize_reverse, trackedSize]
  | some e =>
    rw [hd.1, tableSize_cons, tableSize_nil, trackedSize, Nat.add_zero]

theorem entries_length_lt (h : t.maxSize < 2 ^ 31) : t.entries.length < 2 ^ 26 := by
  have hlen := length_le_tableSize t.entries
  have hfits := t.fits
  omega

theorem Tracks.getPair_eq (h : Tracks T t extra) {i : ℕ} (hi : t.lookup i = some e) :
    T.getPair i = e := by
  have hd := h.datas_eq
  unfold Table.lookup at hi
  split_ifs at hi with h0
  rw [DynamicTable.getPair_eq, DynamicTable.entries, getD_eq_getElem?_getD]
  cases extra with
  | none =>
    change T.datas = _ at hd
    rw [hd, reverse_reverse, hi, getD_some]
  | some o =>
    rw [hd.2.1, append_nil] at hi
    obtain ⟨hlt, -⟩ := List.getElem?_eq_some_iff.mp hi
    rw [List.getElem?_append_left hlt, hi, getD_some]

theorem Tracks.index_lt (h : Tracks T t extra) {i : ℕ} (hi : t.lookup i = some e) :
    0 < i ∧ i < 2 ^ 27 := by
  unfold Table.lookup at hi
  split_ifs at hi with h0
  obtain ⟨hlt, -⟩ := List.getElem?_eq_some_iff.mp hi
  have hlen := entries_length_lt h.maxSize_lt
  rw [length_append, length_staticHeaders] at hlt
  omega

theorem checkedInt_natCast {n : ℕ} (h : n < 2 ^ 31) : checkedInt n = some (n : ℤ) := by
  rw [checkedInt_eq_some]
  omega

theorem checkedInt_eq_none {n : ℕ} (h : 2 ^ 31 ≤ n) : checkedInt n = none := by
  rw [checkedInt, if_neg]
  omega

theorem evict_eq (maxSize : ℕ) {len : ℕ} (datas : List Entry)
    (hsize : len + tableSize datas < 2 ^ 31) :
    DynamicTable.evict maxSize len (tableSize datas) datas =
      some ((tableSize (keep (maxSize - len) datas.reverse) : ℤ),
        (keep (maxSize - len) datas.reverse).reverse) := by
  induction datas with
  | nil =>
    have hsum := checkedInt_natCast hsize
    push_cast at hsum
    simp only [DynamicTable.evict, hsum, map_some, reverse_nil, keep]
  | cons e datas ih =>
    have hsum := checkedInt_natCast hsize
    have hcons := tableSize_cons e datas
    have hpos : 0 < entrySize e := by
      unfold entrySize
      omega
    have hrest : ((tableSize (e :: datas) : ℤ) - entrySize e).bmod (2 ^ 32) = tableSize datas := by
      have hdiff : (tableSize (e :: datas) : ℤ) - entrySize e = tableSize datas := by omega
      rw [hdiff]
      apply Int.bmod_eq_of_le <;> omega
    push_cast at hsum
    simp only [DynamicTable.evict, hsum, bind_some, hrest, reverse_cons]
    split_ifs with hover
    · rw [ih (by omega), keep_append_singleton]
      rw [tableSize_append, tableSize_reverse, tableSize_cons, tableSize_nil]
      omega
    · have hkeep : keep (maxSize - len) (datas.reverse ++ [e]) = datas.reverse ++ [e] := by
        apply keep_eq_self
        rw [tableSize_append, tableSize_reverse, tableSize_cons, tableSize_nil]
        omega
      rw [hkeep]
      simp [Nat.add_comm]

theorem evict_overflow {maxSize len : ℕ} (datas : List Entry)
    (hsize : 2 ^ 31 ≤ len + tableSize datas) :
    DynamicTable.evict maxSize len (tableSize datas) datas = none := by
  have hsum := checkedInt_eq_none hsize
  push_cast at hsum
  cases datas with
  | nil => simp only [DynamicTable.evict, hsum, map_none]
  | cons e datas => simp only [DynamicTable.evict, hsum, bind_none]

theorem Tracks.datas_insert (h : Tracks T t extra) :
    match extraAfter t e with
    | none => (keep (t.maxSize - entrySize e) T.datas.reverse).reverse ++ [(e.1, e.2)] =
        (t.insert e).entries.reverse
    | some o => (keep (t.maxSize - entrySize e) T.datas.reverse).reverse ++ [(e.1, e.2)] = [o] ∧
        (t.insert e).entries = [] ∧ (t.insert e).maxSize < entrySize o := by
  have hkeep : keep (t.maxSize - entrySize e) T.datas.reverse =
      keep (t.maxSize - entrySize e) t.entries := by
    have hd := h.datas_eq
    cases extra with
    | none =>
      change T.datas = _ at hd
      rw [hd, reverse_reverse]
    | some o =>
      obtain ⟨hd, hnil, hbig⟩ := hd
      have hno : ¬ entrySize o ≤ t.maxSize - entrySize e := by omega
      simp only [hd, hnil, reverse_singleton, keep, if_neg hno]
  unfold extraAfter
  split_ifs with hfit
  · simp [hkeep, Table.insert, hfit]
  · have hnone : keep (t.maxSize - entrySize e) t.entries = [] := by
      have hzero : tableSize (keep (t.maxSize - entrySize e) t.entries) ≤ 0 :=
        (tableSize_keep_le _ _).trans (by omega)
      have hlen := length_le_tableSize (keep (t.maxSize - entrySize e) t.entries)
      exact length_eq_zero_iff.mp (by omega)
    simp only [hkeep, hnone, Table.insert, if_neg hfit, reverse_nil, nil_append, true_and]
    omega

theorem Tracks.update (h : Tracks T t extra) (hroom : entrySize e + trackedSize t extra < 2 ^ 31) :
    ∃ T', T.update e.1 e.2 = some T' ∧ Tracks T' (t.insert e) (extraAfter t e) := by
  have hlen : intOfSize (e.1.length + e.2.length + 32) = entrySize e :=
    intOfSize_eq (by unfold entrySize at hroom; omega)
  rw [← h.tableSize_datas] at hroom
  have hkept := tableSize_keep_le (t.maxSize - entrySize e) T.datas.reverse
  generalize hdef : keep (t.maxSize - entrySize e) T.datas.reverse = kept
  have hevict := evict_eq t.maxSize T.datas hroom
  have hsum : checkedInt ((tableSize kept : ℤ) + entrySize e) =
      some ((tableSize kept : ℤ) + entrySize e) := by
    have hmax := h.maxSize_lt
    rw [hdef] at hkept
    rw [checkedInt_eq_some]
    omega
  have hdatas := h.datas_insert (e := e)
  rw [hdef] at hevict hdatas
  refine ⟨⟨t.maxSize, tableSize kept + entrySize e, kept.reverse ++ [(e.1, e.2)]⟩, ?_, ?_⟩
  · rw [DynamicTable.update]
    rw [hlen, h.maxDataSize_eq, h.dataSize_eq, hevict, bind_some]
    dsimp only
    rw [hsum, map_some]
  · refine ⟨h.maxSize_lt, rfl, ?_, hdatas⟩
    simp

theorem Tracks.update_overflow (h : Tracks T t extra) (he : entrySize e < 2 ^ 31)
    (hover : 2 ^ 31 ≤ entrySize e + trackedSize t extra) : T.update e.1 e.2 = none := by
  have hlen : intOfSize (e.1.length + e.2.length + 32) = entrySize e := intOfSize_eq he
  rw [← h.tableSize_datas] at hover
  unfold DynamicTable.update
  simp only [hlen, h.maxDataSize_eq, h.dataSize_eq, evict_overflow T.datas hover, bind_none]

end JKYi.Http2
