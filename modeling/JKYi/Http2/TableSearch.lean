import JKYi.Http2.TableEviction

/-!
# Searching the header tables

`findPair` and `findIndex` search the static table and then the dynamic one, newest entry first,
which is the order of the indices that `getPair` decodes. The search of `findPair` counts down from
`size() - 1`, which for an empty table is the largest `size_t`; here its accesses are spelled out.
-/

namespace JKYi.Http2

open JKYi.ByteArray List

section

variable {name value : List UInt8} {es fs : List Entry}

theorem indexLoop_of_not_mem (h : ∀ e ∈ es, e.1 ≠ name) (i : ℤ) : indexLoop name es i = -1 := by
  induction es generalizing i with
  | nil => rfl
  | cons e es ih =>
    rw [indexLoop, if_neg (h e (by simp)), ih fun f hf => h f (by simp [hf])]

theorem indexLoop_of_mem (h : ∃ e ∈ es, e.1 = name) (i : ℤ) : ∃ (k : ℕ) (e : Entry),
    indexLoop name es i = i + k ∧ es[k]? = some e ∧ e.1 = name ∧
      ∀ j < k, ∀ f, es[j]? = some f → f.1 ≠ name := by
  induction es generalizing i with
  | nil => simp at h
  | cons e es ih =>
    by_cases he : e.1 = name
    · refine ⟨0, e, ?_, rfl, he, fun j hj => absurd hj (Nat.not_lt_zero j)⟩
      rw [indexLoop, if_pos he, Nat.cast_zero, Int.add_zero]
    · have hrest : ∃ e ∈ es, e.1 = name := by
        obtain ⟨f, hf, hname⟩ := h
        rcases mem_cons.mp hf with rfl | hf
        · exact absurd hname he
        · exact ⟨f, hf, hname⟩
      obtain ⟨k, f, hloop, hf, hname, hfirst⟩ := ih hrest (i + 1)
      refine ⟨k + 1, f, ?_, by simpa using hf, hname, ?_⟩
      · rw [indexLoop, if_neg he, hloop]
        push_cast
        ring
      · intro j hj g hg
        cases j with
        | zero =>
          cases hg
          exact he
        | succ j => exact hfirst j (by omega) g (by simpa using hg)

theorem indexLoop_append (es fs : List Entry) {i : ℤ} (hi : 0 ≤ i) :
    indexLoop name (es ++ fs) i =
      if indexLoop name es i = -1 then indexLoop name fs (i + es.length)
      else indexLoop name es i := by
  induction es generalizing i with
  | nil => simp [indexLoop]
  | cons e es ih =>
    rw [cons_append, indexLoop, indexLoop, add_length_cons]
    by_cases he : e.1 = name
    · rw [if_pos he, if_pos he, if_neg (by omega)]
    · rw [if_neg he, if_neg he, ih (by omega)]

theorem pairLoop_keeps (h : (name, value) ∉ es) (i : ℤ) {k : ℤ} (hk : k ≠ -1) :
    pairLoop name value es i (k, false) = (k, false) := by
  induction es generalizing i with
  | nil => rfl
  | cons e es ih =>
    rw [mem_cons, not_or] at h
    have hrest := ih h.2 (i + 1)
    rw [pairLoop]
    split_ifs with h1 h2
    · exact absurd (Prod.ext h1.symm h2.symm) h.1
    · exact hrest
    · exact hrest

theorem pairLoop_eq_indexLoop (h : (name, value) ∉ es) {i : ℤ} (hi : 0 ≤ i) :
    pairLoop name value es i (-1, false) = (indexLoop name es i, false) := by
  induction es generalizing i with
  | nil => rfl
  | cons e es ih =>
    rw [mem_cons, not_or] at h
    rw [pairLoop, indexLoop]
    by_cases h1 : e.1 = name
    · have h2 : e.2 ≠ value := fun h2 => h.1 (Prod.ext h1.symm h2.symm)
      rw [if_pos h1, if_pos h1, if_neg h2, if_pos rfl]
      exact pairLoop_keeps h.2 (i + 1) (by omega)
    · rw [if_neg h1, if_neg h1]
      exact ih h.2 (by omega)

end

namespace DynamicTable

variable {t : DynamicTable} {name value : List UInt8}

theorem entries_cons (t : DynamicTable) :
    t.entries = ([], []) :: (staticHeaders.tail ++ t.datas.reverse) := rfl

theorem findIndex_eq (t : DynamicTable) (hname : name ≠ []) :
    t.findIndex name = indexLoop name t.entries 0 := by
  have hlen : (1 : ℤ) + (staticHeaders.tail.length : ℤ) = 62 := by decide
  rw [entries_cons, indexLoop, if_neg (fun h => hname h.symm), Int.zero_add,
    indexLoop_append _ _ (by simp), hlen]
  rfl

theorem getPair_of_getElem? {k : ℕ} {e : Entry} (h : t.entries[k]? = some e) :
    t.getPair k = e := by
  rw [getPair_eq, getD_eq_getElem?_getD, h, Option.getD_some]

theorem getPair_of_lt {k : ℕ} (h : k < t.entries.length) :
    t.entries[k]? = some (t.getPair k) := by
  rw [getPair_eq, getD_eq_getElem _ _ h, getElem?_eq_getElem h]

theorem findIndex_of_not_mem (hname : name ≠ []) (h : ∀ e ∈ t.entries, e.1 ≠ name) :
    t.findIndex name = -1 := by
  rw [findIndex_eq t hname, indexLoop_of_not_mem h]

theorem findIndex_of_mem (hname : name ≠ []) (h : ∃ e ∈ t.entries, e.1 = name) : ∃ k : ℕ,
    t.findIndex name = k ∧ k < t.entries.length ∧ t.getName k = name ∧
      ∀ j < k, t.getName j ≠ name := by
  obtain ⟨k, e, hloop, hk, hek, hfirst⟩ := indexLoop_of_mem h 0
  have hlt : k < t.entries.length := (List.getElem?_eq_some_iff.mp hk).1
  refine ⟨k, ?_, hlt, ?_, ?_⟩
  · rw [findIndex_eq t hname, hloop, Int.zero_add]
  · rw [getName, getPair_of_getElem? hk, hek]
  · intro j hj
    exact hfirst j hj _ (getPair_of_lt (hj.trans hlt))

theorem findPair_of_mem (hd : t.datas ≠ []) (h : (name, value) ∈ t.entries) : ∃ k : ℕ,
    t.findPair name value = some ((k : ℤ), true) ∧ t.getPair k = (name, value) ∧
      ∀ j < k, t.getPair j ≠ (name, value) := by
  have hlt := idxOf_lt_length_of_mem h
  refine ⟨t.entries.idxOf (name, value), ?_, ?_, ?_⟩
  · rw [findPair_eq, if_neg (fun hnone => hd hnone.2), pairLoop_of_mem h, Int.zero_add]
  · apply getPair_of_getElem?
    rw [getElem?_eq_getElem hlt, getElem_idxOf]
  · intro j hj heq
    have hget := getPair_of_lt (hj.trans hlt)
    rw [heq, getElem?_eq_some_iff] at hget
    obtain ⟨hjlt, hget⟩ := hget
    have hbefore := not_of_lt_findIdx hj
    simp [hget] at hbefore

theorem findPair_of_not_mem (hd : t.datas ≠ []) (hname : name ≠ [])
    (h : (name, value) ∉ t.entries) :
    t.findPair name value = some (t.findIndex name, false) := by
  rw [findPair_eq, if_neg (fun hnone => hd hnone.2), pairLoop_eq_indexLoop h le_rfl,
    findIndex_eq t hname]

/-- What `findPair` and `findIndex` return, in the order of the indices: static entries first, then
the dynamic ones with the newest first. -/
theorem findPair_finds_first (t : DynamicTable) (hd : t.datas ≠ []) (name value : List UInt8)
    (hname : name ≠ []) : ∃ i found, t.findPair name value = some (i, found) ∧
      (found = true ↔ (name, value) ∈ t.entries) ∧
      (found = true → ∃ k : ℕ, i = k ∧ t.getPair k = (name, value) ∧
        ∀ j < k, t.getPair j ≠ (name, value)) ∧
      (found = false → (i = -1 ∧ ∀ e ∈ t.entries, e.1 ≠ name) ∨
        ∃ k : ℕ, i = k ∧ k < t.entries.length ∧ t.getName k = name ∧
          ∀ j < k, t.getName j ≠ name) ∧
      (t.findIndex name = -1 ↔ ∀ e ∈ t.entries, e.1 ≠ name) ∧
      (t.findIndex name ≠ -1 → ∃ k : ℕ, t.findIndex name = k ∧ k < t.entries.length ∧
        t.getName k = name) := by
  have hindex : (t.findIndex name = -1 ∧ ∀ e ∈ t.entries, e.1 ≠ name) ∨
      ((∃ e ∈ t.entries, e.1 = name) ∧ ∃ k : ℕ, t.findIndex name = k ∧ k < t.entries.length ∧
        t.getName k = name ∧ ∀ j < k, t.getName j ≠ name) := by
    by_cases hmem : ∃ e ∈ t.entries, e.1 = name
    · exact .inr ⟨hmem, findIndex_of_mem hname hmem⟩
    · have hnone : ∀ e ∈ t.entries, e.1 ≠ name := fun e he heq => hmem ⟨e, he, heq⟩
      exact .inl ⟨findIndex_of_not_mem hname hnone, hnone⟩
  have hagrees : (t.findIndex name = -1 ↔ ∀ e ∈ t.entries, e.1 ≠ name) ∧
      (t.findIndex name ≠ -1 → ∃ k : ℕ, t.findIndex name = k ∧ k < t.entries.length ∧
        t.getName k = name) := by
    rcases hindex with ⟨hi, hnone⟩ | ⟨⟨e, he, heq⟩, k, hk, hlt, hget, -⟩
    · exact ⟨iff_of_true hi hnone, fun hne => absurd hi hne⟩
    · refine ⟨iff_of_false (by omega) (fun hnone => hnone e he heq), fun _ => ⟨k, hk, hlt, hget⟩⟩
  by_cases hmem : (name, value) ∈ t.entries
  · obtain ⟨k, hfind, hget, hfirst⟩ := findPair_of_mem hd hmem
    exact ⟨k, true, hfind, iff_of_true rfl hmem, fun _ => ⟨k, rfl, hget, hfirst⟩, nofun, hagrees⟩
  · refine ⟨t.findIndex name, false, findPair_of_not_mem hd hname hmem,
      iff_of_false Bool.false_ne_true hmem, nofun, fun _ => ?_, hagrees⟩
    rcases hindex with hnone | ⟨-, hfirst⟩
    · exact .inl hnone
    · exact .inr hfirst

theorem findPair_finds_first_path : ∃ i found,
    (⟨4096, 34, [([97], [98])]⟩ : DynamicTable).findPair (ascii ":path") (ascii "x") =
      some (i, found) ∧ (found = true ↔ (ascii ":path", ascii "x") ∈
        (⟨4096, 34, [([97], [98])]⟩ : DynamicTable).entries) := by
  obtain ⟨i, found, hfind, hmem, -⟩ := findPair_finds_first ⟨4096, 34, [([97], [98])]⟩
    (cons_ne_nil _ _) (ascii ":path") (ascii "x") (by decide)
  exact ⟨i, found, hfind, hmem⟩

/-! The accesses of `findPair`. -/

/-- How the search ends within a number of steps. -/
inductive SearchEnd where
  | done (rt : ℤ × Bool)
  | outside (index : ℕ)
  | running
  deriving DecidableEq

def searchLoop (name value : List UInt8) (datas : List Entry) (len : ℕ) :
    ℕ → ℕ → ℤ × Bool → SearchEnd
  | 0, i, rt => if i ≤ len then .running else .done rt
  | steps + 1, i, rt =>
    if i ≤ len then
      match datas[subSize len i]? with
      | none => .outside (subSize len i)
      | some e =>
        if e.1 = name then
          if e.2 = value then .done ((i : ℤ) + 62, true)
          else searchLoop name value datas len steps (i + 1)
            (if rt.1 = -1 then (i : ℤ) + 62 else rt.1, rt.2)
        else searchLoop name value datas len steps (i + 1) rt
    else .done rt

/-- `findPair` with at most the given number of steps in `m_datas`. -/
def findPairWithin (name value : List UInt8) (steps : ℕ) (t : DynamicTable) : SearchEnd :=
  let rt := getStaticHeadersPair name value
  if rt.2 then .done rt
  else searchLoop name value t.datas (subSize t.datas.length 1) steps 0 rt

/-- In a table with entries every access is inside and the loop ends with the last of them. -/
theorem searchLoop_eq {datas : List Entry} (hd : datas ≠ []) :
    ∀ (steps i : ℕ) (rt : ℤ × Bool), i + steps = datas.length →
      searchLoop name value datas (subSize datas.length 1) steps i rt =
        .done (pairLoop name value (datas.reverse.drop i) ((i : ℤ) + 62) rt) := by
  have hpos := length_pos_iff.mpr hd
  have hlen : subSize datas.length 1 = datas.length - 1 := if_pos hpos
  rw [hlen]
  intro steps
  induction steps with
  | zero =>
    intro i rt hi
    rw [searchLoop, if_neg (by omega), drop_of_length_le (by rw [length_reverse]; omega),
      pairLoop]
  | succ steps ih =>
    intro i rt hi
    have hlt : i < datas.reverse.length := by
      rw [length_reverse]
      omega
    have hindex : subSize (datas.length - 1) i = datas.length - 1 - i :=
      if_pos (by omega)
    obtain ⟨e, he⟩ : ∃ e, datas.reverse[i]? = some e := ⟨_, List.getElem?_eq_getElem hlt⟩
    have hget : datas[datas.length - 1 - i]? = some e := by
      rw [← he, List.getElem?_reverse (by omega)]
    have hdrop : datas.reverse.drop i = e :: datas.reverse.drop (i + 1) := by
      rw [drop_eq_getElem_cons hlt, (List.getElem?_eq_some_iff.mp he).2]
    have hnext : ((i + 1 : ℕ) : ℤ) + 62 = (i : ℤ) + 62 + 1 := by
      push_cast
      ring
    rw [searchLoop, if_pos (by omega), hindex, hget, hdrop, pairLoop]
    dsimp only
    split_ifs
    · rfl
    · rw [ih (i + 1) _ (by omega), hnext]
    · rw [ih (i + 1) _ (by omega), hnext]
    · rw [ih (i + 1) _ (by omega), hnext]

theorem findPairWithin_eq (hd : t.datas ≠ [] ∨ (name, value) ∈ staticHeaders) :
    ∃ rt, t.findPair name value = some rt ∧
      t.findPairWithin name value t.datas.length = .done rt := by
  unfold findPair findPairWithin
  by_cases hfound : (getStaticHeadersPair name value).2 = true
  · exact ⟨getStaticHeadersPair name value, by simp [hfound], by simp [hfound]⟩
  · have hdatas : t.datas ≠ [] := by
      rcases hd with hd | hmem
      · exact hd
      · rw [getStaticHeadersPair, pairLoop_of_mem hmem] at hfound
        exact absurd rfl hfound
    have hempty : t.datas.isEmpty = false := by simpa using hdatas
    refine ⟨pairLoop name value t.datas.reverse 62 (getStaticHeadersPair name value), ?_, ?_⟩
    · simp only [hfound, hempty, Bool.false_eq_true, if_false]
    · simp only [hfound, Bool.false_eq_true, if_false]
      rw [searchLoop_eq hdatas t.datas.length 0 _ (Nat.zero_add _), drop_zero, Nat.cast_zero,
        Int.zero_add]

theorem findPairWithin_empty (hd : t.datas = []) (hmem : (name, value) ∉ staticHeaders) :
    t.findPairWithin name value 0 = .running ∧
    ∀ steps, t.findPairWithin name value (steps + 1) = .outside (2 ^ 64 - 1) := by
  obtain ⟨first, hrun, -⟩ := pairLoop_of_not_mem hmem 0 (-1)
  unfold findPairWithin getStaticHeadersPair
  rw [hrun, hd]
  exact ⟨rfl, fun _ => rfl⟩

theorem updateAll_datas_ne_nil {es : List Entry} (h : create.updateAll es = some t) :
    t.datas ≠ [] ↔ es ≠ [] := by
  rcases es.eq_nil_or_concat with rfl | ⟨es, e, rfl⟩
  · cases h
    exact iff_of_false (fun hd => hd rfl) (fun hd => hd rfl)
  · rw [updateAll, concat_eq_append, foldlM_append] at h
    obtain ⟨t₁, -, hlast⟩ := Option.bind_eq_some_iff.mp h
    have hupdate : t₁.update e.1 e.2 = some t := by simpa using hlast
    obtain ⟨-, kept, hdatas⟩ := update_datas hupdate
    rw [hdatas]
    exact iff_of_true (by simp) (by simp)

/-- For every table made by updates: all accesses of `findPair` are inside of `m_datas` and its loop
ends after at most `size()` steps exactly if there was an update or the pair is a static one. The
result is then that of the search. -/
theorem findPair_accesses (es : List Entry) (t : DynamicTable) (h : create.updateAll es = some t)
    (name value : List UInt8) :
    ((∃ rt, t.findPairWithin name value t.datas.length = .done rt) ↔
      es ≠ [] ∨ (name, value) ∈ staticHeaders) ∧
    ∀ rt, t.findPairWithin name value t.datas.length = .done rt ↔
      t.findPair name value = some rt := by
  rw [← updateAll_datas_ne_nil h]
  by_cases hd : t.datas ≠ [] ∨ (name, value) ∈ staticHeaders
  · obtain ⟨rt, hfind, hwithin⟩ := findPairWithin_eq hd
    refine ⟨iff_of_true ⟨rt, hwithin⟩ hd, fun rt' => ?_⟩
    rw [hfind, hwithin, SearchEnd.done.injEq, Option.some.injEq]
  · rw [not_or, not_not] at hd
    obtain ⟨hempty, hmem⟩ := hd
    have hrun : t.findPairWithin name value t.datas.length = .running := by
      rw [hempty, length_nil]
      exact (findPairWithin_empty hempty hmem).1
    have hnone : t.findPair name value = none := by
      rw [findPair_eq, if_pos ⟨hmem, hempty⟩]
    rw [hrun, hnone]
    refine ⟨iff_of_false ?_ ?_, fun rt => ?_⟩
    · rintro ⟨rt, hrt⟩
      cases hrt
    · rintro (hne | hin)
      · exact hne hempty
      · exact hmem hin
    · exact iff_of_false nofun nofun

theorem findPair_accesses_one : ∃ rt : ℤ × Bool,
    (⟨4096, 34, [([97], [98])]⟩ : DynamicTable).findPairWithin [97] [98] 1 = .done rt := by
  have hrun : create.updateAll [([97], [98])] = some ⟨4096, 34, [([97], [98])]⟩ := by
    rw [updateAll, foldlM_cons, update_create]
    rfl
  exact ((findPair_accesses _ _ hrun [97] [98]).1).mpr (.inl (cons_ne_nil _ _))

/-- On a new table the first access is at the largest `size_t`. -/
theorem findPair_outside :
    create.findPairWithin (ascii ":path") (ascii "x") 1 = .outside (2 ^ 64 - 1) :=
  (findPairWithin_empty rfl (by decide +kernel)).2 0

end DynamicTable
end JKYi.Http2
