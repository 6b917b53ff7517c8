import Mathlib.Data.List.GetD
import JKYi.Foundation.Bytes

/-!
# The header tables of HPACK

A header field is found by one index into the static table followed by the
dynamic one, newest entry first. The dynamic table is kept oldest entry first
and drops entries from the front. Sizes are `int`s: an overflow of their
arithmetic is undefined and the result is `none`.
-/

namespace JKYi.Http2

open List

/-- A name and a value. -/
abbrev Entry := List UInt8 × List UInt8

/-- The bytes of a string literal of the source. -/
def ascii (s : String) : List UInt8 := s.toList.map fun c => UInt8.ofNat c.toNat

def staticLiterals : List (String × String) :=
  [("", ""), (":authority", ""), (":method", "GET"), (":method", "POST"), (":path", "/"),
    (":path", "/index.html"), (":scheme", "http"), (":scheme", "https"), (":status", "200"),
    (":status", "204"), (":status", "206"), (":status", "304"), (":status", "400"),
    (":status", "404"), (":status", "500"), ("accept-charset", ""),
    ("accept-encoding", "gzip, deflate"), ("accept-language", ""), ("accept-ranges", ""),
    ("accept", ""), ("access-control-allow-origin", ""), ("age", ""), ("allow", ""),
    ("authorization", ""), ("cache-control", ""), ("content-disposition", ""),
    ("content-encoding", ""), ("content-language", ""), ("content-length", ""),
    ("content-location", ""), ("content-range", ""), ("content-type", ""), ("cookie", ""),
    ("date", ""), ("etag", ""), ("expect", ""), ("expires", ""), ("from", ""), ("host", ""),
    ("if-match", ""), ("if-modified-since", ""), ("if-none-match", ""), ("if-range", ""),
    ("if-unmodified-since", ""), ("last-modified", ""), ("link", ""), ("location", ""),
    ("max-forwards", ""), ("proxy-authenticate", ""), ("proxy-authorization", ""),
    ("range", ""), ("referer", ""), ("refresh", ""), ("retry-after", ""), ("server", ""),
    ("set-cookie", ""), ("strict-transport-security", ""), ("transfer-encoding", ""),
    ("user-agent", ""), ("vary", ""), ("via", ""), ("www-authenticate", "")]

def staticHeaders : List Entry := staticLiterals.map fun e => (ascii e.1, ascii e.2)

structure DynamicTable where
  maxDataSize : ℤ
  dataSize : ℤ
  datas : List Entry
  deriving DecidableEq

def checkedInt (x : ℤ) : Option ℤ := if -2 ^ 31 ≤ x ∧ x < 2 ^ 31 then some x else none

def entrySize (e : Entry) : ℕ := e.1.length + e.2.length + 32

/-- The loop of `GetStaticHeadersPair` and of `findPair`: `i` is the index of the first
entry of the list and `rt` what has been found before it. -/
def pairLoop (name value : List UInt8) : List Entry → ℤ → ℤ × Bool → ℤ × Bool
  | [], _, rt => rt
  | e :: es, i, rt =>
    if e.1 = name then
      if e.2 = value then (i, true)
      else pairLoop name value es (i + 1) (if rt.1 = -1 then i else rt.1, rt.2)
    else pairLoop name value es (i + 1) rt

def indexLoop (name : List UInt8) : List Entry → ℤ → ℤ
  | [], _ => -1
  | e :: es, i => if e.1 = name then i else indexLoop name es (i + 1)

namespace DynamicTable

/-- `DynamicTable()`. -/
def create : DynamicTable := ⟨4 * 1024, 0, []⟩

def getStaticHeaders (idx : ℕ) : Entry := staticHeaders.getD idx ([], [])

def getStaticHeadersIdx (name : List UInt8) : ℤ := indexLoop name staticHeaders.tail 1

def getStaticHeadersPair (name value : List UInt8) : ℤ × Bool :=
  pairLoop name value staticHeaders 0 (-1, false)

def evict (maxDataSize len : ℤ) : ℤ → List Entry → Option (ℤ × List Entry)
  | dataSize, [] => (checkedInt (len + dataSize)).map fun _ => (dataSize, [])
  | dataSize, e :: datas =>
    (checkedInt (len + dataSize)).bind fun sum =>
      if maxDataSize < sum then
        evict maxDataSize len ((dataSize - entrySize e).bmod (2 ^ 32)) datas
      else some (dataSize, e :: datas)

def update (name value : List UInt8) (t : DynamicTable) : Option DynamicTable :=
  let len := intOfSize (name.length + value.length + 32)
  (evict t.maxDataSize len t.dataSize t.datas).bind fun (dataSize, datas) =>
    (checkedInt (dataSize + len)).map fun dataSize =>
      { t with dataSize := dataSize, datas := datas ++ [(name, value)] }

def setMaxDataSize (v : ℤ) (t : DynamicTable) : DynamicTable := { t with maxDataSize := v }

def findIndex (name : List UInt8) (t : DynamicTable) : ℤ :=
  let rt := getStaticHeadersIdx name
  if rt = -1 then indexLoop name t.datas.reverse 62 else rt

/-- `findPair`. On an empty dynamic table the last index `size() - 1` is the largest
`size_t` and the loop reads outside of the vector. -/
def findPair (name value : List UInt8) (t : DynamicTable) : Option (ℤ × Bool) :=
  let rt := getStaticHeadersPair name value
  if rt.2 then some rt
  else if t.datas.isEmpty then none
  else some (pairLoop name value t.datas.reverse 62 rt)

def getPair (idx : ℕ) (t : DynamicTable) : Entry :=
  if idx < 62 then getStaticHeaders idx
  else if idx - 62 < t.datas.length then
    t.datas.getD (t.datas.length - 1 - (idx - 62)) ([], [])
  else ([], [])

def getName (idx : ℕ) (t : DynamicTable) : List UInt8 := (t.getPair idx).1

/-- Both tables in the order of their indices. -/
def entries (t : DynamicTable) : List Entry := staticHeaders ++ t.datas.reverse

end DynamicTable

theorem length_staticHeaders : staticHeaders.length = 62 := by decide

theorem staticHeaders_zero : staticHeaders[0]? = some ([], []) := by decide

theorem checkedInt_eq_some {x y : ℤ} :
    checkedInt x = some y ↔ -2 ^ 31 ≤ x ∧ x < 2 ^ 31 ∧ x = y := by
  unfold checkedInt
  split_ifs with h
  · rw [Option.some.injEq]
    tauto
  · constructor
    · intro hnone
      cases hnone
    · rintro ⟨hlow, hhigh, -⟩
      exact absurd ⟨hlow, hhigh⟩ h

/-! What the search returns. -/

section

variable {name value : List UInt8}

theorem add_length_cons (e : Entry) (es : List Entry) (i : ℤ) :
    i + ((e :: es).length : ℤ) = i + 1 + (es.length : ℤ) := by
  rw [length_cons]
  push_cast
  ring

theorem pairLoop_append (es fs : List Entry) (i k : ℤ) :
    pairLoop name value (es ++ fs) i (k, false) =
      if (pairLoop name value es i (k, false)).2 then pairLoop name value es i (k, false)
      else pairLoop name value fs (i + es.length) (pairLoop name value es i (k, false)) := by
  induction es generalizing i k with
  | nil => simp [pairLoop]
  | cons e es ih =>
    simp only [cons_append, pairLoop, add_length_cons]
    by_cases h1 : e.1 = name
    · by_cases h2 : e.2 = value
      · simp [h1, h2]
      · simp only [h1, h2, if_true, if_false, ih]
    · simp only [h1, if_false, ih]

theorem pairLoop_of_mem {es : List Entry} (h : (name, value) ∈ es) (i : ℤ) (rt : ℤ × Bool) :
    pairLoop name value es i rt = (i + es.idxOf (name, value), true) := by
  induction es generalizing i rt with
  | nil => simp at h
  | cons e es ih =>
    by_cases he : e = (name, value)
    · subst he
      simp [pairLoop]
    · have hmem : (name, value) ∈ es := by
        rcases mem_cons.mp h with rfl | hmem
        · exact absurd rfl he
        · exact hmem
      have hidx : ((e :: es).idxOf (name, value) : ℤ) = es.idxOf (name, value) + 1 := by
        rw [idxOf_cons_ne _ he]
        rfl
      have hnext : i + ((e :: es).idxOf (name, value) : ℤ) = i + 1 + es.idxOf (name, value) := by
        rw [hidx]
        ring
      rw [pairLoop, hnext]
      split_ifs with h1 h2
      · exact absurd (Prod.ext h1 h2) he
      all_goals exact ih hmem _ _

theorem pairLoop_of_not_mem {es : List Entry} (h : (name, value) ∉ es) (i : ℤ) (k : ℤ) :
    ∃ first, pairLoop name value es i (k, false) = (first, false) ∧
      (first = k ∨ ∃ (j : ℕ) (e : Entry), es[j]? = some e ∧ e.1 = name ∧ first = i + j) := by
  induction es generalizing i k with
  | nil => exact ⟨k, rfl, .inl rfl⟩
  | cons e es ih =>
    rw [mem_cons, not_or] at h
    obtain ⟨he, hmem⟩ := h
    have hshift : ∀ {first k' : ℤ},
        (first = k' ∨ ∃ (j : ℕ) (e : Entry), es[j]? = some e ∧ e.1 = name ∧ first = i + 1 + j) →
        first = k' ∨ ∃ (j : ℕ) (e' : Entry), (e :: es)[j]? = some e' ∧ e'.1 = name ∧
          first = i + j := by
      rintro first k' (h | ⟨j, e', hj, hname, hfirst⟩)
      · exact .inl h
      · refine .inr ⟨j + 1, e', by simpa using hj, hname, ?_⟩
        omega
    rw [pairLoop]
    split_ifs with h1 h2 h3
    · exact absurd (Prod.ext h1.symm h2.symm) he
    · obtain ⟨first, hrun, hfirst⟩ := ih hmem (i + 1) i
      refine ⟨first, hrun, ?_⟩
      rcases hshift hfirst with rfl | hfound
      · exact .inr ⟨0, e, rfl, h1, by simp⟩
      · exact .inr hfound
    · obtain ⟨first, hrun, hfirst⟩ := ih hmem (i + 1) k
      exact ⟨first, hrun, hshift hfirst⟩
    · obtain ⟨first, hrun, hfirst⟩ := ih hmem (i + 1) k
      exact ⟨first, hrun, hshift hfirst⟩

end

namespace DynamicTable

variable {t : DynamicTable} {name value : List UInt8}

theorem getPair_eq (idx : ℕ) (t : DynamicTable) : t.getPair idx = t.entries.getD idx ([], []) := by
  unfold getPair entries
  split_ifs with hstatic hdyn
  · rw [getStaticHeaders, getD_append _ _ _ _ (by rwa [length_staticHeaders])]
  · rw [getD_append_right _ _ _ _ (by rw [length_staticHeaders]; omega), length_staticHeaders,
      getD_eq_getElem?_getD, getD_eq_getElem?_getD, List.getElem?_reverse hdyn]
  · rw [getD_eq_default]
    rw [length_append, length_staticHeaders, length_reverse]
    omega

/-- `findPair` searches both tables as one, unless the dynamic one has to be searched
and is empty. -/
theorem findPair_eq (t : DynamicTable) (name value : List UInt8) :
    t.findPair name value =
      if (name, value) ∉ staticHeaders ∧ t.datas = [] then none
      else some (pairLoop name value t.entries 0 (-1, false)) := by
  rw [entries, pairLoop_append, length_staticHeaders]
  unfold findPair getStaticHeadersPair
  by_cases hmem : (name, value) ∈ staticHeaders
  · simp [pairLoop_of_mem hmem, hmem]
  · obtain ⟨first, hrun, -⟩ := pairLoop_of_not_mem hmem 0 (-1)
    simp [hrun, hmem]

end DynamicTable
end JKYi.Http2
