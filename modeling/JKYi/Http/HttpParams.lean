import Mathlib.Data.List.TakeWhile
import Mathlib.Tactic
import JKYi.Http.HttpMessage

/-!
# Parameters and cookies

`PARSE_PARAM` looks for the next `=` and from there for the next separator, so that a segment
without `=` becomes a part of the next key. It is compared with splitting first.
-/

namespace JKYi.Http

open List

def foldKey (key : List UInt8) : List ℕ := (cStr key).map fun c => (lower c).toNat

theorem caseLess_iff (a b : List UInt8) : caseLess a b = true ↔
    a.map (fun c => (lower c).toNat) < b.map (fun c => (lower c).toNat) := by
  induction a generalizing b with
  | nil => cases b <;> simp [caseLess]
  | cons x a ih =>
    cases b with
    | nil => simp [caseLess]
    | cons y b =>
      have hlt (u v : UInt8) : u < v ↔ u.toNat < v.toNat := UInt8.lt_iff_toNat_lt
      simp only [caseLess, map_cons, cons_lt_cons_iff, ← ih, hlt]
      split_ifs with h₁ h₂
      · simp [h₁]
      · simp only [false_iff]
        omega
      · have heq : (lower x).toNat = (lower y).toNat := by omega
        simp [heq]

theorem caseLess_cStr (a b : List UInt8) :
    caseLess (cStr a) (cStr b) = decide (foldKey a < foldKey b) := by
  rw [Bool.eq_iff_iff, caseLess_iff, decide_eq_true_iff, foldKey, foldKey]

namespace Headers

def insert (key value : List UInt8) : Headers → Headers
  | [] => [(key, value)]
  | (k, v) :: rest =>
    if caseLess (cStr key) (cStr k) then (key, value) :: (k, v) :: rest
    else if caseLess (cStr k) (cStr key) then (k, v) :: insert key value rest
    else (k, v) :: rest

def Sorted (h : Headers) : Prop := h.Pairwise fun p q => foldKey p.1 < foldKey q.1

variable {h : Headers} {key value q : List UInt8}

theorem get_cons (p : List UInt8 × List UInt8) (h : Headers) :
    get q (p :: h) = if foldKey p.1 = foldKey q then some p.2 else get q h := by
  simp only [get, find?_cons, caseLess_cStr]
  rcases lt_trichotomy (foldKey p.1) (foldKey q) with hlt | heq | hlt
  · simp [hlt, hlt.ne, hlt.not_gt]
  · simp [heq]
  · simp [hlt, hlt.ne', hlt.not_gt]

theorem get_eq_none (hq : ∀ p ∈ h, foldKey p.1 ≠ foldKey q) : h.get q = none := by
  induction h with
  | nil => rfl
  | cons p h ih =>
    obtain ⟨hp, hh⟩ := forall_mem_cons.1 hq
    rw [get_cons, if_neg hp, ih hh]

theorem mem_insert {p : List UInt8 × List UInt8} (hp : p ∈ h.insert key value) :
    p = (key, value) ∨ p ∈ h := by
  induction h with
  | nil => simpa [insert] using hp
  | cons x h ih =>
    rw [insert] at hp
    split_ifs at hp
    · simpa using hp
    · rcases mem_cons.1 hp with rfl | hp
      · simp
      · simp only [mem_cons]
        tauto
    · exact .inr hp

theorem Sorted.insert (hs : h.Sorted) : (h.insert key value).Sorted := by
  induction h with
  | nil => exact pairwise_singleton _ _
  | cons x h ih =>
    obtain ⟨hx, hh⟩ := pairwise_cons.1 hs
    simp only [Headers.insert, caseLess_cStr, decide_eq_true_iff]
    split_ifs with h₁ h₂
    · refine pairwise_cons.2 ⟨forall_mem_cons.2 ⟨h₁, fun p hp => h₁.trans (hx p hp)⟩, hs⟩
    · refine pairwise_cons.2 ⟨fun p hp => ?_, ih hh⟩
      rcases mem_insert hp with rfl | hp
      · exact h₂
      · exact hx p hp
    · exact hs

theorem get_insert (hs : h.Sorted) : (h.insert key value).get q =
    if foldKey key = foldKey q then (h.get q).or (some value) else h.get q := by
  induction h with
  | nil => simp [Headers.insert, get_cons, get_eq_none]
  | cons x h ih =>
    obtain ⟨hx, hh⟩ := pairwise_cons.1 hs
    simp only [Headers.insert, caseLess_cStr, decide_eq_true_iff]
    rcases lt_trichotomy (foldKey key) (foldKey x.1) with h₁ | h₁ | h₁
    · have hnone : foldKey key = foldKey q → get q (x :: h) = none := by
        intro hq
        apply get_eq_none
        rw [← hq]
        exact forall_mem_cons.2 ⟨h₁.ne', fun p hp => (h₁.trans (hx p hp)).ne'⟩
      rw [if_pos h₁, get_cons]
      split_ifs with hq
      · rw [hnone hq, Option.none_or]
      · rfl
    · rw [if_neg h₁.not_lt, if_neg h₁.not_gt]
      split_ifs with hq
      · rw [get_cons, if_pos (h₁ ▸ hq), Option.some_or]
      · rfl
    · rw [if_neg h₁.not_gt, if_pos h₁, get_cons, get_cons, ih hh]
      by_cases hxq : foldKey x.1 = foldKey q
      · have hq := hxq ▸ h₁.ne'
        simp [hxq, hq]
      · simp [hxq]

theorem get_foldl_insert (pairs : List (List UInt8 × List UInt8)) (hs : h.Sorted) :
    (pairs.foldl (fun m p => m.insert p.1 p.2) h).get q = (h.get q).or (get q pairs) := by
  induction pairs generalizing h with
  | nil => simp [get]
  | cons p pairs ih =>
    rw [foldl_cons, ih hs.insert, get_insert hs, get_cons]
    split_ifs <;> cases h.get q <;> rfl

end Headers

/-- `StringUtil::Trim`. -/
def trim (s : List UInt8) : List UInt8 :=
  let delimit := fun c : UInt8 => c == 32 || c == 9 || c == 13 || c == 10
  ((s.dropWhile delimit).reverse.dropWhile delimit).reverse

def paramPairs (flag : UInt8) (trim : List UInt8 → List UInt8) (str : List UInt8) :
    List (List UInt8 × List UInt8) :=
  if 61 ∈ str then
    let value := (str.dropWhile (· != 61)).tail
    (trim (str.takeWhile (· != 61)), value.takeWhile (· != flag)) ::
      if flag ∈ value then paramPairs flag trim (value.dropWhile (· != flag)).tail else []
  else []
termination_by str.length
decreasing_by
  have hvalue : ((str.dropWhile (· != 61)).tail.dropWhile (· != flag)).length ≤ _ :=
    (dropWhile_sublist _).length_le
  have hstr : (str.dropWhile (· != 61)).length ≤ _ := (dropWhile_sublist _).length_le
  have hpos := length_pos_of_mem ‹61 ∈ str›
  simp only [length_tail] at hvalue ⊢
  omega

/-- `getHeader("cookie")`. -/
def cookie (r : HttpRequest) : List UInt8 := (r.headers.get (text "cookie")).getD []

structure RequestParams where
  params : Headers
  cookies : Headers
  parseParamFlag : UInt8

def parseParam (flag : UInt8) (trim : List UInt8 → List UInt8) (str : List UInt8) (m : Headers) :
    Headers :=
  (paramPairs flag trim str).foldl (fun m p => m.insert p.1 p.2) m

namespace RequestParams

def create : RequestParams := ⟨[], [], 0⟩

def initQueryParam (s : RequestParams) (r : HttpRequest) : RequestParams :=
  if s.parseParamFlag &&& 0x1 ≠ 0 then s
  else { s with
    params := parseParam 38 id r.query s.params
    parseParamFlag := s.parseParamFlag ||| 0x1 }

def initCookies (s : RequestParams) (r : HttpRequest) : RequestParams :=
  if s.parseParamFlag &&& 0x4 ≠ 0 then s
  else { s with
    cookies := if cookie r = [] then s.cookies else parseParam 59 trim (cookie r) s.cookies
    parseParamFlag := s.parseParamFlag ||| 0x4 }

end RequestParams

/-! Segments. -/

section

variable {flag : UInt8} {trim : List UInt8 → List UInt8}

def assignment (trim : List UInt8 → List UInt8) (s : List UInt8) :
    Option (List UInt8 × List UInt8) :=
  if 61 ∈ s then some (trim (s.takeWhile (· != 61)), (s.dropWhile (· != 61)).tail) else none

def segments (flag : UInt8) (str : List UInt8) : List (List UInt8) := str.splitOnP (· == flag)

def assignments (flag : UInt8) (trim : List UInt8 → List UInt8) (str : List UInt8) : Headers :=
  (segments flag str).filterMap (assignment trim)

/-- Behind a segment without `=` there is none with one. -/
def Tidy (flag : UInt8) (str : List UInt8) : Prop :=
  (segments flag str).Pairwise fun s t => 61 ∈ t → 61 ∈ s

/-- The assignments are inserted, and each key has the value of its first one. -/
def Sends (flag : UInt8) (trim : List UInt8 → List UInt8) (str : List UInt8) (m : Headers) : Prop :=
  paramPairs flag trim str = assignments flag trim str ∧
    ∀ key, m.get key = Headers.get key (assignments flag trim str)

theorem exists_mem_segments_iff {c : UInt8} (str : List UInt8) :
    (∃ s ∈ segments flag str, c ∈ s) ↔ c ∈ str ∧ c ≠ flag := by
  induction str with
  | nil => simp [segments]
  | cons x str ih =>
    obtain ⟨s, ss, hs⟩ := exists_cons_of_ne_nil (splitOnP_ne_nil (· == flag) str)
    rw [segments] at ih ⊢
    rw [splitOnP_cons_eq_if_modifyHead]
    by_cases hx : x = flag
    · simp [hx, ih]
      tauto
    · simp [hs] at ih
      simp [hx, hs, or_assoc, ih]
      by_cases hc : c = x <;> simp [hc, hx]

theorem split_at {c : UInt8} {k : List UInt8} (hk : c ∉ k) (r : List UInt8) :
    (k ++ c :: r).takeWhile (· != c) = k ∧ (k ++ c :: r).dropWhile (· != c) = c :: r := by
  have hall : ∀ a ∈ k, (a != c) = true := by
    intro a ha
    simpa using ne_of_mem_of_not_mem ha hk
  rw [takeWhile_append_of_pos hall, dropWhile_append_of_pos hall]
  simp

theorem paramPairs_cons {k : List UInt8} (hk : 61 ∉ k) (r : List UInt8) :
    paramPairs flag trim (k ++ 61 :: r) = (trim k, r.takeWhile (· != flag)) ::
      if flag ∈ r then paramPairs flag trim (r.dropWhile (· != flag)).tail else [] := by
  obtain ⟨htake, hdrop⟩ := split_at hk r
  rw [paramPairs, if_pos (by simp), htake, hdrop]
  rfl

theorem assignment_eq {k : List UInt8} (hk : 61 ∉ k) (v : List UInt8) :
    assignment trim (k ++ 61 :: v) = some (trim k, v) := by
  obtain ⟨htake, hdrop⟩ := split_at hk v
  rw [assignment, if_pos (by simp), htake, hdrop]
  rfl

/-- The macro finds the assignments exactly in a tidy string. -/
theorem paramPairs_eq_iff (hflag : flag ≠ 61) (htrim : ∀ s, flag ∈ trim s ↔ flag ∈ s)
    (str : List UInt8) :
    paramPairs flag trim str = assignments flag trim str ↔ Tidy flag str := by
  induction hn : str.length using Nat.strong_induction_on generalizing str with
  | _ n ih =>
  by_cases h0 : 61 ∈ str
  · by_cases hmem : flag ∈ str
    · obtain ⟨s, rest, rfl, hs⟩ := eq_append_cons_of_mem hmem
      have hsplit : segments flag (s ++ flag :: rest) = s :: segments flag rest :=
        splitOnP_append_cons_of_forall_mem (by simpa using fun a ha => ne_of_mem_of_not_mem ha hs)
          _ (by simp) _
      rw [assignments, Tidy, hsplit, pairwise_cons]
      by_cases heq : 61 ∈ s
      · obtain ⟨k, v, rfl, hk⟩ := eq_append_cons_of_mem heq
        have hv : flag ∉ v := fun h => hs (by simp [h])
        obtain ⟨htake, hdrop⟩ := split_at hv rest
        rw [append_assoc, cons_append, paramPairs_cons hk, htake, hdrop, if_pos (by simp),
          filterMap_cons_some (assignment_eq hk v), cons_inj_right]
        simp only [heq, implies_true, true_and]
        exact ih _ (by rw [← hn]; simp; omega) rest rfl
      · have hrest : 61 ∈ rest := by simpa [heq, hflag.symm] using h0
        obtain ⟨t, ht, h61⟩ := (exists_mem_segments_iff rest).2 ⟨hrest, hflag.symm⟩
        refine iff_of_false (fun hpairs => ?_) fun htidy => heq (htidy.1 t ht h61)
        -- the first key of the macro contains the separator, which no segment does
        obtain ⟨k, r, rfl, hk⟩ := eq_append_cons_of_mem hrest
        have hkey : 61 ∉ s ++ flag :: k := by simp [heq, hk, hflag.symm]
        have hfirst : paramPairs flag trim ((s ++ flag :: k) ++ 61 :: r) = _ :=
          paramPairs_cons hkey r
        rw [append_assoc, cons_append, hpairs] at hfirst
        obtain ⟨u, hu, hassign⟩ := mem_filterMap.1 (hfirst ▸ mem_cons_self)
        rw [← hsplit] at hu
        have hnot : flag ∉ u := fun h => ((exists_mem_segments_iff _).1 ⟨u, hu, h⟩).2 rfl
        rw [assignment] at hassign
        split_ifs at hassign
        have hin : flag ∈ trim (s ++ flag :: k) := (htrim _).2 (by simp)
        rw [← (Prod.mk.inj (Option.some.inj hassign)).1, htrim] at hin
        exact hnot ((takeWhile_sublist _).subset hin)
    · obtain ⟨k, v, rfl, hk⟩ := eq_append_cons_of_mem h0
      have hv : ∀ a ∈ k ++ 61 :: v, (a == flag) = false := by
        intro a ha
        simpa using ne_of_mem_of_not_mem ha hmem
      have hsplit : segments flag (k ++ 61 :: v) = [k ++ 61 :: v] := splitOnP_eq_singleton hv
      have htake : v.takeWhile (· != flag) = v := by
        rw [takeWhile_eq_self_iff]
        intro a ha
        simpa using hv a (by simp [ha])
      have hnot : flag ∉ v := fun h => hmem (by simp [h])
      rw [assignments, Tidy, hsplit, paramPairs_cons hk, htake, if_neg hnot,
        filterMap_cons_some (assignment_eq hk v), filterMap_nil]
      simp
  · have hnone : ∀ s ∈ segments flag str, 61 ∉ s :=
      fun s hs h => h0 ((exists_mem_segments_iff str).1 ⟨s, hs, h⟩).1
    refine iff_of_true ?_ (pairwise_of_forall_mem_list fun s _ t ht h => absurd h (hnone t ht))
    rw [paramPairs, if_neg h0, assignments, eq_comm, filterMap_eq_nil_iff]
    exact fun s hs => if_neg (hnone s hs)

theorem sends_parseParam_iff (hflag : flag ≠ 61) (htrim : ∀ s, flag ∈ trim s ↔ flag ∈ s)
    (str : List UInt8) :
    Sends flag trim str (parseParam flag trim str []) ↔ Tidy flag str := by
  rw [Sends, paramPairs_eq_iff hflag htrim, and_iff_left_iff_imp]
  intro htidy key
  rw [parseParam, Headers.get_foldl_insert _ Pairwise.nil,
    (paramPairs_eq_iff hflag htrim str).2 htidy]
  rfl


end

theorem mem_trim {c : UInt8} (hc : c ≠ 32 ∧ c ≠ 9 ∧ c ≠ 13 ∧ c ≠ 10) (s : List UInt8) :
    c ∈ trim s ↔ c ∈ s := by
  have hdrop (l : List UInt8) : c ∈ l.dropWhile
      (fun c : UInt8 => c == 32 || c == 9 || c == 13 || c == 10) ↔ c ∈ l := by
    induction l with
    | nil => rfl
    | cons x l ih =>
      rw [dropWhile_cons]
      split_ifs with hx
      · rw [ih, mem_cons]
        refine (or_iff_right ?_).symm
        rintro rfl
        simp [hc] at hx
      · rfl
  rw [trim, mem_reverse, hdrop, mem_reverse, hdrop]

/-- Parameters and cookies are what their strings say exactly if these are tidy. -/
theorem initParams_iff (r : HttpRequest) :
    (Sends 38 id r.query (RequestParams.create.initQueryParam r).params ↔ Tidy 38 r.query) ∧
    (Sends 59 trim (cookie r) (RequestParams.create.initCookies r).cookies ↔
      Tidy 59 (cookie r)) := by
  constructor
  · exact sends_parseParam_iff (by decide) (fun _ => Iff.rfl) r.query
  · have hcookies : (RequestParams.create.initCookies r).cookies =
        parseParam 59 trim (cookie r) [] := by
      change (if cookie r = [] then [] else parseParam 59 trim (cookie r) []) = _
      split_ifs with h
      · rw [h, parseParam, paramPairs]
        rfl
      · rfl
    rw [hcookies]
    exact sends_parseParam_iff (by decide) (mem_trim (by decide)) (cookie r)

/-- In `a&b=1` the key is `a&b`. -/
theorem param_key_joined : ∃ r : HttpRequest, r.query = [97, 38, 98, 61, 49] ∧
    (RequestParams.create.initQueryParam r).params = [([97, 38, 98], [49])] ∧
    ¬ Sends 38 id r.query (RequestParams.create.initQueryParam r).params := by
  have hpairs : paramPairs 38 id ([97, 38, 98] ++ 61 :: [49]) = [([97, 38, 98], [49])] := by
    rw [paramPairs_cons (by decide)]
    rfl
  refine ⟨{ HttpRequest.create with query := [97, 38, 98, 61, 49] }, rfl, ?_, fun hsends => ?_⟩
  · change parseParam 38 id ([97, 38, 98] ++ 61 :: [49]) [] = _
    rw [parseParam, hpairs]
    rfl
  · exact absurd (hpairs.symm.trans hsends.1) (by decide)

end JKYi.Http
