import Mathlib.Tactic

/-!
# The arguments of `getaddrinfo`

How `Address::Lookup` splits a host into a node and a service.
-/

namespace JKYi.Address

open List

/-- The first stage, for a host that starts with a bracket: the node, and where the service starts.
The search for the closing bracket leaves out the last byte. -/
def lookupBracket (host : List UInt8) : List UInt8 × Option ℕ :=
  let endipv6 := host.dropLast.idxOf 93
  if host.head? = some 91 ∧ endipv6 < host.dropLast.length then
    ((host.drop 1).take (endipv6 - 1),
      if host[endipv6 + 1]? = some 58 then some (endipv6 + 1) else none)
  else ([], none)

/-- The second stage. The service is left at the first colon if there is another one. -/
def lookupColon (host : List UInt8) : List UInt8 × Option ℕ :=
  let service := host.idxOf 58
  if service < host.length then
    if 58 ∈ host.drop (service + 1) then ([], some service)
    else (host.take service, some (service + 1))
  else ([], none)

/-- The node and the service that `Lookup` passes on. -/
def lookup (host : List UInt8) : List UInt8 × Option (List UInt8) :=
  let first := lookupBracket host
  let second := if first.1 = [] then lookupColon host else first
  (if second.1 = [] then host else second.1, second.2.map host.drop)

/-- The forms of a host. -/
inductive Host where
  | name (h : List UInt8)
  | namePort (h p : List UInt8)
  | v6 (v : List UInt8)
  | v6Port (v p : List UInt8)
  | literal (v : List UInt8)

namespace Host

def text : Host → List UInt8
  | name h => h
  | namePort h p => h ++ 58 :: p
  | v6 v => 91 :: v ++ [93]
  | v6Port v p => 91 :: v ++ 93 :: 58 :: p
  | literal v => v

def Valid : Host → Prop
  | name h => h ≠ [] ∧ 58 ∉ h
  | namePort h p => h ≠ [] ∧ p ≠ [] ∧ 58 ∉ h ∧ 58 ∉ p
  | v6 v => v ≠ [] ∧ 93 ∉ v
  | v6Port v p => v ≠ [] ∧ p ≠ [] ∧ 93 ∉ v ∧ 58 ∉ p
  | literal v => 2 ≤ v.count 58 ∧ v.head? ≠ some 91

/-- The node and the service that are meant. -/
def meant : Host → List UInt8 × Option (List UInt8)
  | name h => (h, none)
  | namePort h p => (h, some p)
  | v6 v => (v, none)
  | v6Port v p => (v, some p)
  | literal v => (v, none)

def isName : Host → Bool
  | name _ => true
  | namePort _ _ => true
  | _ => false

end Host

/-- Something in brackets, and something behind it. -/
def Bracketed (host : List UInt8) : Prop :=
  ∃ x y, x ≠ [] ∧ y ≠ [] ∧ 93 ∉ x ∧ host = 91 :: x ++ 93 :: y

variable {host h p v x y : List UInt8}

theorem lookupBracket_eq (hy : y ≠ []) (hfree : 93 ∉ x) : lookupBracket (91 :: x ++ 93 :: y) =
    (x, if y.head? = some 58 then some (x.length + 2) else none) := by
  have hlast : (91 :: x ++ 93 :: y).dropLast = 91 :: x ++ 93 :: y.dropLast := by
    rw [dropLast_append_cons, dropLast_cons_of_ne_nil hy]
  have hidx : (91 :: x ++ 93 :: y).dropLast.idxOf 93 = x.length + 1 := by
    rw [hlast, idxOf_append_of_notMem (by simpa using hfree)]
    simp
  have hget : (91 :: x ++ 93 :: y)[x.length + 1 + 1]? = y.head? := by
    rw [getElem?_append_right (by simp), head?_eq_getElem?]
    simp
  rw [lookupBracket]
  simp only [hidx, hget]
  rw [if_pos]
  · simp
  · simpa using length_pos_iff.mpr hy

theorem lookup_bracketed (hx : x ≠ []) (hy : y ≠ []) (hfree : 93 ∉ x) :
    lookup (91 :: x ++ 93 :: y) = (x, if y.head? = some 58 then some y else none) := by
  rw [lookup, lookupBracket_eq hy hfree]
  simp only [if_neg hx]
  split_ifs <;> simp

theorem lookupBracket_of_not (h : ¬ Bracketed host) : (lookupBracket host).1 = [] := by
  by_cases hif : host.head? = some 91 ∧ 93 ∈ host.dropLast
  · obtain ⟨hhead, hmem⟩ := hif
    obtain ⟨t, rfl⟩ := head?_eq_some_iff.mp hhead
    obtain ⟨w, b, hsplit, hfree⟩ := eq_append_cons_of_mem hmem
    have hne : 91 :: t ≠ [] := cons_ne_nil _ _
    have hhost : 91 :: t = w ++ 93 :: (b ++ [(91 :: t).getLast hne]) := by
      rw [← cons_append, ← append_assoc, ← hsplit, dropLast_append_getLast]
    obtain _ | ⟨c, x⟩ := w
    · simp at hhost
    · obtain ⟨rfl, -⟩ := cons_eq_cons.mp hhost
      have hx : 93 ∉ x := fun hmem => hfree (mem_cons_of_mem _ hmem)
      rw [hhost, lookupBracket_eq (by simp) hx]
      by_contra hne
      exact h ⟨x, _, hne, by simp, hx, hhost⟩
  · rw [lookupBracket, if_neg]
    rwa [idxOf_lt_length_iff]

theorem lookup_of_not (h : ¬ Bracketed host) : lookup host =
    (if (lookupColon host).1 = [] then host else (lookupColon host).1,
      (lookupColon host).2.map host.drop) := by
  simp only [lookup, lookupBracket_of_not h, if_true]

theorem lookupColon_append (h : 58 ∉ x) (y : List UInt8) : lookupColon (x ++ 58 :: y) =
    if 58 ∈ y then ([], some x.length) else (x, some (x.length + 1)) := by
  have hidx : (x ++ 58 :: y).idxOf 58 = x.length := by
    rw [idxOf_append_of_notMem h]
    simp
  rw [lookupColon]
  simp [hidx]

theorem lookup_no_colon (hb : ¬ Bracketed host) (h : 58 ∉ host) : lookup host = (host, none) := by
  have hcolon : lookupColon host = ([], none) := by
    rw [lookupColon, idxOf_eq_length_iff.mpr h]
    exact if_neg (lt_irrefl _)
  rw [lookup_of_not hb, hcolon]
  rfl

theorem lookup_colon (hb : ¬ Bracketed host) (h : 58 ∈ host) : (lookup host).2 ≠ none := by
  obtain ⟨x, y, rfl, hfree⟩ := eq_append_cons_of_mem h
  rw [lookup_of_not hb, lookupColon_append hfree]
  split_ifs <;> simp

/-- The arguments are those that are meant exactly for the hosts without a bracketed address. -/
theorem lookup_eq_meant_iff (x : Host) (hx : x.Valid) :
    lookup x.text = x.meant ↔ x.isName = true ∧ ¬ Bracketed x.text := by
  cases x with
  | name h =>
    by_cases hb : Bracketed h
    · refine iff_of_false ?_ (fun hand => hand.2 hb)
      obtain ⟨x, y, hne, hy, hfree, rfl⟩ := hb
      rw [Host.text, lookup_bracketed hne hy hfree]
      intro heq
      have hlen : x.length = (91 :: x ++ 93 :: y).length := congrArg (length ∘ Prod.fst) heq
      rw [length_append, length_cons] at hlen
      omega
    · exact iff_of_true (lookup_no_colon hb hx.2) ⟨rfl, hb⟩
  | namePort h p =>
    obtain ⟨hne, -, hh, hp⟩ := hx
    by_cases hb : Bracketed (h ++ 58 :: p)
    · refine iff_of_false ?_ (fun hand => hand.2 hb)
      obtain ⟨x, y, hx, hy, hfree, htext⟩ := hb
      rw [Host.text, htext, lookup_bracketed hx hy hfree]
      intro heq
      obtain rfl : x = h := congrArg Prod.fst heq
      have hget : (91 :: x ++ 93 :: y)[x.length]? = some 58 := by
        rw [← htext]
        simp
      rw [getElem?_append_left (by simp)] at hget
      simpa [hh] using mem_of_getElem? hget
    · refine iff_of_true ?_ ⟨rfl, hb⟩
      rw [Host.text, lookup_of_not hb, lookupColon_append hh, if_neg hp]
      simp [Host.meant, hne]
  | v6 v =>
    refine iff_of_false (fun heq => ?_) (by simp [Host.isName])
    have hb : ¬ Bracketed (91 :: v ++ [93]) := by
      rintro ⟨x, y, -, hy, -, htext⟩
      have hv : 93 ∉ 91 :: v := by simpa using hx.2
      exact hy ((append_cons_inj_of_notMem hv not_mem_nil).mp htext).2.2.symm
    by_cases hcolon : 58 ∈ 91 :: v ++ [93]
    · exact lookup_colon hb hcolon (congrArg Prod.snd heq)
    · have hnode := (lookup_no_colon hb hcolon).symm.trans heq
      have hlen : (91 :: v ++ [93]).length = v.length := congrArg (length ∘ Prod.fst) hnode
      rw [length_append, length_cons] at hlen
      omega
  | v6Port v p =>
    refine iff_of_false (fun heq => ?_) (by simp [Host.isName])
    have hnode := (lookup_bracketed hx.1 (cons_ne_nil _ _) hx.2.2.1).symm.trans heq
    simpa [Host.meant] using congrArg Prod.snd hnode
  | literal v =>
    refine iff_of_false (fun heq => ?_) (by simp [Host.isName])
    have hb : ¬ Bracketed v := by
      rintro ⟨x, y, -, -, -, rfl⟩
      exact hx.2 rfl
    have hcolon : 58 ∈ v := count_pos_iff.mp (by have := hx.1; omega)
    exact lookup_colon hb hcolon (congrArg Prod.snd heq)

theorem lookup_eq_meant_iff_port : lookup [97, 58, 56, 48] = ([97], some [56, 48]) :=
  (lookup_eq_meant_iff (.namePort [97] [56, 48]) (by simp [Host.Valid])).mpr
    ⟨rfl, by rintro ⟨x, y, -, -, -, h⟩; simp [Host.text] at h⟩

/-- `[::1]:80` gets the service `:80`; `[::1]` and `::1` get one, and the first its brackets. -/
theorem v6_service_kept :
    lookup [91, 58, 58, 49, 93, 58, 56, 48] = ([58, 58, 49], some [58, 56, 48]) ∧
    lookup [91, 58, 58, 49, 93] = ([91, 58, 58, 49, 93], some [58, 58, 49, 93]) ∧
    lookup [58, 58, 49] = ([58, 58, 49], some [58, 58, 49]) := by
  decide

end JKYi.Address
