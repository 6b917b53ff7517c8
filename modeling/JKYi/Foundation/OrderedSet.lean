import Mathlib.Tactic

/-!
# Ordered sets with a comparator

`std::set` as the sorted list of its elements. The comparator is a parameter: it
may read state of its own, so that a change of that state has to leave the order
of the elements as it is.
-/

namespace JKYi

open List

/-- What a comparator needs: a strict order in which two elements are equivalent only where
they are equal. -/
structure StrictTotal {α : Type*} (lt : α → α → Bool) : Prop where
  irrefl (a : α) : lt a a = false
  trans (a b c : α) : lt a b = true → lt b c = true → lt a c = true
  tri (a b : α) : lt a b = true ∨ a = b ∨ lt b a = true

namespace OrderedSet

variable {α : Type*} (lt : α → α → Bool)

def Sorted (l : List α) : Prop := l.Pairwise fun a b => lt a b = true

def insert (x : α) : List α → List α
  | [] => [x]
  | y :: ys => if lt x y then x :: y :: ys else if lt y x then y :: insert x ys else y :: ys

def find (x : α) (l : List α) : Option ℕ := l.findIdx? fun y => !lt y x && !lt x y

def lowerBound (x : α) (l : List α) : ℕ := (l.takeWhile fun y => lt y x).length

variable {lt} {l : List α} {x y : α}

theorem Sorted.congr {lt' : α → α → Bool} (h : Sorted lt l)
    (heq : ∀ a ∈ l, ∀ b ∈ l, lt' a b = lt a b) : Sorted lt' l := by
  refine List.Pairwise.imp_of_mem (fun ha hb hab => ?_) h
  rw [heq _ ha _ hb]
  exact hab

section

variable (hlt : StrictTotal lt)
include hlt

theorem Sorted.nodup (h : Sorted lt l) : l.Nodup := by
  refine List.Pairwise.imp (fun {a b} hab => ?_) h
  rintro rfl
  rw [hlt.irrefl] at hab
  cases hab

theorem equivalent_iff : (!lt y x && !lt x y) = true ↔ y = x := by
  constructor
  · intro h
    rcases hlt.tri y x with h' | h' | h'
    · simp [h'] at h
    · exact h'
    · simp [h'] at h
  · rintro rfl
    simp [hlt.irrefl]

theorem find_eq_none_iff : find lt x l = none ↔ x ∉ l := by
  rw [find, List.findIdx?_eq_none_iff]
  constructor
  · intro h hx
    have := h x hx
    rw [(equivalent_iff hlt).2 rfl] at this
    cases this
  · intro h y hy
    refine Bool.eq_false_iff.2 fun hyx => ?_
    rw [equivalent_iff hlt] at hyx
    exact h (hyx ▸ hy)

theorem eraseIdx_find [DecidableEq α] {i : ℕ} (h : find lt x l = some i) :
    l.eraseIdx i = l.erase x := by
  have herase : l.eraseP (fun y => !lt y x && !lt x y) = l.erase x := by
    rw [erase_eq_eraseP']
    congr 1
    funext y
    rw [Bool.eq_iff_iff, equivalent_iff hlt, beq_iff_eq]
  rw [← herase, eraseP_eq_eraseIdx]
  rw [find] at h
  rw [h]

theorem mem_insert : y ∈ insert lt x l ↔ y = x ∨ y ∈ l := by
  induction l with
  | nil => simp [insert]
  | cons z zs ih =>
    rw [insert]
    split
    · simp
    · split
      · rw [mem_cons, ih, mem_cons]
        tauto
      · rename_i hxz hzx
        have hz : z = x := by
          rcases hlt.tri z x with h | h | h
          · exact absurd h hzx
          · exact h
          · exact absurd h hxz
        rw [hz, mem_cons]
        tauto

theorem sorted_insert (h : Sorted lt l) : Sorted lt (insert lt x l) := by
  induction l with
  | nil => exact pairwise_singleton _ _
  | cons z zs ih =>
    obtain ⟨hz, hzs⟩ := pairwise_cons.1 h
    rw [insert]
    split
    · rename_i hxz
      refine pairwise_cons.2 ⟨fun b hb => ?_, h⟩
      rcases mem_cons.1 hb with rfl | hb
      · exact hxz
      · exact hlt.trans x z b hxz (hz b hb)
    · split
      · rename_i hzx
        refine pairwise_cons.2 ⟨fun b hb => ?_, ih hzs⟩
        rcases (mem_insert hlt).1 hb with rfl | hb
        · exact hzx
        · exact hz b hb
      · exact h

theorem perm_insert (hx : x ∉ l) : (insert lt x l).Perm (x :: l) := by
  induction l with
  | nil => exact List.Perm.refl _
  | cons z zs ih =>
    rw [mem_cons, not_or] at hx
    rw [insert]
    split
    · exact List.Perm.refl _
    · rename_i hxz
      have hzx : lt z x = true := by
        rcases hlt.tri z x with h | h | h
        · exact h
        · exact absurd h.symm hx.1
        · exact absurd h hxz
      rw [if_pos hzx]
      exact ((ih hx.2).cons z).trans (List.Perm.swap x z zs)

omit hlt in
theorem head_insert (lt : α → α → Bool) (x : α) (l : List α) : (insert lt x l).head? = some x ∨
    ∃ y, l.head? = some y ∧ (insert lt x l).head? = some y ∧ lt x y = false := by
  cases l with
  | nil => exact .inl rfl
  | cons z zs =>
    rw [insert]
    split
    · exact .inl rfl
    · rename_i hxz
      refine .inr ⟨z, rfl, ?_, Bool.eq_false_iff.2 hxz⟩
      split <;> rfl

end

theorem not_lt_of_lowerBound (h : (l.drop (lowerBound lt x l)).head? = some y) :
    lt y x = false := by
  induction l with
  | nil => cases h
  | cons z zs ih =>
    rw [lowerBound, takeWhile_cons] at h
    cases hz : lt z x with rw [hz] at h
    | true => exact ih h
    | false =>
      cases h
      exact hz

section

variable {p : α → Bool} (h : l.Pairwise fun a b => p b = true → p a = true)
include h

theorem takeWhile_eq_filter : l.takeWhile p = l.filter p := by
  induction l with
  | nil => rfl
  | cons a l ih =>
    obtain ⟨ha, hl⟩ := pairwise_cons.1 h
    by_cases hpa : p a = true
    · rw [takeWhile_cons_of_pos hpa, filter_cons_of_pos hpa, ih hl]
    · have hnone : ∀ b ∈ l, ¬ p b = true := fun b hb hpb => hpa (ha b hb hpb)
      rw [takeWhile_cons_of_neg hpa, filter_cons_of_neg hpa, filter_eq_nil_iff.2 hnone]

theorem take_takeWhile : l.take (l.takeWhile p).length = l.filter p := by
  rw [← prefix_iff_eq_take.1 (List.takeWhile_prefix p), takeWhile_eq_filter h]

theorem drop_takeWhile : l.drop (l.takeWhile p).length = l.filter fun a => !p a := by
  induction l with
  | nil => rfl
  | cons a l ih =>
    obtain ⟨ha, hl⟩ := pairwise_cons.1 h
    by_cases hpa : p a = true
    · rw [takeWhile_cons_of_pos hpa, filter_cons_of_neg (by simp [hpa])]
      exact ih hl
    · have hall : ∀ b ∈ a :: l, (!p b) = true := by
        intro b hb
        rcases mem_cons.1 hb with rfl | hb
        · simpa using hpa
        · simpa using fun hpb => hpa (ha b hb hpb)
      rw [takeWhile_cons_of_neg hpa, filter_eq_self.2 hall]
      rfl

end

theorem scan_scan {p q e : α → Bool} (hp : l.Pairwise fun a b => p b = true → p a = true)
    (hq : l.Pairwise fun a b => q b = true → q a = true)
    (hpq : ∀ a ∈ l, q a = (p a || e a)) :
    (l.takeWhile p).length + ((l.drop (l.takeWhile p).length).takeWhile e).length =
      (l.takeWhile q).length := by
  have hmem : ∀ a ∈ l.filter (fun a => !p a), e a = q a := by
    intro a ha
    obtain ⟨hal, hpa⟩ := mem_filter.1 ha
    rw [hpq a hal]
    simp_all
  have he : (l.filter fun a => !p a).Pairwise fun a b => e b = true → e a = true := by
    refine List.Pairwise.imp_of_mem (fun {a b} ha hb hab => ?_) (hq.sublist filter_sublist)
    rw [hmem a ha, hmem b hb]
    exact hab
  have hbelow : (l.filter p).countP q = (l.filter p).length := by
    refine countP_eq_length.2 fun a ha => ?_
    obtain ⟨hal, hpa⟩ := mem_filter.1 ha
    rw [hpq a hal, hpa]
    rfl
  have habove : ((l.filter fun a => !p a).takeWhile e).length =
      (l.filter fun a => !p a).countP q := by
    rw [takeWhile_eq_filter he, filter_congr hmem, countP_eq_length_filter]
  rw [drop_takeWhile hp, habove, takeWhile_eq_filter hp, takeWhile_eq_filter hq,
    ← countP_eq_length_filter (p := q), countP_eq_countP_filter_add l q p, hbelow]

end OrderedSet
end JKYi
