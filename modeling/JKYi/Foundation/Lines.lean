import Mathlib.Tactic

/-!
# Lines that end with a pair of characters

`pairAt a b w` is where the characters `a b` first stand next to each other in `w`,
as `std::search` finds them. A line ends there. What is found does not change when
more characters come.
-/

namespace JKYi

open List Option

variable {α : Type*} [DecidableEq α] (a b : α)

/-- Where `a b` first stands in the list. -/
def pairAt : List α → Option ℕ
  | [] => none
  | c :: w => if c = a ∧ w.head? = some b then some 0 else (pairAt w).map (· + 1)

/-- The line holds no `a b`, nor one that the end of the line would complete. -/
def Unbroken (line : List α) : Prop := pairAt a b (line ++ [a]) = none

instance (line : List α) : Decidable (Unbroken a b line) := inferInstanceAs (Decidable (_ = none))

/-- The first line and what comes after its end, if a line is complete. -/
def takeLine (w : List α) : Option (List α × List α) :=
  (pairAt a b w).map fun i => (w.take i, w.drop (i + 2))

variable {a b} {w line rest : List α} {i : ℕ}

/-- More characters do not move the end that was found. -/
theorem pairAt_append (h : pairAt a b w = some i) (more : List α) :
    pairAt a b (w ++ more) = some i := by
  induction w generalizing i with
  | nil => cases h
  | cons c w ih =>
    rw [pairAt] at h
    rw [cons_append, pairAt]
    split at h
    · next hpair =>
      rw [if_pos ⟨hpair.1, by rw [head?_append, hpair.2]; rfl⟩]
      exact h
    · next hpair =>
      obtain ⟨j, hj, rfl⟩ := map_eq_some_iff.mp h
      have hw : w ≠ [] := by
        rintro rfl
        cases hj
      have hhead : (w ++ more).head? = w.head? := head?_append_of_ne_nil w hw
      rw [hhead, if_neg hpair, ih hj]
      rfl

theorem unbroken_cons {c : α} : Unbroken a b (c :: line) ↔
    ¬ (c = a ∧ (line ++ [a]).head? = some b) ∧ Unbroken a b line := by
  rw [Unbroken, cons_append, pairAt]
  split
  · next hpair => simp [hpair]
  · next hpair => rw [map_eq_none_iff, Unbroken, and_iff_right hpair]

theorem pairAt_line (h : Unbroken a b line) (rest : List α) :
    pairAt a b (line ++ a :: b :: rest) = some line.length := by
  induction line with
  | nil => simp [pairAt]
  | cons c line ih =>
    obtain ⟨hpair, hrest⟩ := unbroken_cons.mp h
    have hhead : (line ++ a :: b :: rest).head? = (line ++ [a]).head? := by
      cases line <;> rfl
    rw [cons_append, pairAt, hhead, if_neg hpair, ih hrest]
    rfl

theorem pairAt_inv (h : pairAt a b w = some i) :
    Unbroken a b (w.take i) ∧ w = w.take i ++ a :: b :: w.drop (i + 2) := by
  induction w generalizing i with
  | nil => cases h
  | cons c w ih =>
    rw [pairAt] at h
    split at h
    · next hpair =>
      cases h
      obtain ⟨rfl, hhead⟩ := hpair
      obtain ⟨w', rfl⟩ := head?_eq_some_iff.mp hhead
      refine ⟨?_, rfl⟩
      simp [Unbroken, pairAt]
    · next hpair =>
      obtain ⟨j, hj, rfl⟩ := map_eq_some_iff.mp h
      obtain ⟨hline, hw⟩ := ih hj
      refine ⟨?_, congrArg (c :: ·) hw⟩
      rw [take_succ_cons, unbroken_cons]
      refine ⟨fun hpair' => hpair ⟨hpair'.1, ?_⟩, hline⟩
      generalize w.take j = line at hw hpair'
      rw [← hpair'.2, hw]
      cases line <;> rfl

theorem pairAt_bounds (h : pairAt a b w = some i) : i + 2 ≤ w.length := by
  have hlen := congrArg length (pairAt_inv h).2
  simp only [length_append, length_take, length_cons, length_drop] at hlen
  omega

theorem length_take_pairAt (h : pairAt a b w = some i) : (w.take i).length = i := by
  have := pairAt_bounds h
  exact length_take_of_le (by omega)

/-! The first occurrence of a character. -/

theorem idxOf_cut {x : α} (h : x ∉ line) (rest : List α) :
    (line ++ x :: rest).idxOf x = line.length := by
  rw [idxOf_append_of_notMem h, idxOf_cons_self, Nat.add_zero]

theorem idxOf_ne_length {x : α} : line.idxOf x ≠ line.length ↔ x ∈ line :=
  idxOf_eq_length_iff.not.trans not_not

theorem idxOf_append_ne_length {x : α} (line rest : List α) :
    (line ++ x :: rest).idxOf x ≠ (line ++ x :: rest).length :=
  idxOf_ne_length.mpr (by simp)

theorem eq_cut {x : α} (h : x ∈ line) :
    x ∉ line.take (line.idxOf x) ∧
      line = line.take (line.idxOf x) ++ x :: line.drop (line.idxOf x + 1) := by
  obtain ⟨before, behind, rfl, hnot⟩ := eq_append_cons_of_mem h
  rw [idxOf_cut hnot, take_left, ← drop_drop, drop_left]
  exact ⟨hnot, rfl⟩

theorem cut_inj {x : α} {line' rest' : List α} (h : x ∉ line) (h' : x ∉ line')
    (heq : line ++ x :: rest = line' ++ x :: rest') : line = line' ∧ rest = rest' := by
  have hlen : line.length = line'.length := by
    rw [← idxOf_cut h rest, heq, idxOf_cut h']
  obtain ⟨hline, hrest⟩ := append_inj heq hlen
  exact ⟨hline, tail_eq_of_cons_eq hrest⟩

theorem unbroken_of_not_mem (h : b ∉ line) (hab : a ≠ b) : Unbroken a b line := by
  induction line with
  | nil => simp [Unbroken, pairAt]
  | cons c line ih =>
    rw [mem_cons, not_or] at h
    refine unbroken_cons.mpr ⟨fun hpair => ?_, ih h.2⟩
    cases line with
    | nil => exact hab (Option.some.inj hpair.2)
    | cons d line => exact h.2 (by rw [Option.some.inj hpair.2]; exact mem_cons_self)

theorem takeLine_line (h : Unbroken a b line) (rest : List α) :
    takeLine a b (line ++ a :: b :: rest) = some (line, rest) := by
  have hdrop : (line ++ a :: b :: rest).drop (line.length + 2) = rest := by
    rw [← drop_drop, drop_left]
    rfl
  rw [takeLine, pairAt_line h, map_some, take_left, hdrop]

/-- The line taken is the only way to cut the list at the end of an unbroken line. -/
theorem takeLine_eq_some_iff :
    takeLine a b w = some (line, rest) ↔ Unbroken a b line ∧ w = line ++ a :: b :: rest := by
  constructor
  · intro h
    obtain ⟨i, hi, heq⟩ := map_eq_some_iff.mp h
    cases heq
    exact pairAt_inv hi
  · rintro ⟨hline, rfl⟩
    exact takeLine_line hline rest

/-! A text cut into lines. -/

variable (a b) in
def joinLines (lines : List (List α)) : List α := lines.flatMap fun line => line ++ [a, b]

omit [DecidableEq α] in
@[simp] theorem joinLines_nil : joinLines a b [] = [] := rfl

omit [DecidableEq α] in
@[simp] theorem joinLines_cons (line : List α) (lines : List (List α)) :
    joinLines a b (line :: lines) = line ++ a :: b :: joinLines a b lines := by
  simp [joinLines]

omit [DecidableEq α] in
@[simp] theorem joinLines_append (ls ms : List (List α)) :
    joinLines a b (ls ++ ms) = joinLines a b ls ++ joinLines a b ms :=
  flatMap_append

theorem takeLine_joinLines (h : Unbroken a b line) (lines : List (List α)) (x : List α) :
    takeLine a b (joinLines a b (line :: lines) ++ x) = some (line, joinLines a b lines ++ x) := by
  rw [joinLines_cons, append_assoc]
  exact takeLine_line h _

/-- Lines are read back from their text: of two texts with a common front, one has the lines of the
other in front. -/
theorem joinLines_prefix {ls ms : List (List α)} {x y : List α}
    (hls : ∀ l ∈ ls, Unbroken a b l) (hms : ∀ m ∈ ms, Unbroken a b m)
    (h : joinLines a b ls ++ x = joinLines a b ms ++ y) :
    (∃ rest, ms = ls ++ rest ∧ x = joinLines a b rest ++ y) ∨
      ∃ rest, ls = ms ++ rest ∧ y = joinLines a b rest ++ x := by
  induction ls generalizing ms with
  | nil => exact .inl ⟨ms, rfl, h⟩
  | cons l ls ih =>
    cases ms with
    | nil => exact .inr ⟨l :: ls, rfl, h.symm⟩
    | cons m ms =>
      have hfirst := takeLine_joinLines (hls l mem_cons_self) ls x
      rw [h, takeLine_joinLines (hms m mem_cons_self)] at hfirst
      injection hfirst with hsame
      injection hsame with hline hrest
      subst hline
      rcases ih (fun l hl => hls l (mem_cons_of_mem _ hl))
        (fun m hm => hms m (mem_cons_of_mem _ hm)) hrest.symm with
        ⟨rest, rfl, hx⟩ | ⟨rest, rfl, hy⟩
      · exact .inl ⟨rest, rfl, hx⟩
      · exact .inr ⟨rest, rfl, hy⟩

theorem joinLines_inj {ls ms : List (List α)} {x : List α} (hls : ∀ l ∈ ls, Unbroken a b l)
    (hms : ∀ m ∈ ms, Unbroken a b m) (h : joinLines a b ls ++ x = joinLines a b ms ++ x) :
    ls = ms := by
  have hnil {rest : List (List α)} (hx : x = joinLines a b rest ++ x) : rest = [] := by
    cases rest with
    | nil => rfl
    | cons line rest =>
      have hjoin := self_eq_append_left.mp hx
      simp at hjoin
  rcases joinLines_prefix hls hms h with ⟨rest, rfl, hx⟩ | ⟨rest, rfl, hx⟩
  · rw [hnil hx, append_nil]
  · rw [hnil hx, append_nil]

variable (a b) in
def cutHeadLoop : ℕ → List α → Option (List (List α) × List α)
  | 0, _ => none
  | fuel + 1, w => (takeLine a b w).bind fun x =>
    if x.1 = [] then some ([], x.2)
    else (cutHeadLoop fuel x.2).map fun y => (x.1 :: y.1, y.2)

variable (a b) in
/-- The lines in front of the first empty line, and what comes after it. -/
def cutHead (w : List α) : Option (List (List α) × List α) := cutHeadLoop a b (w.length + 1) w

theorem cutHeadLoop_joinLines {lines : List (List α)} {fuel : ℕ} (body : List α)
    (h : ∀ l ∈ lines, Unbroken a b l ∧ l ≠ []) (hfuel : lines.length < fuel) :
    cutHeadLoop a b fuel (joinLines a b (lines ++ [[]]) ++ body) = some (lines, body) := by
  induction lines generalizing fuel with
  | nil =>
    obtain ⟨fuel, rfl⟩ := Nat.exists_eq_succ_of_ne_zero (by omega : fuel ≠ 0)
    have htake : takeLine a b (joinLines a b [[]] ++ body) = some ([], body) :=
      takeLine_joinLines (by simp [Unbroken, pairAt]) [] body
    rw [nil_append, cutHeadLoop, htake]
    rfl
  | cons line lines ih =>
    obtain ⟨fuel, rfl⟩ := Nat.exists_eq_succ_of_ne_zero (by omega : fuel ≠ 0)
    obtain ⟨hline, hne⟩ := h line mem_cons_self
    have hrest := ih (fun l hl => h l (mem_cons_of_mem _ hl))
      (Nat.lt_of_succ_lt_succ hfuel)
    rw [cons_append, cutHeadLoop, takeLine_joinLines hline, bind_some, if_neg hne, hrest]
    rfl

theorem cutHeadLoop_inv {w : List α} {lines : List (List α)} {body : List α} {fuel : ℕ}
    (h : cutHeadLoop a b fuel w = some (lines, body)) :
    (∀ l ∈ lines, Unbroken a b l ∧ l ≠ []) ∧ w = joinLines a b (lines ++ [[]]) ++ body := by
  induction fuel generalizing w lines with
  | zero => cases h
  | succ fuel ih =>
    obtain ⟨⟨line, rest⟩, htake, hfound⟩ := bind_eq_some_iff.mp h
    obtain ⟨hline, rfl⟩ := takeLine_eq_some_iff.mp htake
    split_ifs at hfound with hne
    · cases hfound
      simpa using hne
    · obtain ⟨⟨lines', body'⟩, hrest, heq⟩ := map_eq_some_iff.mp hfound
      cases heq
      obtain ⟨hlines, rfl⟩ := ih hrest
      refine ⟨forall_mem_cons.mpr ⟨⟨hline, hne⟩, hlines⟩, ?_⟩
      simp

theorem cutHead_eq_some_iff {w body : List α} {lines : List (List α)} :
    cutHead a b w = some (lines, body) ↔
      (∀ l ∈ lines, Unbroken a b l ∧ l ≠ []) ∧ w = joinLines a b (lines ++ [[]]) ++ body := by
  constructor
  · exact cutHeadLoop_inv
  · rintro ⟨hlines, rfl⟩
    refine cutHeadLoop_joinLines body hlines ?_
    have hlen : ∀ ls : List (List α), ls.length ≤ (joinLines a b ls).length := by
      intro ls
      induction ls with
      | nil => exact Nat.zero_le _
      | cons l ls ih =>
        rw [joinLines_cons, length_append, length_cons, length_cons, length_cons]
        omega
    have := hlen lines
    rw [joinLines_append, length_append, length_append]
    omega

end JKYi
