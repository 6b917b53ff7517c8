import Mathlib.Tactic

/-!
# Overwriting a stretch of a list, flat or cut into equal blocks

`splice l i d` overwrites `l` from index `i` on with `d`. A list of blocks of
one size `b` stands for its concatenation: index `b * i + o` of the flat list
is index `o` of block `i`, and overwriting inside one block is overwriting the
flat list.
-/

namespace JKYi

open List

variable {α : Type*}

/-- `l` with `d` written over it from index `i` on; it grows where `d` reaches past its end. -/
def splice (l : List α) (i : ℕ) (d : List α) : List α :=
  l.take i ++ d ++ l.drop (i + d.length)

@[simp] theorem splice_nil (l : List α) (i : ℕ) : splice l i [] = l := by
  simp [splice]

variable {i : ℕ} {l d : List α}

theorem splice_singleton {x : α} (h : i < l.length) : splice l i [x] = l.set i x := by
  rw [set_eq_take_append_cons_drop, if_pos h]
  simp [splice]

theorem length_splice (h : i ≤ l.length) : (splice l i d).length = max l.length (i + d.length) := by
  simp only [splice, length_append, length_take, length_drop]
  omega

theorem drop_splice (h : i ≤ l.length) : (splice l i d).drop i = d ++ l.drop (i + d.length) := by
  have hi : (l.take i).length = i := by simp [h]
  rw [splice, append_assoc, drop_append_of_le_length hi.ge, drop_eq_nil_of_le hi.le, nil_append]

theorem drop_splice_end (h : i ≤ l.length) :
    (splice l i d).drop (i + d.length) = l.drop (i + d.length) := by
  rw [← drop_drop, drop_splice h, drop_append_of_le_length le_rfl, drop_length, nil_append]

theorem take_splice_end (h : i ≤ l.length) :
    (splice l i d).take (i + d.length) = l.take i ++ d := by
  have hd : (l.take i ++ d).length = i + d.length := by simp [h]
  rw [splice, take_append_of_le_length hd.ge, ← hd, take_length]

/-- Two writes, the second where the first stopped, are one write of both. -/
theorem splice_splice {e : List α} (h : i ≤ l.length) :
    splice (splice l i d) (i + d.length) e = splice l i (d ++ e) := by
  rw [splice, take_splice_end h, ← drop_drop, drop_splice_end h, drop_drop]
  simp [splice, Nat.add_assoc]

theorem splice_take_drop (h : i ≤ l.length) (k : ℕ) :
    splice (splice l i (d.take k)) (i + k) (d.drop k) = splice l i d := by
  rcases le_total k d.length with hk | hk
  · have hlen : (d.take k).length = k := by simp [hk]
    have := splice_splice (d := d.take k) (e := d.drop k) h
    rwa [hlen, take_append_drop] at this
  · rw [take_of_length_le hk, drop_eq_nil_of_le hk, splice_nil]

/-- Overwriting a list and overwriting its first `n` elements agree on those elements. -/
theorem take_max_splice {n : ℕ} (hi : i ≤ n) (hn : n ≤ l.length) :
    (splice l i d).take (max n (i + d.length)) = splice (l.take n) i d := by
  have hd : (l.take i ++ d).length = i + d.length := by simp; omega
  rcases le_total n (i + d.length) with h | h
  · rw [max_eq_right h, take_splice_end (by omega), splice, take_take, min_eq_left hi,
      drop_eq_nil_of_le (by simp; omega), append_nil]
  · rw [max_eq_left h, splice, splice, take_append,
      take_of_length_le (by omega : (l.take i ++ d).length ≤ n), hd, take_take,
      min_eq_left hi, drop_take]

theorem splice_append_left {r : List α} (h : i + d.length ≤ l.length) :
    splice (l ++ r) i d = splice l i d ++ r := by
  rw [splice, splice, take_append_of_le_length (by omega), drop_append_of_le_length h]
  simp

theorem splice_append_right {r : List α} :
    splice (l ++ r) (l.length + i) d = l ++ splice r i d := by
  simp only [splice, take_length_add_append]
  rw [Nat.add_assoc, drop_length_add_append]
  simp

/-! Lists cut into blocks of one size. -/

variable {b : ℕ} {l : List (List α)}

theorem length_flatten_blocks (hl : ∀ x ∈ l, x.length = b) : l.flatten.length = b * l.length := by
  induction l with
  | nil => simp
  | cons x xs ih =>
    rw [flatten_cons, length_append, ih (fun y hy => hl y (by simp [hy])),
      hl x (by simp), length_cons, Nat.mul_succ, Nat.add_comm]

variable {o : ℕ}

/-- A write that stays inside block `i` is a write to the flat list. -/
theorem flatten_modify_splice (hl : ∀ x ∈ l, x.length = b)
    (hi : i < l.length) (ho : o + d.length ≤ b) :
    (l.modify i (fun x => splice x o d)).flatten = splice l.flatten (b * i + o) d := by
  induction l generalizing i with
  | nil => simp at hi
  | cons x xs ih =>
    have hx : x.length = b := hl x (by simp)
    cases i with
    | zero =>
      rw [modify_zero_cons, flatten_cons, flatten_cons, Nat.mul_zero, Nat.zero_add,
        splice_append_left (by omega)]
    | succ i =>
      have htail := ih (fun y hy => hl y (by simp [hy])) (by simpa using hi)
      rw [modify_succ_cons, flatten_cons, htail, flatten_cons,
        show b * (i + 1) + o = x.length + (b * i + o) by rw [hx]; ring, splice_append_right]

/-- Reading inside block `i` is reading the flat list. -/
theorem take_drop_flatten (hl : ∀ x ∈ l, x.length = b) {k : ℕ} {x : List α}
    (hi : l[i]? = some x) (ho : o + k ≤ b) :
    (l.flatten.drop (b * i + o)).take k = (x.drop o).take k := by
  induction l generalizing i with
  | nil => simp at hi
  | cons y ys ih =>
    have hy : y.length = b := hl y (by simp)
    cases i with
    | zero =>
      obtain rfl : y = x := by simpa using hi
      rw [flatten_cons, Nat.mul_zero, Nat.zero_add, drop_append_of_le_length (by omega),
        take_append_of_le_length (by simp; omega)]
    | succ i =>
      have htail := ih (fun z hz => hl z (by simp [hz])) (by simpa using hi)
      rw [flatten_cons, show b * (i + 1) + o = y.length + (b * i + o) by rw [hy]; ring,
        drop_length_add_append, htail]

theorem getElem?_flatten_blocks (hl : ∀ x ∈ l, x.length = b) {x : List α}
    (hi : l[i]? = some x) (ho : o < b) : l.flatten[b * i + o]? = x[o]? := by
  have hone := congrArg (·[0]?) (take_drop_flatten hl hi (k := 1) ho)
  simpa using hone

end JKYi
