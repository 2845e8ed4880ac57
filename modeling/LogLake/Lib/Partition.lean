import Mathlib

/-!
# Lists in parts

A list is read in parts, each part the elements with one property.
-/

namespace List

variable {α β : Type*} [DecidableEq α]

/-- An element is taken as often as there are parts that take it. -/
theorem count_flatMap_filter (parts : List β) (p : β → α → Bool) (l : List α) (a : α) :
    (parts.flatMap fun b => l.filter (p b)).count a = (parts.countP fun b => p b a) * l.count a := by
  induction parts with
  | nil => simp
  | cons b parts ih =>
    rw [flatMap_cons, count_append, ih]
    by_cases hb : p b a = true
    · rw [count_filter hb, countP_cons_of_pos (p := fun b => p b a) hb, Nat.add_mul, Nat.one_mul, Nat.add_comm]
    · have hnot : a ∉ l.filter (p b) := fun hmem => hb (mem_filter.mp hmem).2
      rw [count_eq_zero_of_not_mem hnot, countP_cons_of_neg (p := fun b => p b a) hb, Nat.zero_add]

/-- Parts that take every wanted element once take the wanted elements. -/
theorem perm_flatMap_filter {parts : List β} {p : β → α → Bool} {q : α → Bool} (l : List α)
    (h : ∀ a, (parts.countP fun b => p b a) = if q a then 1 else 0) :
    (parts.flatMap fun b => l.filter (p b)).Perm (l.filter q) := by
  rw [perm_iff_count]
  intro a
  rw [count_flatMap_filter, h]
  by_cases hq : q a = true
  · rw [if_pos hq, count_filter hq, Nat.one_mul]
  · have hnot : a ∉ l.filter q := fun hmem => hq (mem_filter.mp hmem).2
    rw [if_neg hq, count_eq_zero_of_not_mem hnot, Nat.zero_mul]

/-! ## Chunks -/

/-- The chunks so far, the open one and what is left are the list. -/
theorem flatten_toChunks_go {α : Type*} (n : Nat) (xs : List α) (acc : Array α) (done : Array (List α)) :
    (toChunks.go n xs acc done).flatten = done.toList.flatten ++ acc.toList ++ xs := by
  induction xs generalizing acc done with
  | nil => simp [toChunks.go]
  | cons x xs ih =>
    rw [toChunks.go]
    split
    · rw [ih]
      simp
    · rw [ih]
      simp

/-- The chunks put together are the list. -/
theorem flatten_toChunks {α : Type*} (n : Nat) (xs : List α) : (xs.toChunks n).flatten = xs := by
  cases xs with
  | nil => simp [toChunks]
  | cons x xs =>
    cases n with
    | zero => simp [toChunks]
    | succ n =>
      rw [toChunks, flatten_toChunks_go]
      · simp
      · simp

end List
