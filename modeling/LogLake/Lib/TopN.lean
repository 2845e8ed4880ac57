import Mathlib

/-!
# The first elements of a sorted list

An element that has `n` elements before it is not needed for the first `n`.
-/

namespace TopN

open List

variable {α : Type*} {le : α → α → Prop}

/-- The first `n` elements are before one that has `n` elements before it. -/
theorem le_of_mem_take (htrans : ∀ a b c, le a b → le b c → le a c) {s : List α} (hs : s.Pairwise le) {n : Nat} {y : α}
    [DecidablePred fun z => le z y] (hcount : n ≤ s.countP fun z => le z y) {x : α} (hx : x ∈ s.take n) (hrefl : le x x) :
    le x y := by
  by_contra hxy
  obtain ⟨a, b, hab⟩ := append_of_mem hx
  have hsplit : s = a ++ x :: (b ++ s.drop n) := by
    calc s = s.take n ++ s.drop n := (take_append_drop n s).symm
      _ = a ++ x :: (b ++ s.drop n) := by rw [hab, append_assoc, cons_append]
  have hlength : a.length < n := by
    have h1 : (s.take n).length ≤ n := length_take_le n s
    rw [hab, length_append, length_cons] at h1
    omega
  rw [hsplit] at hs
  have htail : (x :: (b ++ s.drop n)).countP (fun z => le z y) = 0 := by
    refine countP_eq_zero.mpr fun z hz hzy => hxy ?_
    have hxz : le x z := by
      rcases mem_cons.mp hz with rfl | hz
      · exact hrefl
      · exact (pairwise_cons.mp (pairwise_append.mp hs).2.1).1 z hz
    exact htrans x z y hxz (of_decide_eq_true hzy)
  have hle : s.countP (fun z => le z y) ≤ a.length := by
    rw [hsplit, countP_append, htail, Nat.add_zero]
    exact countP_le_length
  omega

/-- An element behind the first `n` has all of them before it. -/
theorem le_countP_take {l : List α} (hl : l.Pairwise le) {n : Nat} {y : α} (hy : y ∈ l.drop n)
    [DecidablePred fun z => le z y] : n ≤ (l.take n).countP fun z => le z y := by
  have hbelow : ∀ z ∈ l.take n, le z y := by
    intro z hz
    rw [← take_append_drop n l] at hl
    exact (pairwise_append.mp hl).2.2 z hz y hy
  rw [countP_eq_length.mpr fun z hz => decide_eq_true (hbelow z hz), length_take]
  have := length_pos_of_mem hy
  rw [length_drop] at this
  omega

/-- Elements that each have `n` before them do not change the first `n`. -/
theorem exists_sorted_take_append [DecidableRel le] (htrans : ∀ a b c, le a b → le b c → le a c)
    (htotal : ∀ a b, le a b ∨ le b a) (n : Nat) {s rest : List α} (hs : s.Pairwise le)
    (hbehind : ∀ y ∈ rest, n ≤ s.countP fun z => le z y) :
    ∃ whole : List α, whole.Perm (s ++ rest) ∧ whole.Pairwise le ∧ whole.take n = s.take n := by
  have hrefl : ∀ a, le a a := fun a => (htotal a a).elim id id
  have : Std.Total le := ⟨htotal⟩
  have : IsTrans α le := ⟨htrans⟩
  -- what is left over comes after the first `n` elements
  have hrest : ∀ x ∈ s.take n, ∀ y ∈ s.drop n ++ rest, le x y := by
    intro x hx y hy
    rcases mem_append.mp hy with hy | hy
    · rw [← take_append_drop n s] at hs
      exact (pairwise_append.mp hs).2.2 x hx y hy
    · exact le_of_mem_take htrans hs (hbehind y hy) hx (hrefl x)
  refine ⟨s.take n ++ (s.drop n ++ rest).insertionSort le, ?_, ?_, ?_⟩
  · refine ((perm_insertionSort le _).append_left _).trans ?_
    rw [← append_assoc, take_append_drop]
  · refine pairwise_append.mpr ⟨hs.sublist (take_sublist n s), pairwise_insertionSort le _, ?_⟩
    intro x hx y hy
    exact hrest x hx y ((perm_insertionSort le _).mem_iff.mp hy)
  · by_cases hn : n ≤ s.length
    · have hlength : (s.take n).length = n := length_take_of_le hn
      rw [take_append_of_le_length hlength.ge, take_take, min_self]
    · -- fewer than `n` elements in all: nothing is left over
      have hnone : rest = [] := by
        refine eq_nil_iff_forall_not_mem.mpr fun y hy => hn ?_
        exact (hbehind y hy).trans countP_le_length
      rw [hnone, append_nil, drop_eq_nil_of_le (by omega)]
      simp [take_take]

end TopN
