import Mathlib

/-!
# Contiguous parts of a list

The windows of a list are its parts of one length; cutting it at every element that satisfies `p` leaves pieces none of whose
elements does.
-/

namespace List

variable {α : Type*} {p : α → Bool}

/-- The contiguous sublists of length `n`, from left to right. -/
def windows (n : Nat) : List α → List (List α)
  | [] => []
  | a :: l => if n ≤ l.length + 1 then (a :: l).take n :: windows n l else []

/-- The windows are the infixes of their length. -/
theorem mem_windows {n : Nat} (hn : 0 < n) {w l : List α} : w ∈ windows n l ↔ w <:+: l ∧ w.length = n := by
  induction l with
  | nil =>
    simp only [windows, not_mem_nil, infix_nil, false_iff, not_and]
    rintro rfl
    exact hn.ne
  | cons a l ih =>
    by_cases hl : n ≤ l.length + 1
    · rw [windows, if_pos hl, mem_cons, ih, infix_cons_iff, or_and_right]
      refine or_congr ⟨?_, ?_⟩ Iff.rfl
      · rintro rfl
        exact ⟨ take_prefix n (a :: l), by simp only [length_take, length_cons]; omega⟩
      · rintro ⟨hp, rfl⟩
        exact prefix_iff_eq_take.mp hp
    · rw [windows, if_neg hl]
      simp only [not_mem_nil, false_iff, not_and]
      intro hw
      have := hw.length_le
      simp only [length_cons] at this
      omega

/-- The windows of an infix are windows of the list. -/
theorem windows_subset_of_isInfix {n : Nat} (hn : 0 < n) {s l : List α} (h : s <:+: l) : windows n s ⊆ windows n l :=
  fun _ hw => (mem_windows hn).mpr ⟨((mem_windows hn).mp hw).1.trans h, ((mem_windows hn).mp hw).2⟩

/-- A split has a first piece. -/
theorem splitOnP_exists_cons (l : List α) : ∃ q qs, splitOnP p l = q :: qs :=
  exists_cons_of_ne_nil (splitOnP_ne_nil p l)

/-- The first piece is a prefix. -/
theorem head_splitOnP_isPrefix (l : List α) : ∀ q qs, splitOnP p l = q :: qs → q <+: l := by
  induction l with
  | nil => intro q qs h; simp only [splitOnP_nil, cons.injEq] at h; rw [← h.1]
  | cons a l ih =>
    intro q qs h
    obtain ⟨r, rs, hr⟩ := splitOnP_exists_cons (p := p) l
    rw [splitOnP_cons_eq_if_modifyHead, hr] at h
    split at h
    · simp only [cons.injEq] at h; rw [← h.1]; exact nil_prefix
    · simp only [modifyHead_cons, cons.injEq] at h
      rw [← h.1]
      exact (prefix_cons_inj a).mpr (ih r rs hr)

/-- Every piece is an infix. -/
theorem infix_of_mem_splitOnP {q l : List α} (h : q ∈ splitOnP p l) : q <:+: l := by
  induction l generalizing q with
  | nil => simp only [splitOnP_nil, mem_singleton] at h; rw [h]
  | cons a l ih =>
    obtain ⟨r, rs, hr⟩ := splitOnP_exists_cons (p := p) l
    have hhead : ∀ q ∈ rs, q <:+: l := fun q hq => ih (by rw [hr]; exact mem_cons_of_mem r hq)
    rw [splitOnP_cons_eq_if_modifyHead] at h
    split at h
    · rcases mem_cons.mp h with rfl | h
      · exact nil_infix
      · exact infix_cons (ih h)
    · rw [hr, modifyHead_cons] at h
      rcases mem_cons.mp h with rfl | h
      · exact ((prefix_cons_inj a).mpr (head_splitOnP_isPrefix l r rs hr)).isInfix
      · exact infix_cons (hhead q h)

/-- No piece has a separator. -/
theorem not_sep_of_mem_splitOnP {q l : List α} (h : q ∈ splitOnP p l) : ∀ x ∈ q, p x = false := by
  induction l generalizing q with
  | nil => simp only [splitOnP_nil, mem_singleton] at h; simp [h]
  | cons a l ih =>
    obtain ⟨r, rs, hr⟩ := splitOnP_exists_cons (p := p) l
    rw [splitOnP_cons_eq_if_modifyHead] at h
    split at h
    · rcases mem_cons.mp h with rfl | h
      · simp
      · exact ih h
    · next ha =>
      rw [hr, modifyHead_cons] at h
      rcases mem_cons.mp h with rfl | h
      · intro x hx
        rcases mem_cons.mp hx with rfl | hx
        · exact Bool.eq_false_iff.mpr ha
        · exact ih (q := r) (by rw [hr]; exact mem_cons_self) x hx
      · exact ih (by rw [hr]; exact mem_cons_of_mem r h)

section Joined

variable {sep : α}

/-- The pieces joined are the pieces with a separator before each. -/
theorem cons_intercalate_eq_flatMap {parts : List (List α)} (hne : parts ≠ []) :
    sep :: [sep].intercalate parts = parts.flatMap (sep :: ·) := by
  induction parts with
  | nil => exact absurd rfl hne
  | cons part parts ih =>
    cases parts with
    | nil => simp
    | cons next parts =>
      rw [flatMap_cons, ← ih (cons_ne_nil _ _), intercalate_cons_cons]
      simp

variable [BEq α] [LawfulBEq α]

/-- A text stands between two separators exactly when it is a piece other than the last. -/
theorem enclosed_infix_iff_mem_dropLast {c l : List α} (hc : sep ∉ c) :
    sep :: (c ++ [sep]) <:+: sep :: l ↔ c ∈ (splitOn sep l).dropLast := by
  constructor
  · rintro ⟨u, v, huv⟩
    have hlist : u ++ sep :: (c ++ sep :: v) = [] ++ sep :: l := by
      rw [nil_append, ← huv]
      simp
    have hpieces := congrArg (splitOn sep) hlist
    rw [splitOn_append_cons_self, splitOn_append_cons_self, splitOn_append_cons_self, splitOn_eq_singleton hc,
      splitOn_nil] at hpieces
    obtain ⟨q, qs, hq⟩ := exists_cons_of_ne_nil (splitOn_ne_nil sep u)
    rw [hq, cons_append, singleton_append, singleton_append, cons.injEq] at hpieces
    rw [← hpieces.2, dropLast_append_of_ne_nil (cons_ne_nil _ _), dropLast_cons_of_ne_nil (splitOn_ne_nil sep v)]
    simp
  · intro hmem
    obtain ⟨before, after, hsplit⟩ := append_of_mem hmem
    have hne := splitOn_ne_nil sep l
    have hall : splitOn sep l = before ++ c :: (after ++ [(splitOn sep l).getLast hne]) := by
      conv_lhs => rw [← dropLast_append_getLast hne, hsplit]
      simp
    have hjoined : sep :: l = (splitOn sep l).flatMap (sep :: ·) := by
      rw [← cons_intercalate_eq_flatMap hne, intercalate_splitOn]
    obtain ⟨next, rest, hnext⟩ := exists_cons_of_ne_nil
      (append_ne_nil_of_right_ne_nil after (cons_ne_nil ((splitOn sep l).getLast hne) []))
    rw [hjoined, hall, hnext]
    refine ⟨before.flatMap (sep :: ·), next ++ rest.flatMap (sep :: ·), ?_⟩
    simp

end Joined

end List
