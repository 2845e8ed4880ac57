import Mathlib

/-!
# Pages of an ordered collection

A collection is read in pages, each of them the items that come next after a key, up to a budget.
-/

namespace Pages

open List

variable {α κ : Type*} [LinearOrder κ]

/-- The key comes after the start, if there is one. -/
def After (start : Option κ) (k : κ) : Prop := ∀ s ∈ start, s < k

instance decidableAfter (start : Option κ) (k : κ) : Decidable (After start k) :=
  inferInstanceAs (Decidable (∀ s ∈ start, s < k))

variable {start : Option κ}

/-- What comes after a key after the start is after the start. -/
theorem After.of_lt {k k' : κ} (h : After start k) (hlt : k < k') : After start k' :=
  fun s hs => (h s hs).trans hlt

/-- Not after the start means at or before its key. -/
theorem not_after_iff {k : κ} : ¬ After start k ↔ ∃ s, start = some s ∧ k ≤ s := by
  unfold After
  push Not
  rfl

variable (key : α → κ)

/-- What a page of the items after the start is. -/
structure IsPage (items : List α) (start : Option κ) (budget : Nat) (page : List α) (atEnd : Bool) : Prop where
  mem : ∀ x ∈ page, x ∈ items
  after : ∀ x ∈ page, After start (key x)
  sorted : page.Pairwise fun a b => key a < key b
  full : atEnd = false → page.length = budget
  complete : ∀ x ∈ items, After start (key x) → x ∈ page ∨ atEnd = false ∧ ∃ last, page.getLast? = some last ∧ key last < key x

variable {key}

/-- The first elements after the start are a page. -/
theorem isPage_take {items rest : List α} {budget : Nat} {atEnd : Bool}
    (hrest : ∀ x, x ∈ rest ↔ x ∈ items ∧ After start (key x)) (hsorted : rest.Pairwise fun a b => key a < key b)
    (hbudget : 1 ≤ budget) (hfull : atEnd = false → budget ≤ rest.length) (hend : atEnd = true → rest.length ≤ budget) :
    IsPage key items start budget (rest.take budget) atEnd where
  mem x hx := ((hrest x).mp (mem_of_mem_take hx)).1
  after x hx := ((hrest x).mp (mem_of_mem_take hx)).2
  sorted := hsorted.sublist (take_sublist ..)
  full hnot := length_take_of_le (hfull hnot)
  complete x hx hafter := by
    have hmem : x ∈ rest.take budget ∨ x ∈ rest.drop budget := by
      rw [← mem_append, take_append_drop]
      exact (hrest x).mpr ⟨hx, hafter⟩
    cases atEnd with
    | true =>
      rw [drop_eq_nil_of_le (hend rfl)] at hmem
      exact Or.inl (hmem.resolve_right not_mem_nil)
    | false =>
      refine hmem.imp_right fun hdrop => ⟨rfl, ?_⟩
      have hne : rest.take budget ≠ [] := by
        intro hnil
        have hlength := length_take_of_le (hfull rfl)
        rw [hnil, length_nil] at hlength
        omega
      refine ⟨(rest.take budget).getLast hne, List.getLast?_eq_some_getLast hne, ?_⟩
      rw [← take_append_drop budget rest, pairwise_append] at hsorted
      exact hsorted.2.2 _ (getLast_mem hne) x hdrop

namespace IsPage

variable {items page : List α} {budget : Nat} {atEnd : Bool}

section

variable (h : IsPage key items start budget page atEnd)
include h

/-- A page that does not reach the end is not empty. -/
theorem ne_nil (hbudget : 1 ≤ budget) (hend : atEnd = false) : page ≠ [] := by
  intro hnil
  have hlength := h.full hend
  rw [hnil, length_nil] at hlength
  omega

/-- The last element of a page has its greatest key. -/
theorem le_last {last x : α} (hlast : page.getLast? = some last) (hx : x ∈ page) : key x ≤ key last := by
  have hsorted := h.sorted
  rw [← dropLast_append_getLast? last hlast, pairwise_append] at hsorted
  rw [← dropLast_append_getLast? last hlast, mem_append, mem_singleton] at hx
  rcases hx with hx | rfl
  · exact (hsorted.2.2 x hx last (mem_singleton_self last)).le
  · exact le_refl _

/-- A page has no key twice. -/
theorem nodup_keys : (page.map key).Nodup :=
  pairwise_map.mpr (h.sorted.imp fun hlt => ne_of_lt hlt)

end

end IsPage

end Pages
