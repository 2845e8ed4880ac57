import LogLake.Lemmas.Coverage

/-! # The coverage edge does not depend on the order of the publications -/

namespace LogLake

open AppendHistory List

theorem joined_foldl {κ : Type} (h : AppendHistory) (later : List Nat) :
    ∀ {added : List Nat} {k : Nat} {runs : List (Nat × Nat)} {s : SnapshotAggregates κ}, Joined h added k runs s →
      (later.reverse ++ added).Nodup → (∀ i ∈ later, i < h.length) →
      ∃ k' runs', Joined h (later.reverse ++ added) k' runs' ((later.map h.link).foldl .addCoverageLink s) := by
  induction later with
  | nil =>
    intro added k runs s hj _ _
    exact ⟨k, runs, hj⟩
  | cons i later ih =>
    intro added k runs s hj hnodup hlater
    rw [reverse_cons, append_assoc, singleton_append] at hnodup ⊢
    have hnew : i ∉ added := (nodup_cons.mp (List.Nodup.of_append_right hnodup)).1
    obtain ⟨k₁, runs₁, hj₁⟩ := hj.addCoverageLink (hlater i mem_cons_self) hnew
    exact ih hj₁ hnodup fun j hj => hlater j (mem_cons_of_mem i hj)

/-- Whatever the order of the links, the edge is the last snapshot up to which all were added, and the pending entries are
runs of the remaining links added, each of them in one run. -/
theorem coverage_of_added_links {κ : Type} (h : AppendHistory) (counts : κ) (added : List Nat) (hnodup : added.Nodup)
    (hadded : ∀ i ∈ added, i < h.length) :
    ∃ k runs, IsGreatest {k | k ≤ h.length ∧ ∀ i < k, i ∈ added} k ∧
      ((added.map h.link).foldl .addCoverageLink (h.start counts)).coverage = h.edge k ∧
      ((added.map h.link).foldl .addCoverageLink (h.start counts)).coverageLinks = runs.map h.run ∧
      (∀ r ∈ runs, r.1 < r.2) ∧ (spans runs).Perm (added.filter (k ≤ ·)) := by
  have hperm : (added.reverse ++ []).Perm added := by simp
  have hnodup' : (added.reverse ++ []).Nodup := hperm.nodup_iff.mpr hnodup
  obtain ⟨k, runs, hj⟩ := joined_foldl h added (joined_start h counts) hnodup' hadded
  have hj' : Joined h added k runs ((added.map h.link).foldl .addCoverageLink (h.start counts)) :=
    ⟨{ hj with held := hj.held.trans hperm }, hj.apart⟩
  exact ⟨k, runs, hj'.isGreatest hnodup, hj'.coverage, hj'.pending, fun r hr => (hj'.proper r hr).1,
    hj'.spans_perm_filter hnodup⟩

/-- Of four appends the third and the fourth are published, then the first: the edge is the first, the others wait as a
run. -/
theorem second_append_missing :
    ∃ k runs, IsGreatest {k | k ≤ (numbered 4).length ∧ ∀ i < k, i ∈ [2, 3, 0]} k ∧
      (([2, 3, 0].map (numbered 4).link).foldl .addCoverageLink
        ((numbered 4).start ())).coverage = (numbered 4).edge k ∧
      (([2, 3, 0].map (numbered 4).link).foldl .addCoverageLink
        ((numbered 4).start ())).coverageLinks = runs.map (numbered 4).run ∧
      (∀ r ∈ runs, r.1 < r.2) ∧ (spans runs).Perm ([2, 3, 0].filter (k ≤ ·)) :=
  coverage_of_added_links (numbered 4) () [2, 3, 0] (by decide) (by decide)

example : (([2, 3, 0].map (numbered 4).link).foldl .addCoverageLink
    ((numbered 4).start ())) = ⟨some ⟨1, 1⟩, [⟨some 2, 4, 4⟩], ()⟩ := by decide

end LogLake
