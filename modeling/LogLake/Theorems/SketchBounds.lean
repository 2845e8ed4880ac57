import LogLake.Lemmas.Sketch

/-! # The error of a column's summary -/

namespace LogLake

open List

namespace SketchBuild

theorem summarises (b : SketchBuild) : b.sketch.Summarises b.values := by
  induction b with
  | new m => exact fun x => ⟨le_rfl, le_rfl⟩
  | fromExact m exact rows => exact ColumnSketch.Summarises.fromExact m exact rows
  | offer b value ih => exact ih.offer value
  | merge b other ih ih' => exact ih.merge ih'

theorem paidBy {bound : Nat} (b : SketchBuild) (h : ∀ c ∈ b.capacities, bound ≤ max c 1) :
    b.sketch.PaidBy bound b.values := by
  induction b with
  | new m => exact ⟨h m (mem_singleton_self m), by simp [sketch, ColumnSketch.new, values]⟩
  | fromExact m exact rows => exact ColumnSketch.PaidBy.fromExact (h m (mem_singleton_self m)) exact rows
  | offer b value ih => exact (ih h).offer value
  | merge b other ih ih' =>
    have hleft := ih fun c hc => h c (mem_append_left _ hc)
    have hright := ih' fun c hc => h c (mem_append_right _ hc)
    exact hleft.merge hright

theorem sketch_m {m : Nat} (b : SketchBuild) (h : ∀ c ∈ b.capacities, c = m) : b.sketch.m = max m 1 := by
  induction b with
  | new m' =>
    obtain rfl := h m' (mem_singleton_self m')
    rfl
  | fromExact m' exact rows =>
    obtain rfl := h m' (mem_singleton_self m')
    exact ColumnSketch.fromExact_m m' exact rows
  | offer b value ih => rw [sketch, ColumnSketch.offer_m, ih h]
  | merge b other ih ih' =>
    have hleft := ih fun c hc => h c (mem_append_left _ hc)
    have hright := ih' fun c hc => h c (mem_append_right _ hc)
    rw [sketch, ColumnSketch.merge_m, hleft, hright, max_self]

end SketchBuild

/-- The guarantee of a summary: for every value, its counter is at most the multiplicity, which is at most the counter and the
error floor; pruning keeps at most as many counters as the capacity; and with one capacity throughout, the floor times the
capacity and one more is at most the number of values. -/
theorem sketch_understates_within_floor (b : SketchBuild) :
    (∀ x, b.sketch.counters.weight x ≤ b.values.count x ∧
      b.values.count x ≤ b.sketch.counters.weight x + b.sketch.errorFloor) ∧
    (∀ s : ColumnSketch, s.prune.counters.entries.length ≤ s.m) ∧
    ∀ m, (∀ c ∈ b.capacities, c = m) → b.sketch.m = max m 1 ∧ b.sketch.errorFloor * (b.sketch.m + 1) ≤ b.values.length := by
  refine ⟨b.summarises, ColumnSketch.length_prune_le, fun m hm => ?_⟩
  have hcap := b.sketch_m hm
  have hbound : ∀ c ∈ b.capacities, b.sketch.m ≤ max c 1 := by
    intro c hc
    rw [hcap, hm c hc]
  have hpaid := (b.paidBy hbound).2
  exact ⟨hcap, by omega⟩

/-- Three values under one counter each way, merged: the evicted ones are within the floor. -/
theorem merged_summary_within_floor :
    let one := (SketchBuild.new 1).offer "a".toList
    let many := ((one.offer "b".toList).offer "c".toList).merge (one.offer "a".toList)
    many.sketch.errorFloor = 1 ∧ many.sketch.counters.weight "a".toList = 2 ∧ many.values.count "a".toList = 3 ∧
      many.values.count "a".toList ≤ many.sketch.counters.weight "a".toList + many.sketch.errorFloor ∧
      many.sketch.errorFloor * (many.sketch.m + 1) ≤ many.values.length := by
  intro one many
  have h := sketch_understates_within_floor many
  exact ⟨by decide +kernel, by decide +kernel, by decide +kernel, (h.1 _).2, (h.2.2 1 (by decide +kernel)).2⟩

end LogLake
