import LogLake.Aggregates.Publish
import LogLake.Lemmas.Coverage

/-! # Publications of a linear history -/

namespace LogLake

/-! ## Counts and links are kept apart -/

namespace SnapshotAggregates

variable {κ : Type}

theorem joinLoop_counts (turns : Nat) (s : SnapshotAggregates κ) : (joinLoop turns s).counts = s.counts := by
  induction turns generalizing s with
  | zero => rfl
  | succ turns ih =>
    rw [joinLoop]
    cases hnext : s.joinNext with
    | none => rfl
    | some s' =>
      obtain ⟨next, -, rfl⟩ := Option.map_eq_some_iff.mp hnext
      exact ih _

theorem addCoverageLink_counts (s : SnapshotAggregates κ) (link : AggregateCoverageLink) :
    (s.addCoverageLink link).counts = s.counts := by
  unfold addCoverageLink
  split
  · rfl
  · exact joinLoop_counts _ _

end SnapshotAggregates

theorem Joined.withCounts {κ : Type} {h : AppendHistory} {added : List Nat} {k : Nat} {runs : List (Nat × Nat)}
    {s : SnapshotAggregates κ} (hj : Joined h added k runs s) (counts : κ) : Joined h added k runs { s with counts } :=
  ⟨{ hj with }, hj.apart⟩

variable {G B T : Type}

namespace PendingSideAggDeltas

theorem foldInto_none {α : Type} (merge : α → α → α) (d : Option α) : foldInto merge none d = d := by
  cases d <;> rfl

theorem applyTo_ofCommit (m : CountMerges G B T) (d : SideCounts G B T) (link : AggregateCoverageLink)
    (side : SnapshotAggregates (SideCounts G B T)) :
    (ofCommit m d link).applyTo m side = { side with counts := side.counts.apply m d }.addCoverageLink link := by
  have hcounts : (ofCommit m d link).counts = d := by
    simp [ofCommit, fold, cover, empty, SideCounts.empty, foldInto_none]
  rw [applyTo, hcounts]
  rfl

theorem alreadyPublished_ofCommit (m : CountMerges G B T) (d : SideCounts G B T) (link : AggregateCoverageLink)
    (side : SnapshotAggregates (SideCounts G B T)) : (ofCommit m d link).AlreadyPublished side ↔ side.Evidences link := by
  simp [AlreadyPublished, ofCommit, fold, cover, empty]

end PendingSideAggDeltas

theorem not_evidences_empty (link : AggregateCoverageLink) :
    ¬(SnapshotAggregates.empty : SnapshotAggregates (SideCounts G B T)).Evidences link := by
  simp [SnapshotAggregates.Evidences, SnapshotAggregates.EdgePast, SnapshotAggregates.empty]

theorem mergeRound_ofCommit (m : CountMerges G B T) (d : SideCounts G B T) (link : AggregateCoverageLink)
    (existing : Option (SnapshotAggregates (SideCounts G B T))) : mergeRound m (.ofCommit m d link) existing =
      if (existing.getD .empty).Evidences link then none
      else some ((PendingSideAggDeltas.ofCommit m d link).applyTo m (existing.getD .empty)) := by
  have hiff : (∃ side ∈ existing, (PendingSideAggDeltas.ofCommit m d link).AlreadyPublished side) ↔
      (existing.getD .empty).Evidences link := by
    cases existing with
    | none => simpa using not_evidences_empty link
    | some side => simp [PendingSideAggDeltas.alreadyPublished_ofCommit]
  simp only [mergeRound, hiff]

/-! ## Links inside a run -/

namespace Joined

variable {κ : Type} {h : AppendHistory} {added : List Nat} {k : Nat} {runs : List (Nat × Nat)} {s : SnapshotAggregates κ}

variable {i : Nat}

section

variable (hj : Joined h added k runs s)
include hj

theorem enclosed_iff (hi : i < h.length) : h.Enclosed s i ↔ ∃ r ∈ runs, r.1 < i ∧ i + 1 < r.2 := by
  unfold Appends.Enclosed
  rw [hj.pending]
  have hbeyond : ∀ r ∈ runs, (h.link i).sequenceNumber < (h.run r).sequenceNumber ↔ i < r.2 - 1 := by
    intro r hr
    have hproper := hj.proper r hr
    exact h.sequence_lt_iff hi (by omega)
  constructor
  · rintro ⟨pending, hpending, ⟨a, ha, hparent⟩, hseq⟩
    obtain ⟨r, hr, rfl⟩ := List.mem_map.mp hpending
    have hproper := hj.proper r hr
    have hstart : r.1 = a := (h.edgeId_inj (by omega) (by omega)).mp hparent
    have hend := (hbeyond r hr).mp hseq
    exact ⟨r, hr, by omega, by omega⟩
  · rintro ⟨r, hr, hstart, hend⟩
    exact ⟨h.run r, List.mem_map_of_mem hr, ⟨r.1, hstart, rfl⟩, (hbeyond r hr).mpr (by omega)⟩

theorem mem_added_iff (hi : i < h.length) : i ∈ added ↔ s.Evidences (h.link i) ∨ h.Enclosed s i := by
  rw [hj.mem_added, hj.evidences_iff hi, hj.enclosed_iff hi, or_assoc]
  refine or_congr_right ?_
  constructor
  · rintro ⟨r, hr, hle, hlt⟩
    by_cases hends : r.2 = i + 1 ∨ r.1 = i
    · exact .inl ⟨r, hr, hends⟩
    · exact .inr ⟨r, hr, by omega, by omega⟩
  · rintro (⟨r, hr, hends⟩ | ⟨r, hr, hlt⟩)
    · have hproper := hj.proper r hr
      exact ⟨r, hr, by omega, by omega⟩
    · exact ⟨r, hr, by omega, by omega⟩

theorem run_unique (hnodup : added.Nodup) {r r' : Nat × Nat} (hr : r ∈ runs)
    (hr' : r' ∈ runs) (hi : r.1 ≤ i ∧ i < r.2) (hi' : r'.1 ≤ i ∧ i < r'.2) : r = r' := by
  have hspans : (spans runs).Nodup := (hj.held.nodup_iff.mpr hnodup).of_append_right
  have hsymm : Std.Symm (Function.onFun List.Disjoint fun r : Nat × Nat => List.Ico r.1 r.2) := ⟨fun _ _ h => h.symm⟩
  have hpairs := (List.nodup_flatMap.mp hspans).2
  by_contra hne
  exact hpairs.forall hr hr' hne (List.Ico.mem.mpr hi) (List.Ico.mem.mpr hi')

theorem not_evidences_of_enclosed (hnodup : added.Nodup) (hi : i < h.length)
    (hin : h.Enclosed s i) : ¬s.Evidences (h.link i) := by
  obtain ⟨r, hr, hstart, hend⟩ := (hj.enclosed_iff hi).mp hin
  rw [hj.evidences_iff hi]
  rintro (hbelow | ⟨r', hr', hends⟩)
  · have := hj.above hnodup hr
    omega
  · have hproper := hj.proper r' hr'
    obtain rfl := hj.run_unique hnodup hr hr' (i := i) (by omega) (by omega)
    omega

end

end Joined

end LogLake
