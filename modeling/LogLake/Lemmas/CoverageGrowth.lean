import LogLake.Lemmas.Publish

/-! # A history that grows, and an edge that moves -/

namespace LogLake

open Nat List
open Appends (edge edgeId run link)

namespace AppendHistory

/-- Nothing but what the history starts from. -/
def ofRoot (root : Option AggregateCoverage) : AppendHistory where
  length := 0
  root := root
  appended := fun _ => ⟨0, 0⟩
  ids_distinct := fun _ hi _ hj _ => (le_zero.mp hi).trans (le_zero.mp hj).symm
  sequence_increasing := fun _ hj _ hij => absurd hij (by omega)

structure Newer (h : AppendHistory) (e : AggregateCoverage) : Prop where
  id : ∀ j ≤ h.length, h.edgeId j ≠ some e.snapshotId
  sequence : ∀ j ≤ h.length, ∀ f ∈ h.edge j, f.sequenceNumber < e.sequenceNumber

def snocAppends (h : AppendHistory) (e : AggregateCoverage) : Appends where
  length := h.length + 1
  root := h.root
  appended := fun i => if i < h.length then h.appended i else e

variable {h : AppendHistory} {e : AggregateCoverage}

theorem snocAppends_edge {k : Nat} (hk : k ≤ h.length) : (h.snocAppends e).edge k = h.edge k := by
  cases k with
  | zero => rfl
  | succ k => simp [edge, snocAppends, lt_of_succ_le hk]

theorem snocAppends_edge_last : (h.snocAppends e).edge (h.length + 1) = some e := by
  simp [edge, snocAppends]

def snoc (h : AppendHistory) (e : AggregateCoverage) (hnew : h.Newer e) : AppendHistory where
  toAppends := h.snocAppends e
  ids_distinct := by
    intro i hi j hj hid
    simp only [edgeId] at hid
    rcases lt_or_eq_of_le hi with hi | rfl
    · rcases lt_or_eq_of_le hj with hj | rfl
      · have hi := le_of_lt_succ hi
        have hj := le_of_lt_succ hj
        rw [snocAppends_edge hi, snocAppends_edge hj] at hid
        exact h.ids_distinct i hi j hj hid
      · have hi := le_of_lt_succ hi
        rw [snocAppends_edge hi] at hid
        exact absurd (hid.trans (congrArg _ snocAppends_edge_last)) (hnew.id i hi)
    · rcases lt_or_eq_of_le hj with hj | rfl
      · have hj := le_of_lt_succ hj
        rw [snocAppends_edge hj] at hid
        exact absurd (hid.symm.trans (congrArg _ snocAppends_edge_last)) (hnew.id j hj)
      · rfl
  sequence_increasing := by
    intro j hj i hij f hf g hg
    have hi : i ≤ h.length := le_of_lt_succ (lt_of_lt_of_le hij hj)
    rw [snocAppends_edge hi] at hf
    rcases lt_or_eq_of_le hj with hj | rfl
    · have hj := le_of_lt_succ hj
      rw [snocAppends_edge hj] at hg
      exact h.sequence_increasing j hj i hij f hf g hg
    · obtain rfl : e = g := Option.some.inj (snocAppends_edge_last.symm.trans hg)
      exact hnew.sequence i hi f hf

variable (hnew : h.Newer e)

theorem snoc_length : (h.snoc e hnew).length = h.length + 1 := rfl

theorem snoc_edge {k : Nat} (hk : k ≤ h.length) : (h.snoc e hnew).edge k = h.edge k := snocAppends_edge hk

theorem snoc_edge_last : (h.snoc e hnew).edge (h.length + 1) = some e := snocAppends_edge_last

theorem snoc_appended_last : (h.snoc e hnew).appended h.length = e := if_neg (Nat.lt_irrefl _)

theorem snoc_edgeId {k : Nat} (hk : k ≤ h.length) : (h.snoc e hnew).edgeId k = h.edgeId k := by
  rw [edgeId, snoc_edge hnew hk, edgeId]

theorem snoc_run {r : Nat × Nat} (hr : r.1 < r.2 ∧ r.2 ≤ h.length) : (h.snoc e hnew).run r = h.run r := by
  have happended : (h.snoc e hnew).appended (r.2 - 1) = h.appended (r.2 - 1) := if_pos (by omega)
  rw [run, snoc_edgeId hnew (by omega), happended, run]

theorem snoc_link {i : Nat} (hi : i < h.length) : (h.snoc e hnew).link i = h.link i := snoc_run hnew ⟨Nat.lt_succ_self i, hi⟩

theorem snoc_link_last : (h.snoc e hnew).link h.length = ⟨h.edgeId h.length, e.snapshotId, e.sequenceNumber⟩ := by
  have happended : (h.snoc e hnew).appended (h.length + 1 - 1) = e := snoc_appended_last hnew
  rw [link, run, snoc_edgeId hnew le_rfl, happended]

end AppendHistory

namespace Joined

variable {κ : Type} {h : AppendHistory} {added : List Nat} {k : Nat} {runs : List (Nat × Nat)} {s : SnapshotAggregates κ}

section

variable (hj : Joined h added k runs s)
include hj

/-- A new commit leaves the object as it was joined. -/
theorem snoc {e : AggregateCoverage} (hnew : h.Newer e) : Joined (h.snoc e hnew) added k runs s where
  __ := hj
  coverage := hj.coverage.trans (AppendHistory.snoc_edge hnew hj.within).symm
  pending := by
    rw [hj.pending]
    exact map_congr_left fun r hr => (AppendHistory.snoc_run hnew (hj.proper r hr)).symm
  within := le_succ_of_le hj.within
  proper := fun r hr => ⟨(hj.proper r hr).1, le_succ_of_le (hj.proper r hr).2⟩

theorem le_edge (hnodup : added.Nodup) {n : Nat} (hn : n ≤ h.length) (hall : ∀ i < n, i ∈ added) : n ≤ k :=
  (hj.isGreatest hnodup).2 ⟨hn, hall⟩

/-- Moving the root past the commit at the edge adds that commit. -/
theorem rerootCoverage (hnodup : added.Nodup) (hk : k < h.length) :
    ∃ k' runs', Joined h (k :: added) k' runs' (s.rerootCoverage (h.appended k)) := by
  have hkept : (s.coverageLinks.filter fun pending => pending.snapshotId ≠ (h.appended k).snapshotId) = s.coverageLinks := by
    refine filter_eq_self.mpr fun pending hpending => ?_
    rw [hj.pending] at hpending
    obtain ⟨r, hr, rfl⟩ := mem_map.mp hpending
    have hproper := hj.proper r hr
    have habove := hj.above hnodup hr
    simp only [decide_eq_true_eq]
    intro hid
    have hplace : h.edgeId r.2 = h.edgeId (k + 1) := by
      rw [← h.run_snapshotId hproper.1, hid]
      rfl
    have := (h.edgeId_inj hproper.2 hk).mp hplace
    omega
  have htracks : Tracks h (k :: added) (k + 1) runs
      { s with coverage := some (h.appended k), coverageLinks := s.coverageLinks } := by
    refine ⟨rfl, hj.pending, hk, hj.proper, ?_⟩
    rw [range_succ, append_assoc, singleton_append]
    exact perm_middle.trans (hj.held.cons k)
  unfold SnapshotAggregates.rerootCoverage
  rw [hkept]
  exact htracks.joinPendingLinks

end

end Joined

theorem SnapshotAggregates.rerootCoverage_counts {κ : Type} (s : SnapshotAggregates κ) (edge : AggregateCoverage) :
    (s.rerootCoverage edge).counts = s.counts := joinLoop_counts _ _

end LogLake
