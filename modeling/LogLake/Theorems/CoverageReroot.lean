import LogLake.Lemmas.ExpirySteps

/-! # Moving the edge at snapshot expiry -/

namespace LogLake.Expiry

open Transition (run Meets)

variable {G B T : Type} {m : CountMerges G B T} {l : Lineage} {delta : Nat → SideCounts G B T}
  {initial : SideCounts G B T} {s : State G B T}

namespace Chained

variable {h : AppendHistory} {slots added rooted : List Nat} {gap : Option Nat}

section

variable (hc : Chained m l delta initial s h slots added rooted gap)
include hc

theorem edge_holds {edge : AggregateCoverage} (hedge : edge ∈ s.side.coverage) : (∃ p < s.kinds.length, edge = l.edgeAt p) ∧
      ∀ i link, s.links[i]? = some link → link.sequenceNumber ≤ edge.sequenceNumber → i ∈ s.merged := by
  obtain ⟨k, runs, hjoined⟩ := hc.joined
  rw [hjoined.coverage] at hedge
  refine ⟨hc.edge_committed hjoined.within hedge, fun i link hlink hle => ?_⟩
  obtain ⟨j, hj, hlt, rfl⟩ := hc.link_eq hlink
  refine hc.merged_of_added hj (hjoined.mem_added.mpr (.inl ?_))
  -- a link beyond the edge has a greater sequence number
  by_contra hge
  exact absurd (h.sequence_increasing (j + 1) hlt k (by omega) edge hedge _ rfl) (not_lt_of_ge hle)

theorem gap_of_settled (hsettled : s.Settled) : gap = none := by
  have hknows := hc.phase
  unfold PhaseKnows at hknows
  unfold State.Settled at hsettled
  cases hphase : s.phase with
  | idle => rw [hphase] at hknows; exact hknows.2
  | loaded commits expiring | decided commits expiring reroot => rw [hphase] at hknows; exact hknows.2.1
  | committed proven target | sent proven target version => rw [hphase] at hsettled; exact hsettled.elim
  | done => rw [hphase] at hknows; exact hknows

theorem covers_current (hall : ∀ i < s.links.length, i ∈ s.merged) (hsettled : s.Settled) (hkinds : s.kinds ≠ []) :
    aggregateCoversCurrentSnapshot (s.table l) s.side.coverage = true := by
  obtain ⟨v, htip⟩ := hc.tip.resolve_left fun hempty => hkinds hempty.1
  have hlt := htip.bridge.lt
  have hbridge : Bridge l s.kinds (s.expired ++ []) v (s.kinds.length - 1) := by simpa using htip.bridge
  rw [hc.coverage_of_held (hc.held_of_merged (hc.gap_of_settled hsettled) hall), htip.edge]
  exact hbridge.covers (by omega)

end

end Chained

/-- In every run that is not disturbed: the edge names a commit and every append up to it is merged; no delta is merged twice, and
the counts are those of the publications merged; once every append has landed and the expiry is over, the edge covers the current
snapshot. -/
theorem expiry_keeps_chain (m : CountMerges G B T) (l : Lineage) (delta : Nat → SideCounts G B T) (base : Option CommitKind)
    (counts : SideCounts G B T) (actions : List Action) (s : State G B T)
    (hsafe : Meets (step m l delta) (Undisturbed l) (.start l base counts) actions)
    (hrun : run (step m l delta) (.start l base counts) actions = some s) :
    (∀ edge ∈ s.side.coverage, (∃ p < s.kinds.length, edge = l.edgeAt p) ∧
      ∀ i link, s.links[i]? = some link → link.sequenceNumber ≤ edge.sequenceNumber → i ∈ s.merged) ∧
    (s.merged.Nodup ∧
      s.side.counts = s.merged.foldr (fun i acc => acc.apply m (delta i)) (State.start l base counts).side.counts) ∧
    ((∀ i < s.links.length, i ∈ s.merged) → s.Settled → s.kinds ≠ [] →
      aggregateCoversCurrentSnapshot (s.table l) s.side.coverage = true) := by
  have hsound : Sound m l delta (State.start l base counts).side.counts s :=
    Transition.invariant_run (fun _ _ _ hs hok hstep => hs.step hok hstep) (sound_start l base counts) hsafe hrun
  obtain ⟨h, slots, added, rooted, gap, hc⟩ := hsound
  exact ⟨fun edge hedge => hc.edge_holds hedge, ⟨hc.merged_nodup, hc.counts⟩, hc.covers_current⟩

def numbered : Lineage where
  id := fun p => p + 1
  sequenceNumber := fun p => p + 1
  id_injective := by
    intro p q hid
    omega
  sequence_increasing := by
    intro p q hlt
    omega

def adding : CountMerges Nat Nat Nat := ⟨0, 0, 0, (· + ·), (· + ·), (· + ·)⟩

def single (_ : Nat) : SideCounts Nat Nat Nat := ⟨some 1, none, none⟩

def decidedToMove : List Action :=
  [.append, .attempt 0, .land 0, .acknowledge 0, .recluster, .recluster, .recluster, .load [1, 2], .decide]

/-- An append after the commit names the snapshot that the edge moves to. It is published first, and the re-root joins it. -/
theorem append_after_commit_joined :
    ∃ s, run (step adding numbered single) (.start numbered none .empty)
        (decidedToMove ++ [.commit [1, 2], .append, .attempt 1, .land 1, .rerootRead, .land 2]) = some s ∧
      s.merged = [1, 0] ∧ s.expired = [1, 2] ∧ s.merged.Nodup ∧
      aggregateCoversCurrentSnapshot (s.table numbered) s.side.coverage = true := by
  have hview : (run (step adding numbered single) (.start numbered none .empty)
      (decidedToMove ++ [.commit [1, 2], .append, .attempt 1, .land 1, .rerootRead, .land 2])).map
        (fun s => (s.merged, s.expired, s.links.length, s.kinds.length, decide s.Settled)) =
      some ([1, 0], [1, 2], 2, 5, true) := by
    decide +kernel
  obtain ⟨s, hrun, hs⟩ := Option.map_eq_some_iff.mp hview
  simp only [Prod.mk.injEq, decide_eq_true_eq] at hs
  obtain ⟨hmerged, hexpired, hlinks, hkinds, hsettled⟩ := hs
  obtain ⟨-, ⟨hnodup, -⟩, hcovers⟩ := expiry_keeps_chain adding numbered single none .empty _ s (by decide +kernel) hrun
  refine ⟨s, hrun, hmerged, hexpired, hnodup, hcovers (fun i hi => ?_) hsettled fun hempty => ?_⟩
  · rw [hmerged, List.mem_cons, List.mem_singleton]
    omega
  · rw [hempty] at hkinds
    cases hkinds

/-- An append commits before the expiry does, and names the edge that the expiry then moves. Its publication lands after the
re-root and is never joined: every append has landed, the expiry is over, and the edge does not cover the current snapshot. -/
theorem append_before_commit_stranded :
    ∃ s, run (step adding numbered single) (.start numbered none .empty)
        (decidedToMove ++ [.append, .commit [1, 2, 3], .rerootRead, .land 1, .attempt 1, .land 2]) = some s ∧
      (∀ i < s.links.length, i ∈ s.merged) ∧ s.Settled ∧ s.kinds ≠ [] ∧
      s.side.coverageLinks = [⟨some 1, 5, 5⟩] ∧ s.side.coverage = some ⟨3, 3⟩ ∧
      aggregateCoversCurrentSnapshot (s.table numbered) s.side.coverage = false := by
  have hview : (run (step adding numbered single) (.start numbered none .empty)
      (decidedToMove ++ [.append, .commit [1, 2, 3], .rerootRead, .land 1, .attempt 1, .land 2])).map
        (fun s => (decide (∀ i < s.links.length, i ∈ s.merged), decide s.Settled, decide (s.kinds ≠ []))) =
      some (true, true, true) := by
    decide +kernel
  have hobject : (run (step adding numbered single) (.start numbered none .empty)
      (decidedToMove ++ [.append, .commit [1, 2, 3], .rerootRead, .land 1, .attempt 1, .land 2])).map
        (fun s => (s.side.coverageLinks, s.side.coverage,
          aggregateCoversCurrentSnapshot (s.table numbered) s.side.coverage)) =
      some ([⟨some 1, 5, 5⟩], some ⟨3, 3⟩, false) := by
    decide +kernel
  obtain ⟨s, hrun, hs⟩ := Option.map_eq_some_iff.mp hview
  rw [hrun, Option.map_some, Option.some.injEq] at hobject
  simp only [Prod.mk.injEq, decide_eq_true_eq] at hs hobject
  exact ⟨s, hrun, hs.1, hs.2.1, hs.2.2, hobject.1, hobject.2.1, hobject.2.2⟩

end LogLake.Expiry
