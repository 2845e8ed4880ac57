import LogLake.Lemmas.Publish
import LogLake.Lib.Transition

/-! # Merging every publication once -/

namespace LogLake

open PublishState AppendHistory

open Transition (run Meets)

variable {G B T : Type} {m : CountMerges G B T} {h : AppendHistory} {delta : Nat → SideCounts G B T}

/-- A write that was sent: the object it was made from did not hold the append. -/
def Prepared (m : CountMerges G B T) (h : AppendHistory) (delta : Nat → SideCounts G B T)
    (object : Option (SnapshotAggregates (SideCounts G B T))) (write : Nat × SnapshotAggregates (SideCounts G B T)) : Prop :=
  write.1 < h.length ∧ ¬(object.getD .empty).Evidences (h.link write.1) ∧ ¬h.Enclosed (object.getD .empty) write.1 ∧
    write.2 = (PendingSideAggDeltas.ofCommit m (delta write.1) (h.link write.1)).applyTo m (object.getD .empty)

/-- The object holds the appends merged, each once, and the writes under way know what it holds. -/
structure MergedOnce (m : CountMerges G B T) (h : AppendHistory) (delta : Nat → SideCounts G B T)
    (initial : SideCounts G B T) (s : PublishState G B T) : Prop where
  nodup : s.merged.Nodup
  joined : ∃ k runs, Joined h s.merged k runs s.side
  counts : s.side.counts = s.merged.foldr (fun i acc => acc.apply m (delta i)) initial
  current : s.store.Current (Prepared m h delta)

theorem mergedOnce_start (counts : SideCounts G B T) :
    MergedOnce m h delta (start h.toAppends counts).side.counts (.start h.toAppends counts) where
  nodup := List.nodup_nil
  joined := by
    refine ⟨0, [], ⟨⟨?_, ?_, Nat.zero_le _, by simp, List.Perm.nil⟩, by simp⟩⟩
    · cases hroot : h.root <;>
        simp [side, start, ConditionalStore.init, Appends.edge, hroot, SnapshotAggregates.empty, Appends.start]
    · cases hroot : h.root <;>
        simp [side, start, ConditionalStore.init, hroot, SnapshotAggregates.empty, Appends.start]
  counts := rfl
  current := ConditionalStore.current_init _

namespace MergedOnce

variable {initial : SideCounts G B T} {s s' : PublishState G B T}

section

variable (hm : MergedOnce m h delta initial s)
include hm

theorem attempt {i : Nat} (hin : ¬h.Enclosed s.side i)
    (hstep : publishStep m h.toAppends delta s (.attempt i) = some s') : MergedOnce m h delta initial s' := by
  obtain ⟨⟨hi, -⟩, hstep⟩ := Option.ite_none_right_eq_some.mp hstep
  rw [mergeRound_ofCommit] at hstep
  by_cases hev : (s.store.object.getD .empty).Evidences (h.link i)
  · rw [if_pos hev] at hstep
    cases hstep
    exact { hm with }
  · rw [if_neg hev] at hstep
    cases hstep
    exact { hm with current := hm.current.send ⟨hi, hev, hin, rfl⟩ }

theorem land {pos : Nat}
    (hstep : publishStep m h.toAppends delta s (.land pos) = some s') : MergedOnce m h delta initial s' := by
  obtain ⟨⟨⟨i, body⟩, store⟩, hland, rfl⟩ := Option.map_eq_some_iff.mp hstep
  obtain ⟨⟨hi, hev, hin, hbody⟩, hobject, -, hcurrent⟩ := hm.current.land hland
  obtain ⟨k, runs, hj⟩ := hm.joined
  have hnew : i ∉ s.merged := by
    rw [hj.mem_added_iff hi]
    exact not_or.mpr ⟨hev, hin⟩
  dsimp only at hbody
  rw [PendingSideAggDeltas.applyTo_ofCommit] at hbody
  have hside : store.object.getD .empty = { s.side with counts := s.side.counts.apply m (delta i) }.addCoverageLink
      (h.link i) := by
    rw [hobject, hbody]
    rfl
  refine ⟨List.nodup_cons.mpr ⟨hnew, hm.nodup⟩, ?_, ?_, hcurrent⟩
  · obtain ⟨k', runs', hj'⟩ := (hj.withCounts (s.side.counts.apply m (delta i))).addCoverageLink hi hnew
    refine ⟨k', runs', ?_⟩
    rw [side, hside]
    exact hj'
  · rw [side, hside, SnapshotAggregates.addCoverageLink_counts, List.foldr_cons, ← hm.counts]

theorem step {a : PublishAction} (hok : ReadsInTime h.toAppends s a)
    (hstep : publishStep m h.toAppends delta s a = some s') : MergedOnce m h delta initial s' := by
  cases a with
  | attempt i => exact hm.attempt hok hstep
  | land pos => exact hm.land hstep
  | acknowledge i =>
    obtain ⟨-, rfl⟩ := Option.ite_some_none_eq_some.mp hstep
    exact { hm with }

end

end MergedOnce

/-- In every run in which no publication reads the object while its link is inside a pending run, no delta is merged twice,
the counts are those of the publications merged, and a link is evidenced if and only if its delta is merged, unless the link
is inside a pending run. -/
theorem publications_merged_once (m : CountMerges G B T) (h : AppendHistory) (delta : Nat → SideCounts G B T)
    (counts : SideCounts G B T) (actions : List PublishAction) (s : PublishState G B T)
    (hsafe : Meets (publishStep m h.toAppends delta) (ReadsInTime h.toAppends) (.start h.toAppends counts) actions)
    (hrun : run (publishStep m h.toAppends delta) (.start h.toAppends counts) actions = some s) :
    s.merged.Nodup ∧
      s.side.counts =
        s.merged.foldr (fun i acc => acc.apply m (delta i)) (start h.toAppends counts).side.counts ∧
      ∀ i < h.length, (s.side.Evidences (h.link i) ↔ i ∈ s.merged) ↔ ¬h.Enclosed s.side i := by
  have hm : MergedOnce m h delta (start h.toAppends counts).side.counts s :=
    Transition.invariant_run (fun _ _ _ hm hok hstep => hm.step hok hstep) (mergedOnce_start counts) hsafe hrun
  refine ⟨hm.nodup, hm.counts, ?_⟩
  intro i hi
  obtain ⟨k, runs, hj⟩ := hm.joined
  rw [hj.mem_added_iff hi]
  constructor
  · intro hiff hin
    exact hj.not_evidences_of_enclosed hm.nodup hi hin (hiff.mpr (.inr hin))
  · intro hin
    exact ⟨.inl, fun hor => hor.resolve_right hin⟩

def sums : CountMerges Nat Nat Nat := ⟨0, 0, 0, (· + ·), (· + ·), (· + ·)⟩

def oneRow (_ : Nat) : SideCounts Nat Nat Nat := ⟨some 1, none, none⟩

def answerLost : List PublishAction := [.attempt 1, .land 0, .acknowledge 1, .attempt 2, .land 1]

/-- The third append tries again before the fourth is published: it finds its link at the end of the run. -/
theorem retry_before_next_publication :
    ∃ s, run (publishStep sums (numbered 4).toAppends oneRow) (.start (numbered 4).toAppends .empty)
        (answerLost ++ [.attempt 2, .attempt 3, .land 2]) = some s ∧
      s.merged = [3, 2, 1] ∧ s.merged.Nodup := by
  have hrun : (run (publishStep sums (numbered 4).toAppends oneRow)
      (.start (numbered 4).toAppends .empty) (answerLost ++ [.attempt 2, .attempt 3, .land 2])).map
        merged = some [3, 2, 1] := by
    decide +kernel
  obtain ⟨s, hs, hmerged⟩ := Option.map_eq_some_iff.mp hrun
  exact ⟨s, hs, hmerged, (publications_merged_once sums (numbered 4) oneRow .empty _ s
    (by decide +kernel) hs).1⟩

/-- The fourth append is published first: the third, tried again, is not found in the run and is merged a second time. -/
theorem retry_after_next_publication :
    ∃ s, run (publishStep sums (numbered 4).toAppends oneRow) (.start (numbered 4).toAppends .empty)
        (answerLost ++ [.attempt 3, .land 2, .acknowledge 3, .attempt 2, .land 3]) = some s ∧
      s.merged = [2, 3, 2, 1] ∧ s.side.counts.groupCounts = some 4 := by
  have hrun : (run (publishStep sums (numbered 4).toAppends oneRow)
      (.start (numbered 4).toAppends .empty)
      (answerLost ++ [.attempt 3, .land 2, .acknowledge 3, .attempt 2, .land 3])).map
        (fun s => (s.merged, s.side.counts.groupCounts)) = some ([2, 3, 2, 1], some 4) := by
    decide +kernel
  obtain ⟨s, hs, hpair⟩ := Option.map_eq_some_iff.mp hrun
  exact ⟨s, hs, (Prod.mk.inj hpair).1, (Prod.mk.inj hpair).2⟩

end LogLake
