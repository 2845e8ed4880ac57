import LogLake.Lemmas.ExclusiveClaims

/-! # Draining every segment once -/

namespace LogLake.Catalog

open Transition (run Meets)

/-- In every run of drains and sweeps that meets the condition, no segment is in the table twice. -/
theorem segments_appended_once {tenant indexId : Text} {maxAge clock : Int} {ledger : Ledger} {actions : List DrainAction}
    {s : DrainState} (hsafe : Meets (drainStep tenant indexId maxAge) (ReclaimSafe maxAge) (.start clock ledger) actions)
    (hrun : run (drainStep tenant indexId maxAge) (.start clock ledger) actions = some s) :
    (s.appended.map ClaimedSegment.id).Nodup := by
  have h : Exclusive maxAge s :=
    Transition.invariant_run (fun _ _ _ h hsafe hstep => h.step hsafe hstep) (exclusive_start clock ledger) hsafe hrun
  exact h.nodup

def abandonedThenListed : List DrainAction :=
  [.register "r".toList "s".toList [] 1 1, .claim "d".toList ["s".toList], .tick 11, .read "a".toList, .read "b".toList,
    .list "a".toList 1024, .list "b".toList 1024, .prove "a".toList true, .prove "b".toList true]

/-- Another drain claims the segment and commits it in time. -/
def claimAndCommit (p : Text) : List DrainAction := [.read p, .claim p ["s".toList], .tick 1, .commit p ["s".toList]]

/-- The transaction that marks what a drain committed. -/
def marked (p : Text) : List DrainAction := [.mark p, .selectCandidate p, .readWatermark p, .commitMark p none]

/-- One sweep queues the segment again and a second drain commits it: it is in the table once. -/
theorem abandoned_segment_appended_once :
    ∃ s, run (drainStep [] [] 10) (.start 0 KeyedTable.empty)
        (abandonedThenListed ++ [.requeue "b".toList] ++ claimAndCommit "e".toList ++ marked "e".toList) = some s ∧
      s.appendedIds = ["s".toList] ∧ (s.appended.map ClaimedSegment.id).Nodup := by
  have hrun : (run (drainStep [] [] 10) (.start 0 KeyedTable.empty)
      (abandonedThenListed ++ [.requeue "b".toList] ++ claimAndCommit "e".toList ++ marked "e".toList)).map
        DrainState.appendedIds = some ["s".toList] := by
    decide +kernel
  obtain ⟨s, hs, hids⟩ := Option.map_eq_some_iff.mp hrun
  exact ⟨s, hs, hids, segments_appended_once (by decide +kernel) hs⟩

/-- The other sweep queues the segment again while the second drain holds it, after the drain committed it: a third drain
appends its rows again. And a sweep that cannot read the table queues a segment that a drain committed and did not mark.
In both runs every drain commits in time. -/
theorem requeued_segment_appended_twice :
    (∃ s, run (drainStep [] [] 10) (.start 0 KeyedTable.empty)
        (abandonedThenListed ++ [.requeue "b".toList] ++ claimAndCommit "e".toList ++ [.requeue "a".toList] ++
          claimAndCommit "f".toList) = some s ∧ s.appendedIds = ["s".toList, "s".toList]) ∧
    (∃ s, run (drainStep [] [] 10) (.start 0 KeyedTable.empty)
        ([.register "r".toList "s".toList [] 1 1] ++ claimAndCommit "d".toList ++
          [.tick 11, .read "a".toList, .list "a".toList 1024, .prove "a".toList false, .requeue "a".toList] ++
          claimAndCommit "e".toList) = some s ∧ s.appendedIds = ["s".toList, "s".toList]) := by
  constructor
  · apply Option.map_eq_some_iff.mp
    decide +kernel
  · apply Option.map_eq_some_iff.mp
    decide +kernel

end LogLake.Catalog
