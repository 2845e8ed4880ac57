import LogLake.Lemmas.ProofEvidence

/-! # Compacting the consumed proof -/

namespace LogLake.Catalog

open Transition (run Meets)

/-- In every run of drains, sweeps and maintenance on one table whose claims meet the condition, a segment in the table
whose row is not committed has an entry in the proof, and every segment with a time at or below the watermark is
committed. -/
theorem needed_evidence_kept {tenant indexId : Text} {maxAge clock : Int} {ledger : Ledger} {actions : List DrainAction}
    {s : DrainState} (hsafe : Meets (drainStep tenant indexId maxAge) (ClaimSafe tenant indexId) (.start clock ledger) actions)
    (hrun : run (drainStep tenant indexId maxAge) (.start clock ledger) actions = some s) :
    s.KeepsEvidence ∧ s.BoundaryTerminal := by
  have h : Evidence tenant indexId s :=
    Transition.invariant_run (fun _ _ _ h hsafe hstep => h.step hsafe hstep) (evidence_start clock ledger) hsafe hrun
  constructor
  · intro claim hclaim hterminal
    exact (h.proven claim hclaim).resolve_left hterminal
  · intro claim hclaim w hw hle
    rcases (h.appended claim hclaim).terminal_or_lt h.published with hterminal | hlt
    · exact hterminal
    · exact absurd (hlt _ (h.watermark w hw)) (not_lt.mpr hle)

/-- The transaction that marks what a drain committed, with what others do between its candidate and its COMMIT. -/
def marking (p : Text) (between : List DrainAction) : List DrainAction :=
  [.mark p, .selectCandidate p] ++ between ++ [.readWatermark p, .commitMark p none]

/-- A segment `s` is registered and claimed while a segment `x` is drained and marked; then maintenance takes the
boundary. -/
def overlappingDrains (readFirst readLast : List DrainAction) : List DrainAction :=
  [.tick 1, .read "r".toList, .register "r".toList "x".toList [] 1 1, .tick 1, .read "e".toList,
    .claim "e".toList ["x".toList], .tick 2] ++ readFirst ++
  [.tick 1, .read "r".toList, .register "r".toList "s".toList [] 1 1] ++ readLast ++
  [.claim "d".toList ["s".toList], .commit "e".toList ["x".toList]] ++ marking "e".toList [] ++
  [.commit "d".toList ["s".toList], .readBoundary "m".toList none, .compact "m".toList]

/-- What the table, the ledger and the proof say about a segment, and the watermark. -/
structure Verdict where
  appended : Bool
  status : Option Status
  proven : Option Bool
  watermark : Option Int
  deriving DecidableEq

def verdict (s : DrainState) (id : Text) : Verdict where
  appended := s.appended.any fun claim => claim.id = id
  status := (s.ledger.row id).map Row.status
  proven := s.proof.map fun proof => proof.contains (basename id)
  watermark := s.watermark.map ConsumedProofWatermark.acknowledgedThrough

/-- The clock is read after the registration: the entry of `s` stays, that of `x` goes. -/
theorem overlappingDrains_evidence_kept :
    ∃ s, run (drainStep [] [] 10) (.start 0 KeyedTable.empty) (overlappingDrains [] [.tick 1, .read "d".toList]) = some s ∧
      verdict s "s".toList = ⟨true, some .processing, some true, some 4⟩ ∧
      verdict s "x".toList = ⟨true, some .committed, some false, some 4⟩ ∧ s.KeepsEvidence ∧ s.BoundaryTerminal := by
  have hrun : (run (drainStep [] [] 10) (.start 0 KeyedTable.empty)
      (overlappingDrains [] [.tick 1, .read "d".toList])).map (fun s => (verdict s "s".toList, verdict s "x".toList)) =
        some (⟨true, some .processing, some true, some 4⟩, ⟨true, some .committed, some false, some 4⟩) := by
    decide +kernel
  obtain ⟨s, hs, hverdict⟩ := Option.map_eq_some_iff.mp hrun
  rw [Prod.mk.injEq] at hverdict
  exact ⟨s, hs, hverdict.1, hverdict.2, needed_evidence_kept (by decide +kernel) hs⟩

/-- While the clock does not move, `x` is drained and marked and `s` is drained, within the marking transaction or after
it; then maintenance takes the boundary. -/
def sameInstant (within after : List DrainAction) : List DrainAction :=
  [.register "r".toList "x".toList [] 1 1, .claim "e".toList ["x".toList], .commit "e".toList ["x".toList]] ++
  marking "e".toList within ++ after ++ [.readBoundary "m".toList none, .compact "m".toList]

/-- Another drain takes `s`, which was just registered. -/
def drainsAnother : List DrainAction :=
  [.register "r".toList "s".toList [] 1 1, .read "d".toList, .claim "d".toList ["s".toList], .commit "d".toList ["s".toList]]

/-- The drain that claims `s` reads the clock, and only then is `s` registered: its claim lies below the boundary that its
registration allows. And when the clock does not move, the claim of `s` is at the boundary that `x` left behind, which was
written before it or only selected. In the three runs the rows of `s` are in the table, its row of the ledger is not
committed, and its entry is gone. -/
theorem early_reading_loses_evidence :
    (∃ s, run (drainStep [] [] 10) (.start 0 KeyedTable.empty) (overlappingDrains [.read "d".toList] []) = some s ∧
      verdict s "s".toList = ⟨true, some .processing, some false, some 4⟩) ∧
    (∃ s, run (drainStep [] [] 10) (.start 10 KeyedTable.empty) (sameInstant [] drainsAnother) = some s ∧
      verdict s "s".toList = ⟨true, some .processing, some false, some 10⟩) ∧
    (∃ s, run (drainStep [] [] 10) (.start 10 KeyedTable.empty) (sameInstant drainsAnother []) = some s ∧
      verdict s "s".toList = ⟨true, some .processing, some false, some 10⟩) := by
  refine ⟨?_, ?_, ?_⟩ <;> apply Option.map_eq_some_iff.mp
  · decide +kernel
  · decide +kernel
  · decide +kernel

end LogLake.Catalog
