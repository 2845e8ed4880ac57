import LogLake.Lemmas.Cycle

/-! # Settling the claims of a cycle -/

namespace LogLake.Catalog

variable {β : Type}

/-- A cycle leaves no claim in processing, and marks exactly the segments of its commits, if and only if the reads of every
group are answered, up to a group where the cycle stops for another reason. -/
theorem cycle_disposes_iff {w : Outside β} {claimer : Text} {ledger : Ledger} {claimed : List ClaimedSegment}
    (hnodup : (claimed.map ClaimedSegment.id).Nodup)
    (hclaimed : ∀ c ∈ claimed, ∃ row, ledger.row c.id = some row ∧ row.ClaimedBy claimer) :
    (drainClaimed w claimer ledger claimed).Disposes claimed ↔ ReadsAnswered w (byGroup claimed) := by
  rcases drainClaimed_account (w := w) hnodup hclaimed rfl with
    ⟨hreads, s, hprogress, hcomplete, -, hledger, hcommits, -⟩ | ⟨hreads, hprogress, -, c, hc, hheld⟩
  · refine ⟨fun _ => hreads, fun _ c hc => ?_⟩
    obtain ⟨row, hrow, hclaimedBy⟩ := hclaimed c hc
    rw [hledger, hcommits, ← hprogress.commits]
    by_cases hcommitted : c.id ∈ s.committedIds
    · obtain ⟨t, hrow'⟩ := hprogress.row_markAll_of_committed w hcommitted hrow hclaimedBy
      exact ⟨_, hrow', by simp, fun _ => hcommitted, fun _ => rfl⟩
    · have hreleased : c.id ∈ s.releasedIds := (hcomplete c hc).resolve_right hcommitted
      obtain ⟨row', hrow', hreturned⟩ := hprogress.row_markAll_of_released w claimer hreleased hrow
      refine ⟨row', hrow', ?_⟩
      rcases hreturned.2.2.2 with hstatus | hstatus
      · simp [hstatus, hcommitted]
      · simp [hstatus, hcommitted]
  · refine ⟨fun h => ?_, fun h => absurd h hreads⟩
    obtain ⟨row, hrow, hclaimedBy⟩ := hclaimed c hc
    obtain ⟨row', hrow', hstatus, -⟩ := h c hc
    rw [hprogress.kept c.id hheld, hrow, Option.some.injEq] at hrow'
    rw [← hrow'] at hstatus
    exact absurd hclaimedBy.1 hstatus

def steadyOutside : Outside Nat where
  opensNamespace _ := true
  resolvesIndex _ _ := true
  claimsMirroredIndex _ _ := some .unidentified
  object _ := some ⟨none, some [1]⟩
  readsWatermark _ _ := some none
  readsTerminal _ _ := some []
  appends _ := true
  releasedAt _ := 1
  markedAt _ := 1

def threeIndexes : Ledger :=
  ["a".toList, "b".toList, "c".toList].foldl
    (fun ledger id => register id "default".toList id ("/".toList ++ id) 1 1 0 ledger) KeyedTable.empty

def threeClaimed : Ledger × List ClaimedSegment :=
  tryClaimSharded ⟨.postgres, 256, 0, 1⟩ "d".toList 0 (fun _ => 0) (fun _ => false) threeIndexes

theorem threeClaimed_claimedBy : ∀ c ∈ threeClaimed.2, ∃ row ∈ threeClaimed.1.row c.id, row.ClaimedBy "d".toList := by
  decide +kernel

/-- The commit of the second index fails: the first segment is marked, the other two are released. -/
theorem failed_commit_disposes :
    (drainClaimed { steadyOutside with appends := fun r => r.indexId ≠ "b".toList } "d".toList threeClaimed.1
      threeClaimed.2).Disposes threeClaimed.2 ∧ threeClaimed.2.length = 3 :=
  ⟨(cycle_disposes_iff (by decide +kernel) threeClaimed_claimedBy).mpr (by decide +kernel), by decide +kernel⟩

def threeStatuses (ledger : Ledger) : List (Option Status) :=
  ["a".toList, "b".toList, "c".toList].map fun id => (ledger.row id).map Row.status

/-- The watermark of the second index cannot be read: the cycle returns, all three segments stay in processing, and the
first of them is in its table. -/
theorem failed_read_strands_claims :
    let e := drainClaimed
      { steadyOutside with readsWatermark := fun _ index => if index = "b".toList then none else some none } "d".toList
      threeClaimed.1 threeClaimed.2
    threeStatuses e.state.ledger = [some .processing, some .processing, some .processing] ∧ e.result = none ∧
      e.state.commits.map (fun r => r.consumed.map ConsumedProofEntry.segmentId) = [["a.arrow".toList]] := by
  decide +kernel

end LogLake.Catalog
