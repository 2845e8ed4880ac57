import LogLake.Lemmas.ForceWait

/-! # What an acknowledged write promises -/

namespace LogLake.Ingest

open Transition LaneState

variable {ρ : Type} {actions : List (LaneAction ρ)}

theorem accounts_run {maxEvents : Nat} {s : LaneState ρ}
    (hrun : run (laneStep maxEvents) init actions = some s) : s.Accounts := by
  refine invariant_run_of_step ?_ accounts_init hrun
  intro s₀ a s₁ hs hstep
  exact hs.step hstep

theorem tracked_run {maxEvents : Nat} {s : LaneState ρ}
    (hmeets : Meets (laneStep maxEvents) (ForceSafe maxEvents) init actions)
    (hrun : run (laneStep maxEvents) init actions = some s) : s.Tracked := by
  have hinv : s.Accounts ∧ s.Tracked := by
    refine invariant_run (I := fun s => s.Accounts ∧ s.Tracked) ?_ ⟨accounts_init, tracked_init⟩ hmeets hrun
    intro s₀ a s₁ hs hsafe hstep
    exact ⟨hs.1.step hstep, hs.2.step hs.1 hsafe hstep⟩
  exact hinv.2

/-- In every run, the rows of a `wait_for` or `force` request that is answered Ok are fsynced; and when no step splits the
rows of a `force` request over segments, quarantines a segment that is waited for, or releases one between the two looks at
it, the rows of a `force` request whose wait returned Ok are committed. -/
theorem answers_durable_and_waits_committed (maxEvents : Nat) (actions : List (LaneAction ρ)) (s : LaneState ρ)
    (hrun : run (laneStep maxEvents) init actions = some s) :
    s.AnswersDurable ∧
      (Meets (laneStep maxEvents) (ForceSafe maxEvents) init actions → s.WaitsCommitted) := by
  refine ⟨(accounts_run hrun).answered, ?_⟩
  intro hmeets w hw hphase
  have htracked := (tracked_run hmeets hrun).waiters w hw
  unfold Waiter.Tracked at htracked
  rw [hphase] at htracked
  exact htracked

instance decidableWaitsCommitted [DecidableEq ρ] (s : LaneState ρ) : Decidable s.WaitsCommitted := by
  unfold LaneState.WaitsCommitted Wal.Committed
  infer_instance

/-- The lane takes a `force` request and another one, and answers both. -/
def oneGroup (first second : WriteCommand ρ) : List (LaneAction ρ) :=
  [.send (.write first), .send (.write second), .receive 1, .append false, .append false, .reply]

def drained (i : Nat) : List (LaneAction ρ) := [.claim i, .commitIceberg i, .finish i]

def looks (waiter : Nat) : List (LaneAction ρ) := [.checkSealed waiter, .checkProcessing waiter]

/-- Two requests in one segment: the wait of the first returns Ok with its rows in the table. -/
theorem oneSegment_waits_committed :
    ∃ s, run (laneStep 10) init (oneGroup ⟨[1, 2], .force⟩ ⟨[3], .waitFor⟩ ++ drained 0 ++ looks 0) = some s ∧
      s.waiters.map Waiter.phase = [.ok] ∧ s.AnswersDurable ∧ s.WaitsCommitted := by
  obtain ⟨s, hs, hphases⟩ : ∃ s ∈ run (laneStep 10) init (oneGroup ⟨[1, 2], .force⟩ ⟨[3], .waitFor⟩ ++ drained 0 ++ looks 0),
      s.waiters.map Waiter.phase = [.ok] := by decide +kernel
  have h := answers_durable_and_waits_committed 10 _ s hs
  exact ⟨s, hs, hphases, h.1, h.2 (by decide +kernel)⟩

/-- The wait of a `force` request returns Ok although none of its rows is in the table: when its rows were rolled into an
earlier segment of the group than the one the receipt names, when the segment is quarantined, and when the segment is
released between the two looks. -/
theorem wait_returns_without_commit :
    (∃ s, run (laneStep 2) init (oneGroup ⟨[1, 2], .force⟩ ⟨[3], .auto⟩ ++ drained 1 ++ looks 0) = some s ∧
      s.waiters.map Waiter.phase = [.ok] ∧ ¬ s.WaitsCommitted) ∧
    (∃ s, run (laneStep 10) init (oneGroup ⟨[1, 2], .force⟩ ⟨[], .auto⟩ ++ [.quarantine .sealed 0] ++ looks 0) = some s ∧
      s.waiters.map Waiter.phase = [.ok] ∧ ¬ s.WaitsCommitted) ∧
    (∃ s, run (laneStep 10) init (oneGroup ⟨[1, 2], .force⟩ ⟨[], .auto⟩ ++
        [.claim 0, .checkSealed 0, .release 0, .checkProcessing 0]) = some s ∧
      s.waiters.map Waiter.phase = [.ok] ∧ ¬ s.WaitsCommitted) := by
  simp only [← Option.mem_def]
  decide +kernel

end LogLake.Ingest
