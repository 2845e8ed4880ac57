import LogLake.Lemmas.JobSteps

/-! # A batch job ends once, and truthfully -/

namespace LogLake.Jobs

open Option List

open Transition (run)

variable {ρ κ : Type} {cfg : Config ρ} {s s' : State ρ κ}

namespace State

/-! ## Along a run -/

variable {as : List (Action ρ κ)}

theorem truthful_run (h : Truthful cfg s) (hrun : run (step cfg) s as = some s') : Truthful cfg s' :=
  Transition.invariant_run_of_step (I := Truthful cfg) (fun _ _ _ h hstep => (h.step hstep).truthful) h hrun

variable {id : Nat}

theorem row_run (h : Truthful cfg s) (hrun : run (step cfg) s as = some s')
    (hid : id < s.runs.length) {row' : JobRow ρ κ} (hrow' : s'.tables.jobs.row id = some row') :
    ∃ row, s.tables.jobs.row id = some row ∧
      (row.status.isTerminal = true → row'.status = row.status ∧ row'.result = row.result) := by
  induction as generalizing s with
  | nil =>
    cases hrun
    exact ⟨row', hrow', fun _ => ⟨rfl, rfl⟩⟩
  | cons a as ih =>
    obtain ⟨s₁, hstep, hrest⟩ := bind_eq_some_iff.mp hrun
    have hprogress := h.step hstep
    obtain ⟨row₁, hrow₁, hsame₁⟩ := ih hprogress.truthful hrest (Nat.lt_of_lt_of_le hid hprogress.advance.length)
    obtain ⟨row, hrow, hadvances⟩ := hprogress.advance.row hid hrow₁
    refine ⟨row, hrow, fun hterminal => ?_⟩
    obtain ⟨hstatus, hresult⟩ := hadvances.terminal hterminal
    obtain ⟨hstatus₁, hresult₁⟩ := hsame₁ (hstatus ▸ hterminal)
    exact ⟨hstatus₁.trans hstatus, hresult₁.trans hresult⟩

theorem resolved_run (h : Truthful cfg s) (hrun : run (step cfg) s as = some s')
    (hid : id < s.runs.length) (hresolved : s.tables.Resolved id) : s'.tables.Resolved id := by
  intro row' hrow'
  obtain ⟨row, hrow, hsame⟩ := row_run h hrun hid hrow'
  have hterminal := hresolved row hrow
  rw [(hsame hterminal).1]
  exact hterminal

/-! ## Reconciliation passes -/

def stagesLeft : WriteStage → Nat
  | .send => 2
  | .reread => 1
  | .amend => 0

variable {stage : WriteStage}

theorem answer_left {policy : JobRecoveryPolicy} {t : JobTables ρ κ} {owner : Nat} {amends : Bool}
    {write : Statement ρ κ × JobStatus} {next : WriteStage}
    (h : (t.answer policy owner id amends write stage).2 = .next next) : stagesLeft next < stagesLeft stage := by
  cases stage with
  | send =>
    simp only [JobTables.answer] at h
    split at h
    · cases h
    · cases h
      decide
  | reread =>
    simp only [JobTables.answer] at h
    split at h
    · cases h
    · split at h
      · cases h
        decide
      · cases h
  | amend => cases h

variable {process : Process}

section

variable (h : Truthful cfg s)
include h

variable {rest : List (Nat × JobStatus)} {p : Nat}

section

variable (hp : s.process? p = some process)
include hp

theorem passWrite_answered {job : Nat} {status : JobStatus}
    (hpass : process.pass = some ⟨(job, status) :: rest, stage⟩) (expiresAt : Nat) :
    ∃ s₁ process₁, step cfg s (.passWrite p true expiresAt) = some s₁ ∧ Truthful cfg s₁ ∧ s₁.runs.length = s.runs.length ∧
      s₁.tables.Resolved job ∧ s₁.process? p = some process₁ ∧ (process₁.pass = some ⟨rest, .send⟩ ∨
        ∃ next, process₁.pass = some ⟨(job, status) :: rest, next⟩ ∧ stagesLeft next < stagesLeft stage) := by
  obtain ⟨hprogress, hresolved⟩ := h.passWrite hp hpass true expiresAt
  obtain ⟨hget, halive⟩ := process?_eq_some.mp hp
  have hlt : p < s.processes.length := (List.getElem?_eq_some_iff.mp hget).1
  have hstep : step cfg s (.passWrite p true expiresAt) =
      some (s.passWrite cfg.policy p process job status rest stage true expiresAt) := by
    simp only [step, hp, bind_some, hpass]
  have hself : ∀ (tables : JobTables ρ κ) (next : Process), next.alive = true →
      ((s.setTables tables).setProcess p next).process? p = some next := by
    intro tables next hnext
    exact process?_eq_some.mpr ⟨List.getElem?_set_self hlt, hnext⟩
  cases hanswer : (s.tables.answer cfg.policy p job true (reconcileWrite job status expiresAt) stage).2 with
  | next stage' =>
    refine ⟨_, { process with pass := some ⟨(job, status) :: rest, stage'⟩ }, hstep, hprogress.truthful, rfl, hresolved rfl, ?_,
      .inr ⟨stage', rfl, answer_left hanswer⟩⟩
    simp only [State.passWrite, if_true, hanswer]
    exact hself _ _ halive
  | done outcome =>
    refine ⟨_, { process.settle job with pass := some ⟨rest, .send⟩ }, hstep, hprogress.truthful, rfl, hresolved rfl, ?_,
      .inl rfl⟩
    simp only [State.passWrite, if_true, hanswer]
    exact hself _ _ halive

theorem pass_over_job {job : Nat} {status : JobStatus}
    (hpass : process.pass = some ⟨(job, status) :: rest, stage⟩) (expiresAt : Nat) :
    ∃ n s₁ process₁, run (step cfg) s (List.replicate n (.passWrite p true expiresAt)) = some s₁ ∧ Truthful cfg s₁ ∧
      s₁.runs.length = s.runs.length ∧ s₁.tables.Resolved job ∧ s₁.process? p = some process₁ ∧
      process₁.pass = some ⟨rest, .send⟩ := by
  induction hleft : stagesLeft stage using Nat.strongRecOn generalizing s process stage with
  | ind left ih =>
    obtain ⟨s₁, process₁, hstep, htruthful, hlength, hresolved, hp₁, hnext | ⟨next, hnext, hless⟩⟩ :=
      passWrite_answered h hp hpass expiresAt
    · exact ⟨1, s₁, process₁, by simp [run, hstep], htruthful, hlength, hresolved, hp₁, hnext⟩
    · obtain ⟨n, s₂, process₂, hrun, htruthful₂, hlength₂, hresolved₂, hp₂, hpass₂⟩ :=
        ih (stagesLeft next) (hleft ▸ hless) htruthful hp₁ hnext rfl
      refine ⟨n + 1, s₂, process₂, ?_, htruthful₂, hlength₂.trans hlength, hresolved₂, hp₂, hpass₂⟩
      rw [replicate_succ, run, hstep, bind_some, hrun]

theorem pass_resolves {todo : List (Nat × JobStatus)} (hpass : process.pass = some ⟨todo, .send⟩) (expiresAt : Nat) :
    ∃ n s₁, run (step cfg) s (List.replicate n (.passWrite p true expiresAt)) = some s₁ ∧
      ∀ entry ∈ todo, s₁.tables.Resolved entry.1 := by
  induction todo generalizing s process with
  | nil => exact ⟨0, s, rfl, fun entry he => absurd he not_mem_nil⟩
  | cons entry rest ih =>
    obtain ⟨job, status⟩ := entry
    have hjob : job < s.runs.length :=
      ((ProcessKnows.ofProcess? h hp).pass _ hpass).1 (job, status) mem_cons_self
    obtain ⟨n, s₁, process₁, hrun₁, htruthful, hlength, hresolved, hp₁, hpass₁⟩ := pass_over_job h hp hpass expiresAt
    obtain ⟨m, s₂, hrun₂, hrest⟩ := ih htruthful hp₁ hpass₁
    refine ⟨n + m, s₂, ?_, fun entry he => ?_⟩
    · rw [replicate_add]
      exact Transition.run_append_eq_some.mpr ⟨s₁, hrun₁, hrun₂⟩
    · rcases mem_cons.mp he with rfl | hmem
      · exact resolved_run htruthful hrun₂ (hlength ▸ hjob) hresolved
      · exact hrest entry hmem

end

theorem Truthful.resolved_or_parked {r : Run ρ}
    (hr : s.runs[id]? = some r) (hended : r.phase.ended = true) (htracked : r.phase ≠ .finished .abandoned)
    (hp : s.process? r.process = some process) : s.tables.Resolved id ∨ id ∈ process.parked.map Prod.fst := by
  have hknows := h.runs id r hr
  unfold RunKnows at hknows
  cases hphase : r.phase with
  | unstarted | publishing | executing | persisting => rw [hphase] at hended; cases hended
  | refused outcome =>
    rw [hphase] at hknows
    exact .inl (JobTables.Says.resolved hknows)
  | aborted =>
    rw [hphase] at hknows
    exact .inl hknows
  | finished persisted =>
    cases persisted with
    | installed outcome =>
      rw [hphase] at hknows
      exact .inl (JobTables.Says.resolved hknows)
    | deferred =>
      rw [hphase] at hknows
      exact hknows.2 process hp
    | abandoned => exact absurd hphase htracked

theorem Truthful.reported {r : Run ρ} {outcome : CompletionOutcome}
    (hr : s.runs[id]? = some r) (hreported : r.phase.reported = some outcome) : s.tables.Says id outcome := by
  have hknows := h.runs id r hr
  unfold RunKnows at hknows
  unfold RunPhase.reported at hreported
  split at hreported
  · rename_i hphase
    cases hreported
    rw [hphase] at hknows
    exact hknows
  · rename_i hphase
    cases hreported
    rw [hphase] at hknows
    exact hknows
  · cases hreported

end

end State

/-! ## The claim of a batch job's life -/

/-- For every interleaving: (1) a terminal row keeps its status and its result for as long as it exists; (2) a row that reads
succeeded stores the result its run computed; (3) the outcome reported for a run is the terminal status the row has for as long
as it exists, or that it is gone; (4) no step marks as recovered a row whose owner is registered and whose heartbeat was never
older than the lease; (5) the job of a run that is over on a live replica, and was not refused tracking, is resolved or parked,
(6) an answered stage of a reconciliation pass resolves its job, and (7) a pass that is answered resolves all parked jobs. -/
theorem job_ends_once_truthfully (cfg : Config ρ) {as bs : List (Action ρ κ)} {s s' : State ρ κ}
    (hrun : run (step cfg) .init as = some s) (hlater : run (step cfg) s bs = some s') :
    (∀ id row row', s.tables.jobs.row id = some row → row.status.isTerminal = true → s'.tables.jobs.row id = some row' →
      row'.status = row.status ∧ row'.result = row.result) ∧
    (∀ id row, s.tables.jobs.row id = some row → row.status = .succeeded →
      ∃ result, row.result = some result ∧ s.Computed id result) ∧
    (∀ (id : Nat) (r : Run ρ) outcome, s.runs[id]? = some r → r.phase.reported = some outcome → s.tables.Says id outcome) ∧
    (∀ a s₁, step cfg s a = some s₁ → ∀ id row row₁ owner, s.tables.jobs.row id = some row → row.owner = some owner →
      s.tables.owners.row owner ≠ none → owner ∉ s.lapsed → s₁.tables.jobs.row id = some row₁ →
      row₁.recovered = row.recovered) ∧
    (∀ (id : Nat) (r : Run ρ) process, s.runs[id]? = some r → r.phase.ended = true → r.phase ≠ .finished .abandoned →
      s.process? r.process = some process → s.tables.Resolved id ∨ id ∈ process.parked.map Prod.fst) ∧
    (∀ p process job status rest stage expiresAt s₁, s.process? p = some process →
      process.pass = some ⟨(job, status) :: rest, stage⟩ → step cfg s (.passWrite p true expiresAt) = some s₁ →
      s₁.tables.Resolved job) ∧
    (∀ p process expiresAt, s.process? p = some process → process.pass = none →
      ∃ n s₁, run (step cfg) s (.passBegin p :: List.replicate n (.passWrite p true expiresAt)) = some s₁ ∧
        ∀ entry ∈ process.parked, s₁.tables.Resolved entry.1) := by
  have h : State.Truthful cfg s := State.truthful_run State.truthful_init hrun
  refine ⟨fun id row row' hrow hterminal hrow' => ?_, fun id row hrow hstatus => (h.rows id row hrow).2 hstatus,
    fun id r outcome hr hreported => h.reported hr hreported, fun a s₁ hstep id row row₁ owner hrow howner hreg hlease hrow₁ => ?_,
    fun id r process hr hended htracked hp => h.resolved_or_parked hr hended htracked hp,
    fun p process job status rest stage expiresAt s₁ hp hpass hstep => ?_, fun p process expiresAt hp hpass => ?_⟩
  · obtain ⟨start, hstart, hsame⟩ := State.row_run h hlater (h.rows id row hrow).1 hrow'
    rw [hrow, some.injEq] at hstart
    subst hstart
    exact hsame hterminal
  · obtain ⟨start, hstart, hadvances⟩ := (h.step hstep).advance.row (h.rows id row hrow).1 hrow₁
    rw [hrow, some.injEq] at hstart
    subst hstart
    rcases hadvances.recovered with hsame | hgone
    · exact hsame
    · rcases hgone owner howner with hnone | hlapsed
      · exact absurd hnone hreg
      · exact absurd hlapsed hlease
  · obtain ⟨s₂, _, hstep₂, _, _, hresolved, _⟩ := State.passWrite_answered h hp hpass expiresAt
    rw [hstep, some.injEq] at hstep₂
    rw [hstep₂]
    exact hresolved
  · have hbegin : step cfg s (.passBegin p) =
        some (s.setProcess p { process with pass := some ⟨process.parked, .send⟩ }) := by
      simp only [step, hp, bind_some, if_pos hpass]
    obtain ⟨hget, halive⟩ := State.process?_eq_some.mp hp
    have hself : (s.setProcess p { process with pass := some ⟨process.parked, .send⟩ }).process? p =
        some { process with pass := some ⟨process.parked, .send⟩ } :=
      State.process?_eq_some.mpr ⟨List.getElem?_set_self (List.getElem?_eq_some_iff.mp hget).1, halive⟩
    obtain ⟨n, s₁, hwrites, hresolved⟩ := State.pass_resolves (h.step hbegin).truthful hself rfl expiresAt
    exact ⟨n, s₁, by rw [run, hbegin, bind_some, hwrites], hresolved⟩

/-- The first success lands although its acknowledgement is lost, and the retry meets its own write; the verdict of the second
job is parked. A later cancellation leaves the first row as it is, and a pass resolves the second job. -/
theorem acknowledgement_lost_and_reconciled :
    ∃ (cfg : Config Nat) (as : List (Action Nat Unit)) (s s' : State Nat Unit) (row row' : JobRow Nat Unit) (process : Process),
      run (step cfg) .init as = some s ∧ run (step cfg) s [.cancel 0 true 0] = some s' ∧
      s.tables.jobs.row 0 = some row ∧ row.status = .succeeded ∧ row.result = some 7 ∧
      s'.tables.jobs.row 0 = some row' ∧ row'.status = .succeeded ∧ row'.result = some 7 ∧
      s.process? 0 = some process ∧ process.parked = [(1, .succeeded)] ∧ ¬ s.tables.Resolved 1 ∧
      ∃ n s₁, run (step cfg) s (.passBegin 0 :: List.replicate n (.passWrite 0 true 0)) = some s₁ ∧ s₁.tables.Resolved 1 := by
  let cfg : Config Nat := ⟨⟨30 * second, 3600 * second, 3600 * second⟩, fun _ => none⟩
  let as : List (Action Nat Unit) :=
    [.spawn, .submit 0 true, .publish 0 true, .compute 0 (.ok 7), .persist 0 false 0, .land 0, .persist 0 true 0,
      .persist 0 true 0, .submit 0 true, .publish 1 true, .compute 1 (.ok 8), .giveUp 1 0]
  have hrows : (run (step cfg) .init as).map (fun s =>
      ((s.tables.jobs.row 0).map fun row => (row.status, row.result), (s.tables.jobs.row 1).map JobRow.status)) =
      some (some (.succeeded, some 7), some .running) := by decide +kernel
  obtain ⟨s, hrun, hs⟩ := map_eq_some_iff.mp hrows
  simp only [Prod.mk.injEq, map_eq_some_iff] at hs
  obtain ⟨⟨row, hrow, hstatus, hresult⟩, open₁, hopen₁, hrunning⟩ := hs
  have hreplica : ((run (step cfg) .init as).bind fun s => s.process? 0).map (fun process => (process.parked, process.pass)) =
      some ([(1, .succeeded)], none) := by decide +kernel
  rw [hrun, bind_some] at hreplica
  obtain ⟨process, hp, hprocess⟩ := map_eq_some_iff.mp hreplica
  rw [Prod.mk.injEq] at hprocess
  obtain ⟨hparked, hpass⟩ := hprocess
  have hlater : ((run (step cfg) .init as).bind fun s => run (step cfg) s [.cancel 0 true 0]).map
      (fun s => (s.tables.jobs.row 0).isSome) = some true := by decide +kernel
  rw [hrun, bind_some] at hlater
  obtain ⟨s', hs', hsome⟩ := map_eq_some_iff.mp hlater
  obtain ⟨row', hrow'⟩ := isSome_iff_exists.mp hsome
  obtain ⟨hkept, _, _, _, _, _, hreconciles⟩ := job_ends_once_truthfully cfg hrun hs'
  obtain ⟨hstatus', hresult'⟩ := hkept 0 row row' hrow (by rw [hstatus]; rfl) hrow'
  obtain ⟨n, s₁, hrun₁, hresolved⟩ := hreconciles 0 process 0 hp hpass
  refine ⟨cfg, as, s, s', row, row', process, hrun, hs', hrow, hstatus, hresult, hrow', hstatus'.trans hstatus,
    hresult'.trans hresult, hp, hparked, fun hterminal => ?_, n, s₁, hrun₁, ?_⟩
  · have hclosed := hterminal open₁ hopen₁
    rw [hrunning] at hclosed
    cases hclosed
  · exact hresolved (1, .succeeded) (by rw [hparked]; exact mem_singleton_self _)

end LogLake.Jobs
