import LogLake.Lemmas.Jobs

/-! # What the replicas know of their jobs -/

namespace LogLake.Jobs

variable {ρ κ : Type} {cfg : Config ρ} {s s' : State ρ κ}

namespace State

def Computed (s : State ρ κ) (id : Nat) (result : ρ) : Prop := ∃ r, s.runs[id]? = some r ∧ r.verdict = some (.ok result)

/-- The owner of the row has no registration, or its heartbeat was older than the lease. -/
def OwnerGone (s : State ρ κ) (row : JobRow ρ κ) : Prop :=
  ∀ owner, row.owner = some owner → s.tables.owners.row owner = none ∨ owner ∈ s.lapsed

/-- The owner of every row of these jobs had a heartbeat older than the lease. -/
def Lapsed (s : State ρ κ) (ids : List Nat) : Prop :=
  ∀ id ∈ ids, id < s.runs.length ∧
    ∀ row, s.tables.jobs.row id = some row → ∀ owner, row.owner = some owner → owner ∈ s.lapsed

structure StatementKnows (s : State ρ κ) (statement : Statement ρ κ) : Prop where
  sound : statement.Sound s.Computed
  lapsed : ∀ ids, statement = .recover .ownerLeaseExpired ids → s.Lapsed ids

def RunKnows (s : State ρ κ) (id : Nat) (r : Run ρ) : Prop :=
  match r.phase with
  | .publishing stage => r.verdict = none ∧ s.tables.StageKnows id stage
  | .executing => r.verdict = none
  | .persisting _ _ stage => s.tables.StageKnows id stage
  | .refused outcome | .finished (.installed outcome) => s.tables.Says id outcome
  | .finished .deferred => r.process < s.processes.length ∧
      ∀ process, s.process? r.process = some process → s.tables.Resolved id ∨ id ∈ process.parked.map Prod.fst
  | .aborted => s.tables.Resolved id
  | _ => True

structure ProcessKnows (s : State ρ κ) (process : Process) : Prop where
  parked : ∀ entry ∈ process.parked, entry.1 < s.runs.length
  pass : ∀ pass, process.pass = some pass → (∀ entry ∈ pass.todo, entry.1 < s.runs.length) ∧
    ∀ entry ∈ pass.todo.head?, s.tables.StageKnows entry.1 pass.stage
  condemned : ∀ ids, (.ownerLeaseExpired, ids) ∈ process.condemned → s.Lapsed ids

/-- Every row belongs to a run, and one that succeeded has the result its run computed. -/
def RowsKnow (s : State ρ κ) : Prop :=
  ∀ id row, s.tables.jobs.row id = some row → id < s.runs.length ∧
    (row.status = .succeeded → ∃ result, row.result = some result ∧ s.Computed id result)

/-- An owner whose heartbeat is older than the lease is recorded. -/
def LapsedKnow (cfg : Config ρ) (s : State ρ κ) : Prop :=
  ∀ reg ∈ s.tables.owners.rows, cfg.policy.ownerLease < s.tables.now - reg.heartbeatAt → reg.id ∈ s.lapsed

structure Truthful (cfg : Config ρ) (s : State ρ κ) : Prop where
  rows : s.RowsKnow
  runs : ∀ id r, s.runs[id]? = some r → s.RunKnows id r
  processes : ∀ process ∈ s.processes, s.ProcessKnows process
  statements : ∀ statement ∈ s.inFlight, s.StatementKnows statement
  lapsed : s.LapsedKnow cfg

theorem truthful_init : Truthful cfg (.init : State ρ κ) := by
  refine ⟨fun id row hrow => ?_, fun id r hr => ?_, fun process hp => absurd hp List.not_mem_nil,
    fun statement hs => absurd hs List.not_mem_nil, fun reg hreg => absurd hreg List.not_mem_nil⟩
  · cases hrow
  · cases hr

/-! ## What a step lets advance -/

/-- A row of `s'` comes from the row of the same job in `s`, or it is the pending row of a new job; runs keep what they computed;
a parked job stays parked until it is resolved. -/
structure Advance (s s' : State ρ κ) : Prop where
  rows : ∀ id row', s'.tables.jobs.row id = some row' →
    (∃ row, s.tables.jobs.row id = some row ∧ RowAdvances s'.Computed s.OwnerGone row row') ∨
      s.runs.length ≤ id ∧ id < s'.runs.length ∧ row'.status = .pending
  length : s.runs.length ≤ s'.runs.length
  runs : ∀ (id : Nat) (r : Run ρ), s.runs[id]? = some r → ∃ r' : Run ρ, s'.runs[id]? = some r' ∧
    ∀ verdict, r.verdict = some verdict → r'.verdict = some verdict
  lapsed : s.lapsed ⊆ s'.lapsed
  count : s.processes.length ≤ s'.processes.length
  tracked : ∀ p process', s'.process? p = some process' → p < s.processes.length →
    ∃ process, s.process? p = some process ∧
      ∀ id ∈ process.parked.map Prod.fst, id ∈ process'.parked.map Prod.fst ∨ s'.tables.Resolved id

variable {id : Nat}

section

variable (h : Advance s s')
include h

theorem Advance.computed {result : ρ} (hc : s.Computed id result) : s'.Computed id result := by
  obtain ⟨r, hr, hverdict⟩ := hc
  obtain ⟨r', hr', hkeep⟩ := h.runs id r hr
  exact ⟨r', hr', hkeep _ hverdict⟩

section

variable (hid : id < s.runs.length)
include hid

theorem Advance.row {row' : JobRow ρ κ} (hrow' : s'.tables.jobs.row id = some row') :
    ∃ row, s.tables.jobs.row id = some row ∧ RowAdvances s'.Computed s.OwnerGone row row' := by
  rcases h.rows id row' hrow' with hold | ⟨hnew, _⟩
  · exact hold
  · omega

theorem Advance.resolved (hr : s.tables.Resolved id) : s'.tables.Resolved id := by
  intro row' hrow'
  obtain ⟨row, hrow, hstep⟩ := h.row hid hrow'
  have hterminal := hr row hrow
  rw [(hstep.terminal hterminal).1]
  exact hterminal

theorem Advance.reads {status : JobStatus}
    (hterminal : status.isTerminal = true) (hr : ∀ row, s.tables.jobs.row id = some row → row.status = status) :
    ∀ row', s'.tables.jobs.row id = some row' → row'.status = status := by
  intro row' hrow'
  obtain ⟨row, hrow, hstep⟩ := h.row hid hrow'
  have hstatus := hr row hrow
  rw [(hstep.terminal (hstatus ▸ hterminal)).1]
  exact hstatus

theorem Advance.says {outcome : CompletionOutcome} (hs : s.tables.Says id outcome) : s'.tables.Says id outcome := by
  cases outcome with
  | applied status | superseded status ownedByUs recovered => exact ⟨hs.1, h.reads hid hs.1 hs.2⟩
  | vanished =>
    change s'.tables.jobs.row id = none
    cases hrow' : s'.tables.jobs.row id with
    | none => rfl
    | some row' =>
      obtain ⟨row, hrow, _⟩ := h.row hid hrow'
      change s.tables.jobs.row id = none at hs
      rw [hrow] at hs
      cases hs

theorem Advance.stageKnows {stage : WriteStage} (hs : s.tables.StageKnows id stage) : s'.tables.StageKnows id stage := by
  cases stage with
  | send => trivial
  | reread => exact h.resolved hid hs
  | amend =>
    have htold : s.tables.Says id (.superseded .failed true true) := hs
    exact h.says hid htold

end

theorem Advance.lapsedRows {ids : List Nat} (hl : s.Lapsed ids) : s'.Lapsed ids := by
  intro id hid
  obtain ⟨hlength, howner⟩ := hl id hid
  refine ⟨Nat.lt_of_lt_of_le hlength h.length, fun row' hrow' owner hrowner => ?_⟩
  obtain ⟨row, hrow, hstep⟩ := h.row hlength hrow'
  exact h.lapsed (howner row hrow owner (hstep.owner ▸ hrowner))

theorem Advance.statementKnows {statement : Statement ρ κ} (hs : s.StatementKnows statement) :
    s'.StatementKnows statement := by
  refine ⟨?_, fun ids heq => h.lapsedRows (hs.lapsed ids heq)⟩
  have hsound := hs.sound
  cases statement with
  | succeed id result expiresAt => exact h.computed hsound
  | fail => exact hsound
  | setRunning | recordCost | cancel | recover | amend => trivial

theorem Advance.runKnows (hid : id < s.runs.length) {r : Run ρ} (hr : s.RunKnows id r) : s'.RunKnows id r := by
  unfold RunKnows at hr ⊢
  split
  · rename_i stage hphase
    rw [hphase] at hr
    exact ⟨hr.1, h.stageKnows hid hr.2⟩
  · rename_i hphase
    rw [hphase] at hr
    exact hr
  · rename_i attempt retried stage hphase
    rw [hphase] at hr
    exact h.stageKnows hid hr
  · rename_i outcome hphase
    rw [hphase] at hr
    exact h.says hid hr
  · rename_i outcome hphase
    rw [hphase] at hr
    exact h.says hid hr
  · rename_i hphase
    rw [hphase] at hr
    obtain ⟨hlt, htracked⟩ := hr
    refine ⟨Nat.lt_of_lt_of_le hlt h.count, fun process' hprocess' => ?_⟩
    obtain ⟨process, hprocess, hkeep⟩ := h.tracked r.process process' hprocess' hlt
    rcases htracked process hprocess with hresolved | hparked
    · exact .inl (h.resolved hid hresolved)
    · exact (hkeep id hparked).symm
  · rename_i hphase
    rw [hphase] at hr
    exact h.resolved hid hr
  · trivial

theorem Advance.processKnows {process : Process} (hp : s.ProcessKnows process) : s'.ProcessKnows process := by
  refine ⟨fun entry he => Nat.lt_of_lt_of_le (hp.parked entry he) h.length, fun pass hpass => ?_,
    fun ids hids => h.lapsedRows (hp.condemned ids hids)⟩
  obtain ⟨hlength, hstage⟩ := hp.pass pass hpass
  refine ⟨fun entry he => Nat.lt_of_lt_of_le (hlength entry he) h.length, fun entry he => ?_⟩
  exact h.stageKnows (hlength entry (List.mem_of_mem_head? he)) (hstage entry he)

theorem Advance.rowsKnow (hr : s.RowsKnow) : s'.RowsKnow := by
  intro id row' hrow'
  rcases h.rows id row' hrow' with ⟨row, hrow, hstep⟩ | ⟨_, hlt, hpending⟩
  · obtain ⟨hlt, hsucceeded⟩ := hr id row hrow
    refine ⟨Nat.lt_of_lt_of_le hlt h.length, fun hstatus => ?_⟩
    rcases hstep.succeeded hstatus with hbefore | ⟨result, hresult, hcomputed⟩
    · obtain ⟨result, hresult, hcomputed⟩ := hsucceeded hbefore
      refine ⟨result, ?_, h.computed hcomputed⟩
      rw [(hstep.terminal (by rw [hbefore]; rfl)).2, hresult]
    · exact ⟨result, hresult, KeyedTable.key_of_row hrow ▸ hcomputed⟩
  · refine ⟨hlt, fun hstatus => ?_⟩
    rw [hpending] at hstatus
    cases hstatus

end

/-- A step that lets the tables advance and keeps the invariant. -/
structure Progress (cfg : Config ρ) (s s' : State ρ κ) : Prop where
  advance : Advance s s'
  truthful : Truthful cfg s'

/-- What the tables only advance stays truthful. -/
theorem Truthful.advance (h : Truthful cfg s) (hadv : Advance s s')
    (hruns : ∀ (id : Nat) (r : Run ρ), s'.runs[id]? = some r → s.runs[id]? = some r ∨ s'.RunKnows id r)
    (hprocesses : ∀ process ∈ s'.processes, process ∈ s.processes ∨ s'.ProcessKnows process)
    (hstatements : ∀ statement ∈ s'.inFlight, statement ∈ s.inFlight ∨ s'.StatementKnows statement)
    (hlapsed : s'.LapsedKnow cfg) : Progress cfg s s' := by
  refine ⟨hadv, hadv.rowsKnow h.rows, fun id r hr => ?_, fun process hp => ?_, fun statement hs => ?_, hlapsed⟩
  · rcases hruns id r hr with hold | hnew
    · exact hadv.runKnows (List.getElem?_eq_some_iff.mp hold).1 (h.runs id r hold)
    · exact hnew
  · rcases hprocesses process hp with hold | hnew
    · exact hadv.processKnows (h.processes process hold)
    · exact hnew
  · rcases hstatements statement hs with hold | hnew
    · exact hadv.statementKnows (h.statements statement hold)
    · exact hnew

end State

end LogLake.Jobs
