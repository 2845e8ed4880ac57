import LogLake.Jobs.Store
import LogLake.Lib.Transition

/-!
# Replicas that run batch jobs

A replica submits a job, publishes that it runs, executes it and installs its verdict with a bounded
number of attempts.
-/

namespace LogLake.Jobs

variable {ρ κ : Type}

/-! ## Conditional writes -/

/-- What a run computed: `BatchOutcome`. -/
inductive Verdict (ρ : Type) where
  | ok (result : ρ)
  | timeout
  | failed (error : Text)

def Verdict.status : Verdict ρ → JobStatus
  | .ok _ => .succeeded
  | .timeout => .timeout
  | .failed _ => .failed

/-- The policy and the inline cap on result bodies: `result_cap_breach`. -/
structure Config (ρ : Type) where
  policy : JobRecoveryPolicy
  capBreach : ρ → Option Text

/-- `finish_succeeded` and `finish_failed`: the statement a verdict is installed with, and the status it installs. -/
def Verdict.write (cfg : Config ρ) (id expiresAt : Nat) : Verdict ρ → Statement ρ κ × JobStatus
  | .ok result =>
    match cfg.capBreach result with
    | none => (.succeed id result expiresAt, .succeeded)
    | some reason => (.fail id .failed reason expiresAt, .failed)
  | .timeout => (.fail id .timeout "query exceeded the timeout".toList expiresAt, .timeout)
  | .failed error => (.fail id .failed error expiresAt, .failed)

inductive CompletionOutcome where
  | applied (status : JobStatus)
  | superseded (status : JobStatus) (ownedByUs recovered : Bool)
  | vanished
  deriving DecidableEq

/-- Where a conditional write is: about to be sent, re-reading the row after it matched none, or amending the error of a row that
recovery had failed. -/
inductive WriteStage where
  | send | reread | amend
  deriving DecidableEq

inductive WriteAnswer where
  | next (stage : WriteStage)
  | done (outcome : CompletionOutcome)
  deriving DecidableEq

/-- The database answers one stage of a conditional write of the job. -/
def JobTables.answer (policy : JobRecoveryPolicy) (t : JobTables ρ κ) (owner id : Nat) (amends : Bool)
    (write : Statement ρ κ × JobStatus) : WriteStage → JobTables ρ κ × WriteAnswer
  | .send =>
    if t.Affects policy write.1 then (t.apply policy write.1, .done (.applied write.2)) else (t, .next .reread)
  | .reread =>
    -- `lost_conditional_write`
    match t.jobs.row id with
    | none => (t, .done .vanished)
    | some row =>
      if amends = true ∧ row.status = .failed ∧ row.owner = some owner ∧ row.recovered.isSome = true then (t, .next .amend)
      else (t, .done (.superseded row.status (decide (row.owner = some owner)) row.recovered.isSome))
  | .amend => (t.apply policy (.amend id owner), .done (.superseded .failed true true))

/-- What is in flight when a stage is not answered. -/
def WriteStage.sent (owner id : Nat) (statement : Statement ρ κ) : WriteStage → List (Statement ρ κ)
  | .send => [statement]
  | .reread => []
  | .amend => [.amend id owner]

def foldAmbiguousAck (computed : JobStatus) (retriedAfterError : Bool) : CompletionOutcome → CompletionOutcome
  | .superseded status ownedByUs recovered =>
    if ownedByUs = true ∧ recovered = false ∧ retriedAfterError = true ∧ status = computed then .applied status
    else .superseded status ownedByUs recovered
  | outcome => outcome

/-! ## Runs and replicas -/

inductive TerminalPersisted where
  | installed (outcome : CompletionOutcome)
  | deferred
  | abandoned
  deriving DecidableEq

inductive RunPhase where
  /-- Nobody runs the job: its submission was not acknowledged, or an earlier build wrote the row. -/
  | unstarted
  /-- Publishing `running`. -/
  | publishing (stage : WriteStage)
  | executing
  | persisting (attempt : Nat) (retriedAfterError : Bool) (stage : WriteStage)
  | refused (outcome : CompletionOutcome)
  | finished (persisted : TerminalPersisted)
  | aborted
  deriving DecidableEq

/-- A run: the replica that executes it, what it computed and where it is. -/
structure Run (ρ : Type) where
  process : Nat
  verdict : Option (Verdict ρ)
  phase : RunPhase

/-- A reconciliation pass: the parked jobs it still has to go through, and where the write for the first one is. -/
structure Pass where
  todo : List (Nat × JobStatus)
  stage : WriteStage
  deriving DecidableEq

structure Process where
  alive : Bool
  /-- `FinishedUnpersisted`. -/
  parked : List (Nat × JobStatus)
  pass : Option Pass
  condemned : List (OrphanReason × List Nat)
  deriving DecidableEq

def maxFinishedUnpersisted : Nat := 1024

def terminalPersistAttempts : Nat := 3

def Process.park (process : Process) (id : Nat) (computed : JobStatus) : Process × TerminalPersisted :=
  if id ∉ process.parked.map Prod.fst ∧ maxFinishedUnpersisted ≤ process.parked.length then (process, .abandoned)
  else ({ process with parked := process.parked.filter (fun entry => entry.1 ≠ id) ++ [(id, computed)] }, .deferred)

def Process.settle (process : Process) (id : Nat) : Process :=
  { process with parked := process.parked.filter fun entry => entry.1 ≠ id }

/-- `reconciled_terminal`: a lost success is a failure, a lost timeout is itself. -/
def reconciledTerminal : JobStatus → JobStatus × Text
  | .succeeded => (.failed, ("this job finished but its result could not be stored (the job store was unavailable); " ++
      "the result was discarded, so resubmit the query").toList)
  | .timeout => (.timeout,
      "query exceeded the timeout (recorded by its executor after the job store became reachable again)".toList)
  | _ => (.failed, ("this job failed and its error could not be stored (the job store was unavailable); " ++
      "resubmit the query to see why").toList)

/-- The write of a reconciliation pass for a parked job. -/
def reconcileWrite (id : Nat) (computed : JobStatus) (expiresAt : Nat) : Statement ρ κ × JobStatus :=
  (.fail id (reconciledTerminal computed).1 (reconciledTerminal computed).2 expiresAt, (reconciledTerminal computed).1)

/-- The tables, the replicas, the runs, and the statements in flight. -/
structure State (ρ κ : Type) where
  tables : JobTables ρ κ
  processes : List Process
  runs : List (Run ρ)
  inFlight : List (Statement ρ κ)
  /-- The owners whose heartbeat was ever older than the lease. -/
  lapsed : List Nat

def State.init : State ρ κ := ⟨⟨.empty, .empty, 0⟩, [], [], [], []⟩

inductive Action (ρ κ : Type) where
  | tick (elapsed : Nat)
  | spawn
  | submit (process : Nat) (answered : Bool)
  /-- A build that predates execution ownership writes a row. -/
  | submitUnowned
  | publish (job : Nat) (answered : Bool)
  | publishTimeout (job : Nat)
  | recordCost (job : Nat) (cost : κ) (answered : Bool)
  | compute (job : Nat) (verdict : Verdict ρ)
  | persist (job : Nat) (answered : Bool) (expiresAt : Nat)
  | giveUp (job : Nat) (expiresAt : Nat)
  | cancel (job : Nat) (answered : Bool) (expiresAt : Nat)
  | abort (job : Nat) (expiresAt : Nat)
  | passBegin (process : Nat)
  | passWrite (process : Nat) (answered : Bool) (expiresAt : Nat)
  | passEnd (process : Nat)
  | recoverRead (process : Nat)
  | recoverApply (process : Nat) (group : Nat) (answered : Bool)
  /-- A heartbeat reaches the database, at times after its replica has gone. -/
  | heartbeat (process : Nat)
  | release (process : Nat)
  | prune
  | deleteExpired
  | exit (process : Nat)
  | land (statement : Nat)

namespace State

variable (s : State ρ κ)

def process? (p : Nat) : Option Process := s.processes[p]?.filter Process.alive

def run? (job : Nat) : Option (Run ρ) := s.runs[job]?.filter fun r => (s.process? r.process).isSome

def setRun (job : Nat) (r : Run ρ) : State ρ κ := { s with runs := s.runs.set job r }

def setProcess (p : Nat) (process : Process) : State ρ κ :=
  { s with processes := s.processes.set p process }

def setTables (tables : JobTables ρ κ) : State ρ κ := { s with tables := tables }

def send (statements : List (Statement ρ κ)) : State ρ κ :=
  { s with inFlight := s.inFlight ++ statements }

variable (policy : JobRecoveryPolicy) (s : State ρ κ)

/-- A statement whose answer nobody waits for: it runs, or it is in flight. -/
def issue (statement : Statement ρ κ) (answered : Bool) : State ρ κ :=
  if answered then s.setTables (s.tables.apply policy statement) else s.send [statement]

def submitted (owner : Option Nat) (r : Run ρ) : State ρ κ :=
  { s with tables := s.tables.insert s.runs.length owner, runs := s.runs ++ [r] }

/-- One stage of `publish_running`. -/
def publish (job : Nat) (r : Run ρ) (stage : WriteStage) (answered : Bool) : State ρ κ :=
  if answered then
    let answer := s.tables.answer policy r.process job false (.setRunning job, .running) stage
    (s.setTables answer.1).setRun job
      { r with
        phase := match answer.2 with
          | .next stage => .publishing stage
          | .done (.applied _) => .executing
          | .done outcome => .refused outcome }
  else (s.send (stage.sent r.process job (.setRunning job))).setRun job { r with phase := .executing }

def park (job : Nat) (r : Run ρ) (computed : JobStatus) : State ρ κ :=
  match s.processes[r.process]? with
  | none => s
  | some process =>
    (s.setProcess r.process (process.park job computed).1).setRun job
      { r with phase := .finished (process.park job computed).2 }

/-- One stage of an attempt of `persist_terminal_state`. -/
def persist (cfg : Config ρ) (s : State ρ κ) (job : Nat) (r : Run ρ) (verdict : Verdict ρ) (attempt : Nat) (retried : Bool)
    (stage : WriteStage) (answered : Bool) (expiresAt : Nat) : State ρ κ :=
  if answered then
    let answer := s.tables.answer cfg.policy r.process job true (verdict.write cfg job expiresAt) stage
    (s.setTables answer.1).setRun job
      { r with
        phase := match answer.2 with
          | .next stage => .persisting attempt retried stage
          | .done outcome => .finished (.installed (foldAmbiguousAck verdict.status retried outcome)) }
  else
    let s := s.send (stage.sent r.process job (verdict.write cfg job expiresAt).1)
    if attempt = terminalPersistAttempts then s.park job r verdict.status
    else s.setRun job { r with phase := .persisting (attempt + 1) true .send }

/-- One stage of the write for the first job a pass still has to go through. -/
def passWrite (p : Nat) (process : Process) (job : Nat) (computed : JobStatus)
    (rest : List (Nat × JobStatus)) (stage : WriteStage) (answered : Bool) (expiresAt : Nat) : State ρ κ :=
  if answered then
    let answer := s.tables.answer policy p job true (reconcileWrite job computed expiresAt) stage
    (s.setTables answer.1).setProcess p
      (match answer.2 with
      | .next stage => { process with pass := some ⟨(job, computed) :: rest, stage⟩ }
      | .done _ => { process.settle job with pass := some ⟨rest, .send⟩ })
  else
    (s.send (stage.sent p job (reconcileWrite job computed expiresAt).1)).setProcess p
      { process with pass := some ⟨rest, .send⟩ }

def dropped (cfg : Config ρ) (job : Nat) (r : Run ρ) (expiresAt : Nat) : List (Statement ρ κ) :=
  match r.phase, r.verdict with
  | .publishing stage, _ => stage.sent r.process job (.setRunning job)
  | .persisting _ _ stage, some verdict => stage.sent r.process job (verdict.write cfg job expiresAt).1
  | _, _ => []

end State

def RunPhase.underWay : RunPhase → Bool
  | .publishing _ | .executing | .persisting _ _ _ => true
  | _ => false

/-- The outcome the executor reports for a run; none while it is under way, and none for a verdict that no attempt installed. -/
def RunPhase.reported : RunPhase → Option CompletionOutcome
  | .refused outcome | .finished (.installed outcome) => some outcome
  | _ => none

def RunPhase.ended : RunPhase → Bool
  | .refused _ | .finished _ | .aborted => true
  | _ => false

/-- The three reasons a recovery pass goes through. -/
def orphanReasons : List OrphanReason := [.ownerLeaseExpired, .ownerUnregistered, .ownerlessBeyondGrace]

def step (cfg : Config ρ) (s : State ρ κ) : Action ρ κ → Option (State ρ κ)
  | .tick elapsed =>
    some { s with
      tables := { s.tables with now := s.tables.now + elapsed }
      lapsed := s.lapsed ++ (s.tables.owners.rows.filter fun reg =>
        cfg.policy.ownerLease < s.tables.now + elapsed - reg.heartbeatAt).map OwnerRow.id }
  | .spawn =>
    some { s with
      tables := s.tables.heartbeat s.processes.length
      processes := s.processes ++ [⟨true, [], none, []⟩] }
  | .submit process answered =>
    (s.process? process).map fun _ =>
      s.submitted (some process) ⟨process, none, if answered then .publishing .send else .unstarted⟩
  | .submitUnowned => some (s.submitted none ⟨0, none, .unstarted⟩)
  | .publish job answered =>
    (s.run? job).bind fun r =>
      match r.phase with
      | .publishing stage => some (s.publish cfg.policy job r stage answered)
      | _ => none
  | .publishTimeout job =>
    (s.run? job).bind fun r =>
      match r.phase with
      | .publishing stage =>
        some ((s.send (stage.sent r.process job (.setRunning job))).setRun job
          { r with verdict := some .timeout, phase := .persisting 1 false .send })
      | _ => none
  | .recordCost job cost answered =>
    (s.run? job).bind fun r =>
      if r.phase = .executing then some (s.issue cfg.policy (.recordCost job cost) answered) else none
  | .compute job verdict =>
    (s.run? job).bind fun r =>
      if r.phase = .executing then
        some (s.setRun job { r with verdict := some verdict, phase := .persisting 1 false .send })
      else none
  | .persist job answered expiresAt =>
    (s.run? job).bind fun r =>
      match r.phase, r.verdict with
      | .persisting attempt retried stage, some verdict =>
        some (s.persist cfg job r verdict attempt retried stage answered expiresAt)
      | _, _ => none
  | .giveUp job expiresAt =>
    (s.run? job).bind fun r =>
      match r.phase, r.verdict with
      | .persisting _ _ stage, some verdict =>
        some ((s.send (stage.sent r.process job (verdict.write cfg job expiresAt).1)).park job r verdict.status)
      | _, _ => none
  | .cancel job answered expiresAt => some (s.issue cfg.policy (.cancel job expiresAt) answered)
  | .abort job expiresAt =>
    (s.run? job).bind fun r =>
      if r.phase.underWay = true ∧ ∀ row ∈ s.tables.jobs.row job, row.status = .cancelled then
        some ((s.send (State.dropped cfg job r expiresAt)).setRun job { r with phase := .aborted })
      else none
  | .passBegin p =>
    (s.process? p).bind fun process =>
      if process.pass = none then some (s.setProcess p { process with pass := some ⟨process.parked, .send⟩ }) else none
  | .passWrite p answered expiresAt =>
    (s.process? p).bind fun process =>
      match process.pass with
      | some ⟨(job, computed) :: rest, stage⟩ =>
        some (s.passWrite cfg.policy p process job computed rest stage answered expiresAt)
      | _ => none
  | .passEnd p =>
    (s.process? p).bind fun process =>
      match process.pass with
      | some ⟨[], _⟩ => some (s.setProcess p { process with pass := none })
      | _ => none
  | .recoverRead p =>
    (s.process? p).map fun process =>
      s.setProcess p
        { process with condemned := orphanReasons.map fun reason => (reason, s.tables.condemned cfg.policy p reason) }
  | .recoverApply p group answered =>
    (s.process? p).bind fun process => process.condemned[group]?.map fun condemned =>
      (s.issue cfg.policy (.recover condemned.1 condemned.2) answered).setProcess p
        { process with condemned := if answered then process.condemned.eraseIdx group else [] }
  | .heartbeat p => if p < s.processes.length then some (s.setTables (s.tables.heartbeat p)) else none
  | .release p => if (s.process? p).isNone then some (s.setTables (s.tables.release p)) else none
  | .prune => some (s.setTables (s.tables.prune cfg.policy))
  | .deleteExpired => some (s.setTables s.tables.deleteExpired)
  | .exit p => (s.process? p).map fun process => s.setProcess p { process with alive := false }
  | .land i =>
    s.inFlight[i]?.map fun statement =>
      { s with tables := s.tables.apply cfg.policy statement, inFlight := s.inFlight.eraseIdx i }

end LogLake.Jobs
