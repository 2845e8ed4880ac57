import LogLake.Lib.KeyedTable
import LogLake.Text

/-!
# The shared table of batch jobs

Every query replica runs batch jobs and keeps their state in one table, beside a table of the
replicas that are alive.
-/

namespace LogLake.Jobs

inductive JobStatus where
  | pending | running | succeeded | failed | cancelled | timeout
  deriving DecidableEq

def JobStatus.isTerminal : JobStatus → Bool
  | .succeeded | .failed | .cancelled | .timeout => true
  | .pending | .running => false

/-- `OrphanReason`: the evidence that let recovery declare a row's executor gone. -/
inductive OrphanReason where
  | ownerLeaseExpired | ownerUnregistered | ownerlessBeyondGrace
  deriving DecidableEq

def OrphanReason.errorText : OrphanReason → Text
  | .ownerLeaseExpired => "batch executor gone: the replica running this job stopped heartbeating".toList
  | .ownerUnregistered => "batch executor gone: the replica running this job is no longer registered".toList
  | .ownerlessBeyondGrace =>
    "batch executor unknown: this job predates execution ownership and exceeded the ownerless grace period".toList

structure JobRecoveryPolicy where
  ownerLease : Nat
  ownerlessGrace : Nat
  ttl : Nat

def second : Nat := 1000000000

def asSecs (duration : Nat) : Nat := duration / second * second

/-- `owner_retention`: how long a dead owner's registration is kept. -/
def JobRecoveryPolicy.ownerRetention (policy : JobRecoveryPolicy) : Nat := max (policy.ownerLease * 20) (3600 * second)

structure JobRow (ρ κ : Type) where
  id : Nat
  status : JobStatus
  owner : Option Nat
  submittedAt : Nat
  startedAt : Option Nat
  endedAt : Option Nat
  cost : Option κ
  error : Option Text
  result : Option ρ
  expiresAt : Option Nat
  /-- `recovered_at` and `recovery_reason`. -/
  recovered : Option OrphanReason

/-- `status IN ('pending', 'running')`. -/
def JobRow.Open {ρ κ : Type} (row : JobRow ρ κ) : Prop := row.status.isTerminal = false

instance JobRow.decidableOpen {ρ κ : Type} (row : JobRow ρ κ) : Decidable row.Open :=
  inferInstanceAs (Decidable (row.status.isTerminal = false))

structure OwnerRow where
  id : Nat
  heartbeatAt : Nat

structure JobTables (ρ κ : Type) where
  jobs : KeyedTable (JobRow.id (ρ := ρ) (κ := κ))
  owners : KeyedTable OwnerRow.id
  now : Nat

inductive Statement (ρ κ : Type) where
  /-- `SET_RUNNING_SQL`. -/
  | setRunning (id : Nat)
  /-- `RECORD_COST_SQL`. -/
  | recordCost (id : Nat) (cost : κ)
  /-- The success write of `install_succeeded`. -/
  | succeed (id : Nat) (result : ρ) (expiresAt : Nat)
  /-- The failure or timeout write of `install_failed`. -/
  | fail (id : Nat) (status : JobStatus) (error : Text) (expiresAt : Nat)
  /-- The write of `cancel`. -/
  | cancel (id : Nat) (expiresAt : Nat)
  /-- The `recovery_sql` of a reason. -/
  | recover (reason : OrphanReason) (ids : List Nat)
  /-- `AMEND_RECOVERED_ERROR_SQL`. -/
  | amend (id : Nat) (owner : Nat)

def recoveredCompletionError : Text :=
  "a result for this job was computed after recovery declared its executor gone; it was discarded, so resubmit the query".toList

variable {ρ κ : Type} (policy : JobRecoveryPolicy) (t : JobTables ρ κ)

/-- The liveness guard in the WHERE clause of a recovery statement. -/
def JobTables.Orphaned (reason : OrphanReason) (row : JobRow ρ κ) : Prop :=
  match reason with
  | .ownerLeaseExpired => ∃ owner ∈ row.owner, ∃ reg ∈ t.owners.row owner, reg.heartbeatAt + asSecs policy.ownerLease < t.now
  | .ownerUnregistered => ∃ owner ∈ row.owner, t.owners.row owner = none
  | .ownerlessBeyondGrace => row.owner = none ∧ row.submittedAt + asSecs policy.ownerlessGrace < t.now

instance JobTables.decidableOrphaned (reason : OrphanReason)
    (row : JobRow ρ κ) : Decidable (t.Orphaned policy reason row) := by
  cases reason <;> (dsimp only [JobTables.Orphaned]; infer_instance)

variable (statement : Statement ρ κ) (row : JobRow ρ κ)

def JobTables.Hits : Prop :=
  match statement with
  | .setRunning id | .recordCost id _ | .succeed id _ _ | .fail id _ _ _ | .cancel id _ => row.id = id ∧ row.Open
  | .recover reason ids => row.id ∈ ids ∧ row.Open ∧ t.Orphaned policy reason row
  | .amend id owner => row.id = id ∧ row.owner = some owner ∧ row.status = .failed ∧ row.recovered.isSome = true ∧
      ∀ error ∈ row.error, containsText error recoveredCompletionError = false

instance JobTables.decidableHits : Decidable (t.Hits policy statement row) := by
  cases statement <;> (dsimp only [JobTables.Hits]; infer_instance)

def JobTables.set : JobRow ρ κ :=
  match statement with
  | .setRunning _ => { row with status := .running, startedAt := row.startedAt.or (some t.now) }
  | .recordCost _ cost => { row with cost := some cost }
  | .succeed _ result expiresAt =>
    { row with
      status := .succeeded
      endedAt := some t.now
      result := some result
      expiresAt := some expiresAt }
  | .fail _ status error expiresAt =>
    { row with
      status := status
      endedAt := some t.now
      error := some error
      expiresAt := some expiresAt }
  | .cancel _ expiresAt =>
    { row with
      status := .cancelled
      endedAt := some t.now
      error := row.error.or (some "cancelled by client".toList)
      expiresAt := some expiresAt }
  | .recover reason _ =>
    { row with
      status := .failed
      endedAt := some t.now
      error := row.error.or (some reason.errorText)
      expiresAt := some (t.now + asSecs policy.ttl)
      recovered := some reason }
  | .amend _ _ =>
    { row with error := some ((row.error.map (· ++ " | ".toList)).getD [] ++ recoveredCompletionError) }

theorem JobTables.set_id : (t.set policy statement row).id = row.id := by
  cases statement <;> rfl

def JobTables.apply : JobTables ρ κ :=
  { t with jobs := t.jobs.update (t.Hits policy statement) (t.set policy statement) (t.set_id policy statement) }

/-- `rows_affected() > 0`. -/
def JobTables.Affects : Prop :=
  ∃ row ∈ t.jobs.rows, t.Hits policy statement row

instance JobTables.decidableAffects : Decidable (t.Affects policy statement) :=
  inferInstanceAs (Decidable (∃ row ∈ t.jobs.rows, t.Hits policy statement row))

/-- The INSERT of `submit`. -/
def JobTables.insert (id : Nat) (owner : Option Nat) : JobTables ρ κ :=
  { t with jobs := t.jobs.insertNew ⟨id, .pending, owner, t.now, none, none, none, none, none, none, none⟩ }

/-- `GC_EXPIRED_SQL`. -/
def JobTables.deleteExpired : JobTables ρ κ :=
  { t with jobs := t.jobs.retain fun row => ¬ ∃ expiresAt ∈ row.expiresAt, expiresAt < t.now }

/-- `OWNER_HEARTBEAT_SQL`. -/
def JobTables.heartbeat (owner : Nat) : JobTables ρ κ :=
  { t with
    owners := (t.owners.update (fun reg => reg.id = owner) (fun reg => { reg with heartbeatAt := t.now })
      (fun _ => rfl)).insertNew ⟨owner, t.now⟩ }

/-- `RELEASE_OWNER_SQL`. -/
def JobTables.release (owner : Nat) : JobTables ρ κ :=
  { t with owners := t.owners.retain fun reg => reg.id ≠ owner }

/-- `PRUNE_DEAD_OWNERS_SQL`. -/
def JobTables.prune : JobTables ρ κ :=
  { t with
    owners := t.owners.retain fun reg => ¬ (reg.heartbeatAt + asSecs policy.ownerRetention < t.now ∧
      ¬ ∃ row ∈ t.jobs.rows, row.owner = some reg.id ∧ row.Open) }

/-! ## The recovery decision -/

inductive RecoveryDecision where
  | selfOwned | ownerAlive | ownerlessWithinGrace
  | recover (reason : OrphanReason)
  deriving DecidableEq

def recoveryDecision (self : Nat) (row : JobRow ρ κ) : RecoveryDecision :=
  match row.owner with
  | some owner =>
    -- never our own work, whatever the heartbeat says
    if owner = self then .selfOwned
    else
      match t.owners.row owner with
      | none => .recover .ownerUnregistered
      | some reg => if policy.ownerLease < t.now - reg.heartbeatAt then .recover .ownerLeaseExpired else .ownerAlive
  | none => if policy.ownerlessGrace < t.now - row.submittedAt then .recover .ownerlessBeyondGrace else .ownerlessWithinGrace

/-- The open rows a recovery pass condemns for a reason. -/
def JobTables.condemned (self : Nat) (reason : OrphanReason) : List Nat :=
  (t.jobs.rows.filter fun row => row.Open ∧ recoveryDecision policy t self row = .recover reason).map JobRow.id

end LogLake.Jobs
