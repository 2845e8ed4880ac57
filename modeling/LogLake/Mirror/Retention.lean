import LogLake.Mirror.Sync

/-!
# Retention of committed segments

Retention takes rows that were committed long enough ago, deletes their objects, and then purges the
rows whose objects are gone.
-/

namespace LogLake.Mirror

open Catalog (Ledger purgeableCommitted purgeCommitted register)

/-! ## The lease -/

/-- A row of `table_leases`; owners are told apart by their number. -/
structure Lease where
  holder : Nat
  expiresAt : Int
  deriving DecidableEq

/-- `acquire_table_lease`: the new row, or none when another holder's is in force. -/
def acquireTableLease (stored : Option Lease) (claimer : Nat) (now ttl : Int) : Option Lease :=
  match stored with
  | none => some ⟨claimer, now + ttl⟩
  | some row => if row.expiresAt < now ∨ row.holder = claimer then some ⟨claimer, now + ttl⟩ else none

def releaseTableLease (stored : Option Lease) (claimer : Nat) : Option Lease := stored.filter fun row => row.holder ≠ claimer

/-! ## One pass of retention -/

/-- The configuration of a pass, and how long a lease lasts. -/
structure MaintenanceConfig where
  sync : SyncConfig
  ttl : Int
  maxAge : Int
  objectBudget : Nat
  pageObjects : Nat

/-- Where `run_retention_bounded` is: at the head of its loop, with a page of rows whose objects are being deleted, with the ids of
the rows to be purged, or past its loop. -/
inductive RetentionPhase where
  | selecting (examined : Nat)
  | deleting (examined limit selected : Nat) (pending : List (Text × Text)) (deletable : List Text)
  | purging (examined limit selected : Nat) (ids : List Text)
  | finished
  deriving DecidableEq

/-- What became of the deletion of an object; one that is reported as failed may have taken effect. -/
inductive Deletion where
  | deleted | failed | failedAfter
  deriving DecidableEq

def Deletion.removes : Deletion → Bool
  | .failed => false
  | _ => true

/-- The steps of a pass, with whether a statement succeeds. -/
inductive RetentionAction where
  | select (ok : Bool)
  | delete (row : Text × Text) (result : Deletion)
  | collect
  | purge (ok : Bool)
  | fail

def purgeChunk : Nat := 256

def retentionStep (cfg : MaintenanceConfig) (now : Int) (w : SyncWorld) :
    RetentionPhase → RetentionAction → Option (SyncWorld × RetentionPhase)
  | .selecting examined, .select ok =>
    if examined < cfg.objectBudget ∧ ok then
      let limit := min (max cfg.pageObjects 1) (cfg.objectBudget - examined)
      let rows := purgeableCommitted now cfg.maxAge limit w.ledger
      if rows.isEmpty then some (w, .finished) else some (w, .deleting (examined + rows.length) limit rows.length rows [])
    else some (w, .finished)
  | .deleting examined limit selected pending deletable, .delete row result =>
    if row ∈ pending then
      some ({ w with mirror := if result.removes then w.mirror.erase row.2 else w.mirror },
        .deleting examined limit selected (pending.erase row)
          (if result = .deleted then row.1 :: deletable else deletable))
    else none
  | .deleting examined limit selected [] deletable, .collect =>
    some (w, if deletable.isEmpty then .finished else .purging examined limit selected deletable)
  | .purging examined limit selected ids, .purge ok =>
    if ok then
      let rest := ids.drop purgeChunk
      some ({ w with ledger := purgeCommitted (ids.take purgeChunk) w.ledger },
        if !rest.isEmpty then .purging examined limit selected rest
        else if selected < limit then .finished else .selecting examined)
    else some (w, .finished)
  | _, .fail => some (w, .finished)
  | _, _ => none

/-! ## Passes under the lease -/

inductive PassKind where
  | sync | retention
  deriving DecidableEq

/-- What an owner is doing in `with_mirror_reconciliation_lease`: nothing, one of the operations, or giving the lease back. -/
inductive Pass where
  | idle
  | sync (phase : SyncPhase)
  | retention (phase : RetentionPhase)
  | releasing
  deriving DecidableEq

def Pass.working : Pass → Bool
  | .sync _ => true
  | .retention _ => true
  | _ => false

def Pass.start : PassKind → Pass
  | .sync => .sync .idle
  | .retention => .retention (.selecting 0)

/-- The pass after a step of a reconciliation; it is over when the call is. -/
def Pass.afterSync : SyncPhase → Pass
  | .idle => .releasing
  | phase => .sync phase

def Pass.afterRetention : RetentionPhase → Pass
  | .finished => .releasing
  | phase => .retention phase

/-- The system: the time, the mirror and the catalog, the lease, the owners' passes; the ids and keys of the uploads so far, and the
segments whose row has been committed. -/
structure MaintenanceState where
  now : Int
  world : SyncWorld
  lease : Option Lease
  passes : List Pass
  uploaded : List (Text × Text)
  drained : List Text

/-- Time passes, an ingester uploads a segment (anew, when it finds no object of it) or registers one it uploaded, drains run
statements on the ledger; an owner asks for the lease, takes a step of its operation, renews, gives the lease back, or dies.
-/
inductive MaintenanceAction where
  | tick (elapsed : Nat)
  | upload (key : Text) (entry : MirrorEntry)
  | announce (object : MirrorSyncObject) (rows now : Int)
  | drain (statement : Ledger → Ledger)
  | acquire (owner : Nat) (kind : PassKind)
  | sync (owner : Nat) (action : SyncAction)
  | retention (owner : Nat) (action : RetentionAction)
  | renew (owner : Nat)
  | release (owner : Nat)
  | crash (owner : Nat)

/-- What the statements of drains leave as it is: which rows there are, their objects, and that a committed row is committed. -/
def Drains (before after : Ledger) : Prop :=
  (∀ row ∈ before.rows, (after.row row.id).isSome) ∧
    ∀ row ∈ after.rows, ∃ old ∈ before.rows, old.id = row.id ∧ old.segmentUrl = row.segmentUrl ∧
      (old.status = .committed → row.status = .committed)

instance decidableDrains (before after : Ledger) : Decidable (Drains before after) :=
  inferInstanceAs (Decidable ((∀ row ∈ before.rows, (after.row row.id).isSome) ∧
    ∀ row ∈ after.rows, ∃ old ∈ before.rows, old.id = row.id ∧ old.segmentUrl = row.segmentUrl ∧
      (old.status = .committed → row.status = .committed)))

/-- The segments with a committed row. -/
def committedIds (ledger : Ledger) : List Text := (ledger.rows.filter fun row => row.status = .committed).map Catalog.Row.id

def maintenanceStep (cfg : MaintenanceConfig) (s : MaintenanceState) : MaintenanceAction → Option MaintenanceState
  | .tick elapsed => some { s with now := s.now + elapsed }
  | .upload key entry =>
    (cfg.sync.object? (key, entry)).bind fun o =>
      if cfg.sync.under key ∧ o.url = key then
        some { s with world.mirror := s.world.mirror.upsert key fun _ => entry, uploaded := (o.id, key) :: s.uploaded }
      else none
  | .announce o rows now =>
    if (o.id, o.url) ∈ s.uploaded then
      some { s with world.ledger := register o.id o.tenant o.indexId o.url o.bytes.toInt rows now s.world.ledger }
    else none
  | .drain statement =>
    if Drains s.world.ledger (statement s.world.ledger) then
      some { s with
        world.ledger := statement s.world.ledger
        drained := committedIds (statement s.world.ledger) ++ s.drained }
    else none
  | .acquire owner kind =>
    if s.passes[owner]? = some .idle then
      (acquireTableLease s.lease owner s.now cfg.ttl).map fun lease =>
        { s with lease := some lease, passes := s.passes.set owner (.start kind) }
    else none
  | .sync owner action =>
    (s.passes[owner]?).bind fun pass =>
      match pass with
      | .sync phase => (syncStep cfg.sync s.world phase action).map fun out =>
        { s with world := out.world, passes := s.passes.set owner (.afterSync out.phase) }
      | _ => none
  | .retention owner action =>
    (s.passes[owner]?).bind fun pass =>
      match pass with
      | .retention phase => (retentionStep cfg s.now s.world phase action).map fun out =>
        { s with world := out.1, passes := s.passes.set owner (.afterRetention out.2) }
      | _ => none
  | .renew owner =>
    if (s.passes[owner]?).any Pass.working then
      match acquireTableLease s.lease owner s.now cfg.ttl with
      | some lease => some { s with lease := some lease }
      | none => some { s with passes := s.passes.set owner .releasing }
    else none
  | .release owner =>
    if s.passes[owner]? = some .releasing then
      some { s with lease := releaseTableLease s.lease owner, passes := s.passes.set owner .idle }
    else none
  | .crash owner => some { s with passes := s.passes.set owner .idle }

def MaintenanceState.init (owners : Nat) : MaintenanceState :=
  ⟨0, ⟨.empty, KeyedTable.empty, none⟩, none, List.replicate owners .idle, [], []⟩

/-- No pass outlives its lease: an owner gets the lease only when no other owner's operation is in progress. And the
ingesters' local copies do not outlive retention: a segment has one key, is not uploaded again once it is drained, and not
registered again once its row is purged. -/
def Undisturbed (cfg : MaintenanceConfig) (s : MaintenanceState) : MaintenanceAction → Prop
  | .acquire owner _ => ∀ e ∈ s.passes.zipIdx, e.2 ≠ owner → e.1.working = false
  | .upload key entry =>
    ∀ o ∈ cfg.sync.object? (key, entry), o.id ∉ s.drained ∧ ∀ e ∈ s.uploaded, e.1 = o.id → e.2 = key
  | .announce o _ _ => o.id ∈ s.drained → (s.world.ledger.row o.id).isSome
  | _ => True

instance decidableUndisturbed (cfg : MaintenanceConfig) (s : MaintenanceState) : ∀ a, Decidable (Undisturbed cfg s a)
  | .acquire owner _ => inferInstanceAs (Decidable (∀ e ∈ s.passes.zipIdx, e.2 ≠ owner → e.1.working = false))
  | .upload key entry => inferInstanceAs (Decidable
    (∀ o ∈ cfg.sync.object? (key, entry), o.id ∉ s.drained ∧ ∀ e ∈ s.uploaded, e.1 = o.id → e.2 = key))
  | .announce o _ _ => inferInstanceAs (Decidable (o.id ∈ s.drained → (s.world.ledger.row o.id).isSome))
  | .tick _ | .drain _ | .sync _ _ | .retention _ _ | .renew _ | .release _ | .crash _ => isTrue trivial

end LogLake.Mirror
