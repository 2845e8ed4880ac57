import LogLake.Catalog.Proof
import LogLake.Catalog.Shards
import LogLake.Lib.Ordered

/-!
# One cycle of the catalog drain

A cycle claims rows, groups them by tenant and index, and takes one group after the other: open the
namespace, resolve the index, check who owns the mirrored objects, fetch them, read the watermark
and the terminal entries, commit.
-/

namespace LogLake.Catalog

inductive WalOwner where
  | unmarked
  | owned
  | stale (uuid : Text)

/-- `classify_segment_owner_bytes`, on the owner that the header names. -/
def classifySegmentOwner (header : Option Text) (expected : Text) : WalOwner :=
  match header with
  | none => .unmarked
  | some owner => if owner = expected then .owned else .stale owner

inductive WalDirClaim where
  | owned (uuid : Text)
  | ownedStrict (uuid : Text)
  | unidentified
  | refused

/-- A mirrored object: the owner its header names, and its batches when it can be decoded. -/
structure MirrorObject (β : Type) where
  header : Option Text
  batches : Option (List β)

inductive Refusal where
  | staleHeader | unstamped
  deriving DecidableEq

inductive SegmentFetch (β : Type) where
  | ready (batches : List β)
  | refused (reason : Refusal)

/-- Whether an object can be placed in the table of the group. -/
def refusal (header : Option Text) (owner : Option Text) (strict : Bool) : Option Refusal :=
  owner.bind fun uuid =>
    match classifySegmentOwner header uuid with
    | .stale _ => some .staleHeader
    | .unmarked => if strict then some .unstamped else none
    | .owned => none

/-- The fetch of one segment; `none` is an error. -/
def fetchSegment {β : Type} (object : Option (MirrorObject β)) (owner : Option Text) (strict : Bool) :
    Option (SegmentFetch β) :=
  object.bind fun body =>
    match refusal body.header owner strict with
    | some reason => some (.refused reason)
    | none => body.batches.map .ready

structure CommitRequest (β : Type) where
  tenant : Text
  indexId : Text
  batches : List β
  consumed : List ConsumedProofEntry
  acknowledgedThrough : Option Int
  terminal : List Text
  segments : Nat
  expectTableUuid : Option Text

/-- What the outside answers in one cycle, and the times of the statements. -/
structure Outside (β : Type) where
  /-- `for_namespace`. -/
  opensNamespace : Text → Bool
  /-- `ensure_index` and `get_index`. -/
  resolvesIndex : Text → Text → Bool
  /-- `claim_mirrored_index`; `none` is an error. -/
  claimsMirroredIndex : Text → Text → Option WalDirClaim
  /-- The object of a key; `none` is an error. -/
  object : Text → Option (MirrorObject β)
  /-- `consumed_proof_watermark`; the outer `none` is an error. -/
  readsWatermark : Text → Text → Option (Option ConsumedProofWatermark)
  /-- `terminal_consumed_proof_entries`; `none` is an error. -/
  readsTerminal : Text → Text → Option (List Text)
  appends : CommitRequest β → Bool
  releasedAt : Text → Int
  markedAt : Nat → Int

variable {β : Type}

/-- `commit_batches`: without batches there is nothing to append. -/
def Outside.commitBatches (w : Outside β) (request : CommitRequest β) : Bool := request.batches.isEmpty || w.appends request

structure ClaimGroup where
  tenant : Text
  indexId : Text
  members : List ClaimedSegment
  deriving DecidableEq

/-- The groups of a cycle, by tenant and index, in their order. -/
def byGroup (claimed : List ClaimedSegment) : List ClaimGroup :=
  (claimed.map fun c => toLex (c.tenant, c.indexId)).sortDedup.map fun key =>
    { tenant := (ofLex key).1
      indexId := (ofLex key).2
      members := claimed.filter fun c => toLex (c.tenant, c.indexId) = key }

/-- What the fetches of a group gave, up to the first error. -/
structure Fetched (β : Type) where
  batches : List β
  consumed : List ConsumedProofEntry
  refused : List (Text × Refusal)
  failed : Bool

def fetchGroup (w : Outside β) (owner : Option Text) (strict : Bool) : List ClaimedSegment → Fetched β
  | [] => { batches := [], consumed := [], refused := [], failed := false }
  | c :: rest =>
    match fetchSegment (w.object c.segmentUrl) owner strict with
    | none => { batches := [], consumed := [], refused := [], failed := true }
    | some (.ready batches) =>
      let later := fetchGroup w owner strict rest
      { later with
        batches := batches ++ later.batches
        consumed := ⟨basename c.id, c.claimedAt⟩ :: later.consumed }
    | some (.refused reason) =>
      let later := fetchGroup w owner strict rest
      { later with refused := (c.id, reason) :: later.refused }

namespace ClaimGroup

variable (g : ClaimGroup) (w : Outside β)

def NamespaceFails : Prop := g.tenant ≠ "default".toList ∧ w.opensNamespace g.tenant = false

instance decidableNamespaceFails : Decidable (g.NamespaceFails w) :=
  inferInstanceAs (Decidable (g.tenant ≠ "default".toList ∧ w.opensNamespace g.tenant = false))

def Unresolved : Prop := g.indexId ≠ [] ∧ w.resolvesIndex g.tenant g.indexId = false

instance decidableUnresolved : Decidable (g.Unresolved w) :=
  inferInstanceAs (Decidable (g.indexId ≠ [] ∧ w.resolvesIndex g.tenant g.indexId = false))

/-- The claim on the mirrored objects of the group; an error counts as a refusal. -/
def dirClaim : WalDirClaim :=
  if g.indexId = [] then .unidentified else (w.claimsMirroredIndex g.tenant g.indexId).getD .refused

/-- The owner of the group's objects, and whether they must name it themselves; `none` when the group is refused. -/
def owner : Option (Option Text × Bool) :=
  match g.dirClaim w with
  | .owned uuid => some (some uuid, false)
  | .ownedStrict uuid => some (some uuid, true)
  | .unidentified => some (none, false)
  | .refused => none

def remaining (refused : List (Text × Refusal)) : List ClaimedSegment :=
  g.members.filter fun c => c.id ∉ refused.map Prod.fst

def request (owner : Option Text) (fetched : Fetched β) (stored : Option ConsumedProofWatermark) (terminal : List Text) :
    CommitRequest β where
  tenant := g.tenant
  indexId := g.indexId
  batches := fetched.batches
  consumed := fetched.consumed
  acknowledgedThrough := watermarkForIncarnation stored owner
  terminal := terminal
  segments := (g.remaining fetched.refused).length
  expectTableUuid := owner

end ClaimGroup

/-- An operation of a cycle that failed: one on a segment, or one on a group. -/
inductive Failure where
  | segment (id : Text)
  | group (tenant indexId : Text)
  deriving DecidableEq

structure CycleState (β : Type) where
  ledger : Ledger
  committedIds : List Text
  releasedIds : List Text
  commits : List (CommitRequest β)
  /-- The operations that failed; the code does not keep them. -/
  failures : List Failure

namespace CycleState

def start (ledger : Ledger) : CycleState β where
  ledger := ledger
  committedIds := []
  releasedIds := []
  commits := []
  failures := []

variable (w : Outside β) (claimer : Text) (s : CycleState β)

def releaseAll (ids : List Text) : CycleState β :=
  { s with ledger := ids.foldl (fun ledger id => release claimer (w.releasedAt id) id ledger) s.ledger }

def turnAway (g : ClaimGroup) : CycleState β :=
  let ids := g.members.map ClaimedSegment.id
  { s.releaseAll w claimer ids with
    releasedIds := s.releasedIds ++ ids
    failures := s.failures ++ [.group g.tenant g.indexId] }

def setAside (refused : List (Text × Refusal)) : CycleState β :=
  let ids := refused.map Prod.fst
  { s with
    ledger := ids.foldl (fun ledger id => quarantineTerminal claimer id ledger) s.ledger
    releasedIds := s.releasedIds ++ ids
    failures := s.failures ++ ids.map .segment }

def groupFailed (g : ClaimGroup) : CycleState β :=
  { s with failures := s.failures ++ [.group g.tenant g.indexId] }

def groupCommitted (ids : List Text) (request : CommitRequest β) : CycleState β :=
  { s with committedIds := s.committedIds ++ ids, commits := s.commits ++ [request] }

/-- `mark_committed_batch` on the committed segments, chunk by chunk. -/
def markAll : CycleState β :=
  { s with
    ledger := ((s.committedIds.toChunks 256).zipIdx).foldl
      (fun ledger chunk => markCommitted claimer (w.markedAt chunk.2) chunk.1 ledger) s.ledger }

end CycleState

/-- How the body of the loop ends: with the next group, with a break, or with an early return. -/
inductive LoopExit where
  | next | breakOuter | returnErr
  deriving DecidableEq

def drainGroup (w : Outside β) (claimer : Text) (s : CycleState β) (g : ClaimGroup) : LoopExit × CycleState β :=
  if g.NamespaceFails w then (.breakOuter, s.groupFailed g)
  else if g.Unresolved w then (.next, s.turnAway w claimer g)
  else
    match g.owner w with
    | none => (.next, s.turnAway w claimer g)
    | some (owner, strict) =>
      let fetched := fetchGroup w owner strict g.members
      let s := s.setAside claimer fetched.refused
      let remaining := g.remaining fetched.refused
      if remaining = [] then (.next, s)
      else if fetched.failed then (.breakOuter, s.groupFailed g)
      else
        match w.readsWatermark g.tenant g.indexId with
        | none => (.returnErr, s.groupFailed g)
        | some stored =>
          match w.readsTerminal g.tenant g.indexId with
          | none => (.returnErr, s.groupFailed g)
          | some terminal =>
            let request := g.request owner fetched stored terminal
            if w.commitBatches request then (.next, s.groupCommitted (remaining.map ClaimedSegment.id) request)
            else (.breakOuter, s.groupFailed g)

def drainGroups (w : Outside β) (claimer : Text) : CycleState β → List ClaimGroup → LoopExit × CycleState β
  | s, [] => (.next, s)
  | s, g :: groups =>
    match drainGroup w claimer s g with
    | (.next, s) => drainGroups w claimer s groups
    | (exit, s) => (exit, s)

/-- How a cycle ends: with the number of committed segments, or with an error. -/
structure CycleEnd (β : Type) where
  state : CycleState β
  result : Option Nat

/-- `run_once_catalog` after the claim. -/
def drainClaimed (w : Outside β) (claimer : Text) (ledger : Ledger) (claimed : List ClaimedSegment) : CycleEnd β :=
  match drainGroups w claimer (.start ledger) (byGroup claimed) with
  | (.returnErr, s) => { state := s, result := none }
  | (.breakOuter, s) =>
    let rest := (claimed.map ClaimedSegment.id).filter fun id => id ∉ s.committedIds ∧ id ∉ s.releasedIds
    { state := (s.releaseAll w claimer rest).markAll w claimer, result := none }
  | (.next, s) => { state := s.markAll w claimer, result := some s.committedIds.length }

/-- `run_once_catalog`, from the claim on. -/
def runOnceCatalog (cfg : ShardConfig) (claimer : Text) (now : Int) (at' : Nat → Int) (locked : Text → Bool) (w : Outside β)
    (ledger : Ledger) : CycleEnd β :=
  let (ledger, claimed) := tryClaimSharded cfg claimer now at' locked ledger
  drainClaimed w claimer ledger claimed

/-! ## What can go wrong with a group -/

namespace ClaimGroup

variable (g : ClaimGroup) (w : Outside β)

/-- What the group fetches, and for which owner; `none` when it does not come to that. -/
def fetch : Option (Option Text × Fetched β) :=
  if g.NamespaceFails w ∨ g.Unresolved w then none
  else (g.owner w).map fun owner => (owner.1, fetchGroup w owner.1 owner.2 g.members)

def FetchFails : Prop := ∃ f ∈ g.fetch w, g.remaining f.2.refused ≠ [] ∧ f.2.failed = true

instance decidableFetchFails : Decidable (g.FetchFails w) :=
  inferInstanceAs (Decidable (∃ f ∈ g.fetch w, g.remaining f.2.refused ≠ [] ∧ f.2.failed = true))

/-- The group comes to its reads of the watermark and of the terminal entries. -/
def ReachesReads : Prop := ∃ f ∈ g.fetch w, g.remaining f.2.refused ≠ [] ∧ f.2.failed = false

instance decidableReachesReads : Decidable (g.ReachesReads w) :=
  inferInstanceAs (Decidable (∃ f ∈ g.fetch w, g.remaining f.2.refused ≠ [] ∧ f.2.failed = false))

/-- The reads of the group are answered, if it comes to them. -/
def ReadsAnswer : Prop :=
  g.ReachesReads w → (w.readsWatermark g.tenant g.indexId).isSome ∧ (w.readsTerminal g.tenant g.indexId).isSome

instance decidableReadsAnswer : Decidable (g.ReadsAnswer w) :=
  inferInstanceAs (Decidable (g.ReachesReads w →
    (w.readsWatermark g.tenant g.indexId).isSome ∧ (w.readsTerminal g.tenant g.indexId).isSome))

def CommitFails : Prop :=
  g.ReachesReads w ∧ ∃ f ∈ g.fetch w, ∃ stored ∈ w.readsWatermark g.tenant g.indexId,
    ∃ terminal ∈ w.readsTerminal g.tenant g.indexId, w.commitBatches (g.request f.1 f.2 stored terminal) = false

instance decidableCommitFails : Decidable (g.CommitFails w) :=
  inferInstanceAs (Decidable (g.ReachesReads w ∧ ∃ f ∈ g.fetch w, ∃ stored ∈ w.readsWatermark g.tenant g.indexId,
    ∃ terminal ∈ w.readsTerminal g.tenant g.indexId, w.commitBatches (g.request f.1 f.2 stored terminal) = false))

/-- The cycle stops at the group: its namespace, a fetch or its commit fails. -/
def Breaks : Prop := g.NamespaceFails w ∨ g.FetchFails w ∨ g.CommitFails w

instance decidableBreaks : Decidable (g.Breaks w) :=
  inferInstanceAs (Decidable (g.NamespaceFails w ∨ g.FetchFails w ∨ g.CommitFails w))

end ClaimGroup

/-- The reads of every group are answered, up to a group where the cycle stops for another reason. -/
def ReadsAnswered (w : Outside β) : List ClaimGroup → Prop
  | [] => True
  | g :: groups => g.ReadsAnswer w ∧ (g.Breaks w ∨ ReadsAnswered w groups)

instance decidableReadsAnswered (w : Outside β) : ∀ groups, Decidable (ReadsAnswered w groups)
  | [] => isTrue trivial
  | g :: groups =>
    have := decidableReadsAnswered w groups
    inferInstanceAs (Decidable (g.ReadsAnswer w ∧ (g.Breaks w ∨ ReadsAnswered w groups)))

/-- A group where the cycle stops is the last one. -/
def BreaksLast (w : Outside β) : List ClaimGroup → Prop
  | [] => True
  | g :: groups => (g.Breaks w → groups = []) ∧ BreaksLast w groups

instance decidableBreaksLast (w : Outside β) : ∀ groups, Decidable (BreaksLast w groups)
  | [] => isTrue trivial
  | g :: groups =>
    have := decidableBreaksLast w groups
    inferInstanceAs (Decidable ((g.Breaks w → groups = []) ∧ BreaksLast w groups))

/-- No claim is left in processing, and the committed ones are those of a commit that succeeded. -/
def CycleEnd.Disposes (e : CycleEnd β) (claimed : List ClaimedSegment) : Prop :=
  ∀ c ∈ claimed, ∃ row, e.state.ledger.row c.id = some row ∧ row.status ≠ .processing ∧
    (row.status = .committed ↔ ∃ r ∈ e.state.commits, ∃ entry ∈ r.consumed, entry.segmentId = basename c.id)

/-!
## Cycles one after the other

Segments are registered and cycles run, each with its own claim and its own outside; between them a
sweep may settle or queue again what was left in processing, and an operator may queue again what
was set aside.
-/

structure CyclesState where
  ledger : Ledger
  history : List (List Failure)

inductive CyclesAction (β : Type) where
  | register (id tenant indexId segmentUrl : Text) (bytes rows now : Int)
  | cycle (cfg : ShardConfig) (claimer : Text) (now : Int) (at' : Nat → Int) (locked : Text → Bool) (w : Outside β)
  | reclaim (now : Int) (proven requeue : List Text)
  | requeueQuarantined

variable (s : CyclesState)

def cyclesStep : CyclesAction β → Option CyclesState
  | .register id tenant indexId segmentUrl bytes rows now =>
    some { s with ledger := register id tenant indexId segmentUrl bytes rows now s.ledger }
  | .cycle cfg claimer now at' locked w =>
    let e := runOnceCatalog cfg claimer now at' locked w s.ledger
    some { ledger := e.state.ledger, history := s.history ++ [e.state.failures] }
  | .reclaim now proven requeue =>
    some { s with ledger := requeue.foldl (fun ledger id => requeueClaim id ledger) (markReclaimed now proven s.ledger) }
  | .requeueQuarantined => some { s with ledger := requeueQuarantined s.ledger }

/-- What a healthy segment is safe under: a cycle claims rows of its own shard only, and a group where it stops is the last
of its groups. -/
def CycleSafe : CyclesAction β → Prop
  | .cycle cfg claimer now at' locked w =>
    (cfg.dialect = .postgres → ∀ row ∈ selectSealed now cfg.fetch locked s.ledger, cfg.Owns row.indexId) ∧
      BreaksLast w (byGroup (tryClaimSharded cfg claimer now at' locked s.ledger).2)
  | _ => True

instance decidableCycleSafe (a : CyclesAction β) : Decidable (CycleSafe s a) := by
  cases a <;> (dsimp only [CycleSafe]; infer_instance)

/-- A failure is about the segment of a row or about its group. -/
def Failure.Concerns (row : Row) (f : Failure) : Prop := f = .segment row.id ∨ f = .group row.tenant row.indexId

instance decidableConcerns (row : Row) (f : Failure) : Decidable (f.Concerns row) :=
  inferInstanceAs (Decidable (f = .segment row.id ∨ f = .group row.tenant row.indexId))

def failedCycles (history : List (List Failure)) (row : Row) : Nat :=
  history.countP fun failures => failures.any fun f => f.Concerns row

/-- Since the start, a row was charged at most once for every cycle with a failure that concerns it, and was set aside only
if there was one. -/
def CyclesState.Isolates (start : Ledger) : Prop :=
  ∀ id row, s.ledger.row id = some row →
    row.attempts ≤ ((start.row id).elim 0 Row.attempts) + failedCycles s.history row ∧
    (row.status = .quarantined → (∃ old, start.row id = some old ∧ old.status = .quarantined) ∨
      0 < failedCycles s.history row)

end LogLake.Catalog
