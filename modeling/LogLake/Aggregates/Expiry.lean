import LogLake.Aggregates.Publish
import LogLake.Subscribe

/-!
# Snapshot expiry beside publications

The coverage edge of the side object is read through the table's metadata: a walk from the current
snapshot down through re-clusters, which keep every row.
-/

namespace LogLake.Expiry

open Iceberg (Summary)

/-! ## Metadata -/

/-- What coverage reads of a snapshot. -/
structure Snapshot where
  id : Int
  sequenceNumber : Int
  parent : Option Int
  summary : Summary

/-- What coverage reads of a table's metadata. -/
structure Table where
  snapshots : List Snapshot
  currentSnapshotId : Option Int

def Table.find (t : Table) (id : Int) : Option Snapshot := t.snapshots.find? fun s => s.id = id

def Table.currentSnapshot (t : Table) : Option Snapshot := t.currentSnapshotId.bind t.find

def rowConservingRecluster (summary : Summary) : Bool :=
  (summary.operation = .overwrite || summary.operation = .replace) &&
    (summary.properties.lookup Subscribe.rewriteCommitProp) = some Subscribe.RewriteKind.recluster.marker

/-! ## Walks -/

def Table.coverageRootFrom (t : Table) (expiring : List Int) : Nat → Int → Option Int → Option Int
  | 0, _, deepestBridged => deepestBridged
  | turns + 1, id, deepestBridged =>
    if id ∈ expiring then deepestBridged
    else
      match t.find id with
      | none => deepestBridged
      | some s =>
        if rowConservingRecluster s.summary then
          match s.parent with
          | none => some id
          | some parent => t.coverageRootFrom expiring turns parent (some id)
        else some id

def aggregateCoverageRoot (t : Table) (id : Option Int) (expiring : List Int) : Option Int :=
  id.bind fun id => t.coverageRootFrom expiring (t.snapshots.length + 1) id none

def coverageEdgeAt (t : Table) (id : Int) : Option AggregateCoverage := (t.find id).map fun s => ⟨id, s.sequenceNumber⟩

/-- `append_coverage_link`, on the metadata the append has committed. -/
def appendCoverageLink (committed : Table) : Option AggregateCoverageLink :=
  committed.currentSnapshot.map fun s => ⟨aggregateCoverageRoot committed s.parent [], s.id, s.sequenceNumber⟩

def Table.coversFrom (t : Table) (coverage : AggregateCoverage) (expiring : List Int) : Nat → Int → Bool
  | 0, _ => false
  | turns + 1, id =>
    if id ∈ expiring then false
    else if id = coverage.snapshotId then (t.find id).any fun s => s.sequenceNumber = coverage.sequenceNumber
    else
      match t.find id with
      | none => false
      | some s =>
        if rowConservingRecluster s.summary then
          match s.parent with
          | none => false
          | some parent => t.coversFrom coverage expiring turns parent
        else false

def aggregateCoversCurrentSnapshotExcluding (t : Table) (coverage : Option AggregateCoverage) (expiring : List Int) : Bool :=
  match coverage, t.currentSnapshotId with
  | some coverage, some id => t.coversFrom coverage expiring (t.snapshots.length + 1) id
  | _, _ => false

def aggregateCoversCurrentSnapshot (t : Table) (coverage : Option AggregateCoverage) : Bool :=
  aggregateCoversCurrentSnapshotExcluding t coverage []

/-- `coverage_reroot_for_expiry`: the edge that is proven, and where it has to move. -/
def coverageRerootForExpiry {κ : Type} (t : Table) (expiring : List Int) (existing : Option (SnapshotAggregates κ)) :
    Option (AggregateCoverage × AggregateCoverage) :=
  t.currentSnapshot.bind fun current => (existing.bind SnapshotAggregates.coverage).bind fun proven =>
    if aggregateCoversCurrentSnapshot t (some proven) = false then none
    else if aggregateCoversCurrentSnapshotExcluding t (some proven) expiring = true then none
    else
      ((aggregateCoverageRoot t (some current.id) expiring).bind (coverageEdgeAt t)).bind fun target =>
        if target ≠ proven then some (proven, target) else none

/-! ## The commits of a table -/

inductive CommitKind where
  | append | recluster
  deriving DecidableEq

def CommitKind.summary : CommitKind → Summary
  | .append => ⟨.append, []⟩
  | .recluster => ⟨.overwrite, [(Subscribe.rewriteCommitProp, Subscribe.RewriteKind.recluster.marker)]⟩

/-- The ids and the sequence numbers that the commits of a table draw, one after the other. -/
structure Lineage where
  id : Nat → Int
  sequenceNumber : Nat → Int
  id_injective : ∀ p q, id p = id q → p = q
  sequence_increasing : ∀ p q, p < q → sequenceNumber p < sequenceNumber q

variable (l : Lineage)

def Lineage.edgeAt (p : Nat) : AggregateCoverage := ⟨l.id p, l.sequenceNumber p⟩

/-- The snapshot of a commit, a child of the one before. -/
def Lineage.snapshotAt (kind : CommitKind) (p : Nat) : Snapshot where
  id := l.id p
  sequenceNumber := l.sequenceNumber p
  parent := match p with
    | 0 => none
    | p + 1 => some (l.id p)
  summary := kind.summary

variable (kinds : List CommitKind)

/-- The metadata after the commits: the snapshots that were not expired. -/
def Lineage.table (expired : List Int) : Table where
  snapshots := (kinds.mapIdx fun p kind => l.snapshotAt kind p).filter fun s => s.id ∉ expired
  currentSnapshotId := match kinds.length with
    | 0 => none
    | last + 1 => some (l.id last)

/-- The ids spare the newest append and every re-cluster after it, or all commits if none is an append. -/
def Lineage.Spares (ids : List Int) : Prop :=
  ∀ p < kinds.length, (∀ q < kinds.length, p < q → kinds[q]? = some .recluster) → l.id p ∉ ids

instance Lineage.decidableSpares (ids : List Int) : Decidable (l.Spares kinds ids) :=
  inferInstanceAs (Decidable (∀ p < kinds.length, _))

/-! ## One expiry beside appends, re-clusters and publications -/

inductive Phase where
  | idle
  | loaded (commits : Nat) (expiring : List Int)
  | decided (commits : Nat) (expiring : List Int) (reroot : Option (AggregateCoverage × AggregateCoverage))
  | committed (proven target : AggregateCoverage)
  | sent (proven target : AggregateCoverage) (version : Nat)
  | done
  deriving DecidableEq

variable {G B T : Type}

/-- The commits of the table and the ids expired; the links of the appends, in the order of their commits; the store with the
side object, where a write is a publication's or the re-root's; the publications that ended and those whose write was applied,
the last one first; the expiry. -/
structure State (G B T : Type) where
  kinds : List CommitKind
  expired : List Int
  links : List AggregateCoverageLink
  store : ConditionalStore (SnapshotAggregates (SideCounts G B T)) (Option Nat × SnapshotAggregates (SideCounts G B T))
  ended : List Nat
  merged : List Nat
  phase : Phase

inductive Action where
  | append
  | recluster
  | attempt (i : Nat)
  | land (pos : Nat)
  | acknowledge (i : Nat)
  | load (expiring : List Int)
  | decide
  | commit (removed : List Int)
  | fail
  | rerootRead
  | rerootConflict
  deriving DecidableEq

namespace State

variable (s : State G B T)

/-- The side object as readers see it; an absent one says nothing. -/
def side : SnapshotAggregates (SideCounts G B T) := s.store.object.getD .empty

def table (l : Lineage) (s : State G B T) : Table := l.table s.kinds s.expired

/-- A table without snapshots and no object; or one whose oldest snapshot, of any kind, the object covers. -/
def start (l : Lineage) (base : Option CommitKind) (counts : SideCounts G B T) : State G B T :=
  ⟨base.toList, [], [], .init (base.map fun _ => ⟨some (l.edgeAt 0), [], counts⟩), [], [], .idle⟩

/-- No removal is committed whose edge has still to be written. -/
def Settled : Prop :=
  match s.phase with
  | .committed _ _ | .sent _ _ _ => False
  | _ => True

instance decidableSettled : Decidable s.Settled := by
  unfold Settled
  split <;> infer_instance

end State

/-- The removals a plan may have: snapshots of the table, and never the current one. -/
def Plannable (t : Table) (removed : List Int) : Prop :=
  (∀ id ∈ removed, id ∈ t.snapshots.map Snapshot.id) ∧ ∀ id ∈ t.currentSnapshotId, id ∉ removed

instance decidablePlannable (t : Table) (removed : List Int) : Decidable (Plannable t removed) :=
  inferInstanceAs (Decidable (_ ∧ _))

def step (m : CountMerges G B T) (l : Lineage) (delta : Nat → SideCounts G B T) (s : State G B T) :
    Action → Option (State G B T)
  | .append =>
    (appendCoverageLink (l.table (s.kinds ++ [.append]) s.expired)).map fun link =>
      { s with kinds := s.kinds ++ [.append], links := s.links ++ [link] }
  | .recluster => if s.kinds = [] then none else some { s with kinds := s.kinds ++ [.recluster] }
  | .attempt i =>
    (s.links[i]?).bind fun link =>
      if i ∈ s.ended then none
      else
        match mergeRound m (.ofCommit m (delta i) link) s.store.object with
        | none => some { s with ended := i :: s.ended }
        | some body => some { s with store := s.store.send (some i, body) }
  | .land pos =>
    (s.store.land Prod.snd pos).map fun w =>
      match w.1.1 with
      | some i => { s with store := w.2, merged := i :: s.merged }
      | none => { s with store := w.2, phase := .done }
  | .acknowledge i => if i ∈ s.merged then some { s with ended := i :: s.ended } else none
  | .load expiring =>
    if s.phase = .idle ∧ expiring ≠ [] ∧ Plannable (s.table l) expiring then
      some { s with phase := .loaded s.kinds.length expiring }
    else none
  | .decide =>
    match s.phase with
    | .loaded commits expiring =>
      some { s with
        phase := .decided commits expiring
          (coverageRerootForExpiry (l.table (s.kinds.take commits) s.expired) expiring s.store.object) }
    | _ => none
  | .commit removed =>
    match s.phase with
    | .decided _ _ reroot =>
      if Plannable (s.table l) removed then
        some { s with
          expired := s.expired ++ removed
          phase := match reroot with
            | none => .done
            | some (proven, target) => .committed proven target }
      else none
    | _ => none
  | .fail =>
    match s.phase with
    | .loaded _ _ | .decided _ _ _ => some { s with phase := .done }
    | _ => none
  | .rerootRead =>
    match s.phase with
    | .committed proven target =>
      -- `publish_coverage_reroot`: without an object it fails, and a moved edge is left alone
      match s.store.object with
      | none => some { s with phase := .done }
      | some side =>
        if side.coverage = some proven then
          some { s with
            store := s.store.send (none, side.rerootCoverage target)
            phase := .sent proven target s.store.version }
        else some { s with phase := .done }
    | _ => none
  | .rerootConflict =>
    match s.phase with
    | .sent _ _ version => if version ≠ s.store.version then some { s with phase := .done } else none
    | _ => none

/-! ## When the chain holds -/

/-- The link lies inside a pending run, with a link of the run before it and one after it. -/
def InsideRun {κ : Type} (links : List AggregateCoverageLink) (side : SnapshotAggregates κ) (i : Nat) : Prop :=
  ∃ pending ∈ side.coverageLinks, (∃ earlier ∈ links.take i, pending.parentSnapshotId = earlier.parentSnapshotId) ∧
    ∃ link ∈ links[i]?, link.sequenceNumber < pending.sequenceNumber

instance decidableInsideRun {κ : Type} (links : List AggregateCoverageLink) (side : SnapshotAggregates κ) (i : Nat) :
    Decidable (InsideRun links side i) :=
  inferInstanceAs (Decidable (∃ pending ∈ side.coverageLinks, _))

def Undisturbed (l : Lineage) (s : State G B T) : Action → Prop
  | .attempt i => ¬InsideRun s.links s.side i
  | .land pos =>
    match s.phase with
    | .sent _ _ _ => ∀ w ∈ s.store.sent[pos]?, w.2.1 = none
    | _ => True
  | .decide =>
    match s.phase with
    | .loaded commits expiring => (∀ i < s.links.length, i ∈ s.merged) ∨ l.Spares (s.kinds.take commits) expiring
    | _ => True
  | .commit removed =>
    match s.phase with
    | .decided commits expiring _ => commits = s.kinds.length ∧ removed = expiring ∨
        l.Spares (s.kinds.take commits) expiring ∧ l.Spares s.kinds removed
    | _ => True
  | _ => True

instance decidableUndisturbed (l : Lineage) (s : State G B T) (a : Action) : Decidable (Undisturbed l s a) := by
  cases a <;> (dsimp only [Undisturbed]; first | infer_instance | (split <;> infer_instance))

end LogLake.Expiry
