import Mathlib

/-!
# The coverage of the side aggregates

The side object of a table names the newest snapshot whose contributions it all holds, its coverage
edge.
-/

namespace LogLake

structure AggregateCoverage where
  snapshotId : Int
  sequenceNumber : Int
  deriving DecidableEq

/-- `AggregateCoverageLink`: an append, from the snapshot it was committed on; a pending run has the same shape. -/
structure AggregateCoverageLink where
  parentSnapshotId : Option Int
  snapshotId : Int
  sequenceNumber : Int
  deriving DecidableEq

structure SnapshotAggregates (κ : Type) where
  coverage : Option AggregateCoverage
  coverageLinks : List AggregateCoverageLink
  counts : κ
  deriving DecidableEq

/-- The edge a link or a run leads to. -/
def AggregateCoverageLink.head (link : AggregateCoverageLink) : AggregateCoverage :=
  ⟨link.snapshotId, link.sequenceNumber⟩

namespace SnapshotAggregates

variable {κ : Type} (s : SnapshotAggregates κ)

/-- The parent a pending link must name to be joined. -/
def edgeId : Option Int := s.coverage.map AggregateCoverage.snapshotId

/-- One turn of the loop of `join_pending_links`: the first pending link on the edge is removed and becomes the edge. -/
def joinNext : Option (SnapshotAggregates κ) :=
  (s.coverageLinks.find? fun pending => pending.parentSnapshotId = s.edgeId).map fun next =>
    { s with
      coverage := some next.head
      coverageLinks := s.coverageLinks.eraseP fun pending => pending.parentSnapshotId = s.edgeId }

/-- The loop of `join_pending_links`, cut off after as many turns as are given. -/
def joinLoop : Nat → SnapshotAggregates κ → SnapshotAggregates κ
  | 0, s => s
  | turns + 1, s => (s.joinNext.map (joinLoop turns)).getD s

/-- `join_pending_links`: every turn removes a pending link, so there are at most as many turns as links. -/
def joinPendingLinks : SnapshotAggregates κ := joinLoop s.coverageLinks.length s

/-- The pending links with a new one: it extends the first run that ends at its parent, or stands on its own. -/
def extendOrPush (links : List AggregateCoverageLink) (link : AggregateCoverageLink) : List AggregateCoverageLink :=
  match links.findIdx? fun pending => some pending.snapshotId = link.parentSnapshotId with
  | some pos =>
    links.modify pos fun pending =>
      { pending with snapshotId := link.snapshotId, sequenceNumber := link.sequenceNumber }
  | none => links ++ [link]

variable (link : AggregateCoverageLink)

def addCoverageLink : SnapshotAggregates κ :=
  if s.edgeId = some link.snapshotId then s
  else
    let kept := s.coverageLinks.filter fun pending => pending.sequenceNumber ≠ link.sequenceNumber
    let sorted := (extendOrPush kept link).insertionSort fun p q => p.sequenceNumber ≤ q.sequenceNumber
    joinPendingLinks { s with coverageLinks := sorted }

def rerootCoverage (edge : AggregateCoverage) : SnapshotAggregates κ :=
  joinPendingLinks
    { s with
      coverage := some edge
      coverageLinks := s.coverageLinks.filter fun pending => pending.snapshotId ≠ edge.snapshotId }

/-- The edge is at the link's snapshot or beyond its sequence number. -/
def EdgePast : Prop :=
  ∃ edge ∈ s.coverage, edge.snapshotId = link.snapshotId ∨ link.sequenceNumber < edge.sequenceNumber

/-- The pending entry is the link, or a run from its parent that reaches its sequence number. -/
def Carries (pending link : AggregateCoverageLink) : Prop :=
  pending.snapshotId = link.snapshotId ∧ pending.sequenceNumber = link.sequenceNumber ∨
    pending.parentSnapshotId = link.parentSnapshotId ∧ link.sequenceNumber ≤ pending.sequenceNumber

def Evidences : Prop :=
  s.EdgePast link ∨ ∃ pending ∈ s.coverageLinks, Carries pending link

instance decidableEdgePast : Decidable (s.EdgePast link) :=
  inferInstanceAs (Decidable (∃ edge ∈ s.coverage, _))

instance decidableCarries (pending link : AggregateCoverageLink) : Decidable (Carries pending link) :=
  inferInstanceAs (Decidable (_ ∨ _))

instance decidableEvidences : Decidable (s.Evidences link) :=
  inferInstanceAs (Decidable (_ ∨ _))

end SnapshotAggregates

/-- Snapshots appended one after the other to the one the history starts from; there is none below them when the table was
empty. -/
structure Appends where
  length : Nat
  root : Option AggregateCoverage
  appended : Nat → AggregateCoverage

namespace Appends

variable (h : Appends)

/-- The newest snapshot after so many appends. -/
def edge : Nat → Option AggregateCoverage
  | 0 => h.root
  | k + 1 => some (h.appended k)

/-- Its id, what a link committed on it names as its parent. -/
def edgeId (k : Nat) : Option Int := (h.edge k).map AggregateCoverage.snapshotId

/-- The pending entry of the appends from one place of the history up to, and not with, another. -/
def run (r : Nat × Nat) : AggregateCoverageLink where
  parentSnapshotId := h.edgeId r.1
  snapshotId := (h.appended (r.2 - 1)).snapshotId
  sequenceNumber := (h.appended (r.2 - 1)).sequenceNumber

def link (i : Nat) : AggregateCoverageLink := h.run (i, i + 1)

end Appends

/-- A linear history: snapshot ids are distinct and sequence numbers increase. -/
structure AppendHistory extends Appends where
  ids_distinct : ∀ i ≤ length, ∀ j ≤ length, toAppends.edgeId i = toAppends.edgeId j → i = j
  sequence_increasing : ∀ j ≤ length, ∀ i < j, ∀ e ∈ toAppends.edge i, ∀ f ∈ toAppends.edge j,
    e.sequenceNumber < f.sequenceNumber

/-- An object that covers what the history starts from, with no link pending. -/
def Appends.start {κ : Type} (h : Appends) (counts : κ) : SnapshotAggregates κ := ⟨h.root, [], counts⟩

/-- The history of a table whose snapshots were numbered from zero. -/
def AppendHistory.numbered (length : Nat) : AppendHistory where
  length := length
  root := some ⟨0, 0⟩
  appended := fun i => ⟨i + 1, i + 1⟩
  ids_distinct := by
    rintro (_ | i) - (_ | j) - hid <;> simp [Appends.edgeId, Appends.edge] at hid ⊢ <;> omega
  sequence_increasing := by
    rintro (_ | j) - (_ | i) hlt e he f hf <;> simp [Appends.edge] at hlt he hf <;> subst he hf
    · simp
    · simpa using hlt

end LogLake
