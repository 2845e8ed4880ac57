import LogLake.Aggregates.Coverage
import LogLake.Lib.ConditionalStore

/-!
# Publishing side aggregates

After its commit an append merges its counts and its coverage link into the side object.
-/

namespace LogLake

/-- The counts of a publication or of the side object: by group, by time bucket and by both, each absent if never built. -/
structure SideCounts (G B T : Type) where
  groupCounts : Option G
  timeBuckets : Option B
  timeGroupCounts : Option T
  deriving DecidableEq

/-- What starts each kind of counts, and the merge of a delta into it under the caps. -/
structure CountMerges (G B T : Type) where
  emptyGroups : G
  emptyBuckets : B
  emptyTimeGroups : T
  mergeGroups : G → G → G
  mergeBuckets : B → B → B
  mergeTimeGroups : T → T → T

/-- A delta, if there is one, merged into what is accumulated. -/
def mergeInto {α : Type} (empty : α) (merge : α → α → α) (acc : Option α) : Option α → Option α
  | none => acc
  | some d => some (merge (acc.getD empty) d)

/-- A delta, if there is one, folded onto another one. -/
def foldInto {α : Type} (merge : α → α → α) : Option α → Option α → Option α
  | acc, none => acc
  | none, some d => some d
  | some acc, some d => some (merge acc d)

structure PendingSideAggDeltas (G B T : Type) where
  counts : SideCounts G B T
  coverageLinks : List AggregateCoverageLink

variable {G B T : Type}

namespace SideCounts

def empty : SideCounts G B T := ⟨none, none, none⟩

/-- The counts of an object with those of a publication merged in. -/
def apply (m : CountMerges G B T) (acc delta : SideCounts G B T) : SideCounts G B T where
  groupCounts := mergeInto m.emptyGroups m.mergeGroups acc.groupCounts delta.groupCounts
  timeBuckets := mergeInto m.emptyBuckets m.mergeBuckets acc.timeBuckets delta.timeBuckets
  timeGroupCounts := mergeInto m.emptyTimeGroups m.mergeTimeGroups acc.timeGroupCounts delta.timeGroupCounts

end SideCounts

/-- The object as `unwrap_or_default` has it when there is none. -/
def SnapshotAggregates.empty : SnapshotAggregates (SideCounts G B T) := ⟨none, [], .empty⟩

namespace PendingSideAggDeltas

def empty : PendingSideAggDeltas G B T := ⟨.empty, []⟩

def fold (m : CountMerges G B T) (deltas : PendingSideAggDeltas G B T) (d : SideCounts G B T) : PendingSideAggDeltas G B T :=
  { deltas with
    counts :=
      { groupCounts := foldInto m.mergeGroups deltas.counts.groupCounts d.groupCounts
        timeBuckets := foldInto m.mergeBuckets deltas.counts.timeBuckets d.timeBuckets
        timeGroupCounts := foldInto m.mergeTimeGroups deltas.counts.timeGroupCounts d.timeGroupCounts } }

variable (deltas : PendingSideAggDeltas G B T)

def cover (link : AggregateCoverageLink) : PendingSideAggDeltas G B T :=
  { deltas with coverageLinks := deltas.coverageLinks ++ [link] }

def applyTo (m : CountMerges G B T) (deltas : PendingSideAggDeltas G B T)
    (side : SnapshotAggregates (SideCounts G B T)) : SnapshotAggregates (SideCounts G B T) :=
  deltas.coverageLinks.foldl .addCoverageLink { side with counts := side.counts.apply m deltas.counts }

/-- `already_published`: any link evidenced means that the write landed. -/
def AlreadyPublished (side : SnapshotAggregates (SideCounts G B T)) : Prop :=
  ∃ link ∈ deltas.coverageLinks, side.Evidences link

instance decidableAlreadyPublished
    (side : SnapshotAggregates (SideCounts G B T)) : Decidable (deltas.AlreadyPublished side) :=
  inferInstanceAs (Decidable (∃ link ∈ deltas.coverageLinks, _))

def ofCommit (m : CountMerges G B T) (d : SideCounts G B T) (link : AggregateCoverageLink) : PendingSideAggDeltas G B T :=
  (empty.fold m d).cover link

end PendingSideAggDeltas

/-- A round of `cas_merge_side_aggregates_in` up to its write: what is written over the object that was read, unless that
object already carries the publication. -/
def mergeRound (m : CountMerges G B T) (deltas : PendingSideAggDeltas G B T)
    (existing : Option (SnapshotAggregates (SideCounts G B T))) : Option (SnapshotAggregates (SideCounts G B T)) :=
  if ∃ side ∈ existing, deltas.AlreadyPublished side then none else some (deltas.applyTo m (existing.getD .empty))

/-- The store with the side object, the publications that ended, and those whose write was applied, the last one first. -/
structure PublishState (G B T : Type) where
  store : ConditionalStore (SnapshotAggregates (SideCounts G B T)) (Nat × SnapshotAggregates (SideCounts G B T))
  ended : List Nat
  merged : List Nat

inductive PublishAction where
  | attempt (i : Nat)
  | land (pos : Nat)
  | acknowledge (i : Nat)
  deriving DecidableEq

namespace PublishState

/-- The side object as readers see it; an absent one says nothing. -/
def side (s : PublishState G B T) : SnapshotAggregates (SideCounts G B T) := s.store.object.getD .empty

/-- The object covers the snapshot the history starts from, and is absent when there is none. -/
def start (h : Appends) (counts : SideCounts G B T) : PublishState G B T :=
  ⟨.init (h.root.map fun _ => h.start counts), [], []⟩

end PublishState

def publishStep (m : CountMerges G B T) (h : Appends) (delta : Nat → SideCounts G B T) (s : PublishState G B T) :
    PublishAction → Option (PublishState G B T)
  | .attempt i =>
    if i < h.length ∧ i ∉ s.ended then
      match mergeRound m (.ofCommit m (delta i) (h.link i)) s.store.object with
      | none => some { s with ended := i :: s.ended }
      | some body => some { s with store := s.store.send (i, body) }
    else none
  | .land pos => (s.store.land Prod.snd pos).map fun w => { s with store := w.2, merged := w.1.1 :: s.merged }
  | .acknowledge i => if i ∈ s.merged then some { s with ended := i :: s.ended } else none

/-- The link lies inside a pending run, with a link of the run before it and one after it. -/
def Appends.Enclosed {κ : Type} (h : Appends) (s : SnapshotAggregates κ) (i : Nat) : Prop :=
  ∃ pending ∈ s.coverageLinks,
    (∃ a < i, pending.parentSnapshotId = h.edgeId a) ∧ (h.link i).sequenceNumber < pending.sequenceNumber

instance Appends.decidableEnclosed {κ : Type} (h : Appends) (s : SnapshotAggregates κ) (i : Nat) : Decidable (h.Enclosed s i) :=
  inferInstanceAs (Decidable (∃ pending ∈ s.coverageLinks, _))

/-- No publication reads the object while its link is inside a pending run. -/
def ReadsInTime (h : Appends) (s : PublishState G B T) : PublishAction → Prop
  | .attempt i => ¬h.Enclosed s.side i
  | .land _ => True
  | .acknowledge _ => True

instance decidableReadsInTime (h : Appends) (s : PublishState G B T) (a : PublishAction) : Decidable (ReadsInTime h s a) := by
  cases a <;> (dsimp only [ReadsInTime]; infer_instance)

end LogLake
