import LogLake.Aggregates.Expiry
import LogLake.Aggregates.Sketch
import LogLake.Tier2.Files

/-!
# Group counts answered from the aggregates

An append counts its batch by column and publishes the counts, with its coverage link, into the side
object, or writes them as a delta that is folded into the wide aggregate.
-/

namespace LogLake

namespace FileGroupCounts

def columnTotal (c : FileGroupCounts) (column : Text) : Option Nat :=
  (c.columns.get? column).map fun counts => counts.values.total + counts.nulls

def retainWithin (cap : Nat) (c : FileGroupCounts) : FileGroupCounts :=
  ⟨c.columns.retain fun counts => counts.values.entries.length ≤ cap⟩

def merge (cap : Nat) (c other : FileGroupCounts) : FileGroupCounts := (c.mergeUncapped other).retainWithin cap

def nonempty (c : FileGroupCounts) : Option FileGroupCounts := if c.columns.entries = [] then none else some c

def baseSubsetOf (wide : FileGroupCounts) (cap : Nat) : Option FileGroupCounts := (wide.retainWithin cap).nonempty

end FileGroupCounts

namespace Tier1

open Expiry (Lineage Snapshot Table rowConservingRecluster appendCoverageLink aggregateCoversCurrentSnapshot)
open Iceberg (Summary)

/-! ## What an append publishes -/

abbrev Row := Text → Option Text

/-- The settings of a writing process, and the columns that it counts. -/
structure Writer where
  caps : GroupCountCaps
  baseCap : Nat
  declared : List Text
  columns : List Text
  sketchCounters : Nat
  deltasEnabled : Bool

/-- The rows of an append, over the columns of its schema. -/
structure Batch where
  schema : List Text
  rows : List Row

namespace Batch

def record (b : Batch) : RecordBatch := fun column => if column ∈ b.schema then some (b.rows.map fun r => r column) else none

/-- The rows as they are in the table: a column that is not in the schema is NULL. -/
def tableRows (b : Batch) : List Row := b.rows.map fun r column => if column ∈ b.schema then r column else none

end Batch

def fileGroupCounts (columns : List Text) (cap : Nat) (batch : RecordBatch) : FileGroupCounts :=
  columns.foldl (fun c col =>
    match (batch col).bind (Tier2.fileGroupCounts cap) with
    | none => c
    | some counts => ⟨c.columns.upsert col fun _ => counts⟩) .empty

namespace Writer

def wideDelta (w : Writer) (b : Batch) : ColumnAggregates :=
  fileGroupCountsAndSketches w.caps w.declared w.columns w.sketchCounters b.record

/-- What goes to the side object: derived from the wide counts when there are any. -/
def inlineDelta (w : Writer) (b : Batch) : Option FileGroupCounts :=
  if w.deltasEnabled then (w.wideDelta b).exact.baseSubsetOf w.baseCap
  else (fileGroupCounts w.columns w.baseCap b.record).nonempty

end Writer

/-! ## The table -/

inductive Commit where
  | append (writer : Writer) (batch : Batch)
  | recluster
  | remove (summary : Summary) (keep : List Bool)

namespace Commit

def summary : Commit → Summary
  | .append _ _ => Expiry.CommitKind.append.summary
  | .recluster => Expiry.CommitKind.recluster.summary
  | .remove summary _ => summary

def apply (rows : List Row) : Commit → List Row
  | .append _ batch => rows ++ batch.tableRows
  | .recluster => rows
  | .remove _ keep => ((rows.zip keep).filter Prod.snd).map Prod.fst

end Commit

def rowsAfter (commits : List Commit) : List Row := commits.foldl Commit.apply []

variable (l : Lineage)

/-- The id of the snapshot below a commit, none below the first. -/
def below : Nat → Option Int
  | 0 => none
  | p + 1 => some (l.id p)

def snapshotOf (p : Nat) (c : Commit) : Snapshot := ⟨l.id p, l.sequenceNumber p, below l p, c.summary⟩

def tableAfter (commits : List Commit) : Table where
  snapshots := commits.mapIdx (snapshotOf l)
  currentSnapshotId := below l commits.length

/-- The link of an append, from the metadata it has committed. -/
def linkOf (commits : List Commit) (i : Nat) : Option AggregateCoverageLink :=
  appendCoverageLink (tableAfter l (commits.take (i + 1)))

/-! ## Publications and answers -/

variable {B T : Type}

/-- An aggregate, and beside it the appends whose deltas were merged into it, which the object does not say. -/
structure Published (κ : Type) where
  object : κ
  appends : List Nat

abbrev Side (B T : Type) := SnapshotAggregates (SideCounts FileGroupCounts B T)

def cachedSideAggregates (t : Table) (side : Side B T) : Option (Side B T) :=
  if aggregateCoversCurrentSnapshot t side.coverage then some side else none

def tier1GroupCountRows (t : Table) (recordCount : Nat) (column : Text) (side : Side B T)
    (wide : Option (WideGroupCounts ColumnAggregates)) : Option GroupCounts :=
  ((cachedSideAggregates t side).bind fun aggs => aggs.counts.groupCounts.bind fun counts =>
    if counts.columnTotal column = some recordCount then counts.columns.get? column else none).or
  (wide.bind fun wide =>
    if aggregateCoversCurrentSnapshot t wide.coverage then
      (wide.counts.exact.columns.get? column).filter fun counts => counts.values.total + counts.nulls = recordCount
    else none)

/-- An answer, with the number of commits in the reader's metadata. -/
structure Answer where
  known : Nat
  column : Text
  counts : GroupCounts
  deriving DecidableEq

/-- The commits, the versions of the side object and of the stored wide aggregate, the newest one first, and the answers. -/
structure State (B T : Type) where
  commits : List Commit
  sides : List (Published (Side B T))
  wides : List (Published (WideGroupCounts ColumnAggregates))
  answers : List Answer

/-- What a reader folds of the wide aggregate: a stored version, and with the reader's caps the deltas of further appends. -/
structure WideRead where
  version : Nat
  cap : Nat
  counters : Nat
  appends : List Nat

inductive Action where
  | commit (c : Commit)
  | publish (cap : Nat) (appends : List Nat)
  | fold (cap counters : Nat) (appends : List Nat)
  /-- A reader with the metadata of the first commits answers from a version of the side object, or of the wide aggregate and
  the deltas of further appends. -/
  | read (known : Nat) (column : Text) (side : Option Nat) (wide : Option WideRead)

namespace State

def start : State B T := ⟨[], [], [], []⟩

variable (s : State B T)

def side : Published (Side B T) := s.sides.headD ⟨.empty, []⟩

def sideRead (version : Option Nat) : Published (Side B T) :=
  (version.bind fun v => s.sides[v]?).getD ⟨.empty, []⟩

def wide : Published (WideGroupCounts ColumnAggregates) :=
  s.wides.headD ⟨.empty (ColumnAggregates.wideMerge 0 0), []⟩

end State

section Steps

variable (m : CountMerges Unit B T) (l : Lineage) (delta : Nat → SideCounts Unit B T)

/-- How the side object merges under a cap. -/
def countMerges (cap : Nat) : CountMerges FileGroupCounts B T where
  emptyGroups := .empty
  emptyBuckets := m.emptyBuckets
  emptyTimeGroups := m.emptyTimeGroups
  mergeGroups := .merge cap
  mergeBuckets := m.mergeBuckets
  mergeTimeGroups := m.mergeTimeGroups

variable (commits : List Commit) (i : Nat)

def inlineDeltaOf : SideCounts FileGroupCounts B T where
  groupCounts := (commits[i]?).bind fun c =>
    match c with
    | .append writer batch => writer.inlineDelta batch
    | _ => none
  timeBuckets := (delta i).timeBuckets
  timeGroupCounts := (delta i).timeGroupCounts

def wideDeltaOf : Option ColumnAggregates :=
  (commits[i]?).bind fun c =>
    match c with
    | .append writer batch => if writer.deltasEnabled then some (writer.wideDelta batch) else none
    | _ => none

def isAppend : Bool :=
  match commits[i]? with
  | some (.append _ _) => true
  | _ => false

/-- Appends whose deltas may be merged: committed, and none of them merged before or twice. -/
def Mergeable (before appends : List Nat) : Prop :=
  appends.Nodup ∧ ∀ i ∈ appends, i ∉ before ∧ isAppend commits i = true

instance decidableMergeable (before appends : List Nat) : Decidable (Mergeable commits before appends) :=
  inferInstanceAs (Decidable (_ ∧ _))

/-- The deltas of appends, folded into one publication, with their links. -/
def collect (cap : Nat) (commits : List Commit) (appends : List Nat) : PendingSideAggDeltas FileGroupCounts B T :=
  appends.foldl (fun deltas i =>
    let folded := deltas.fold (countMerges m cap) (inlineDeltaOf delta commits i)
    ((linkOf l commits i).map folded.cover).getD folded) .empty

/-- The deltas of appends merged into a wide aggregate, those that there are. -/
def mergeWide (cap counters : Nat) (commits : List Commit) (wide : WideGroupCounts ColumnAggregates) (appends : List Nat) :
    WideGroupCounts ColumnAggregates :=
  appends.foldl (fun wide i =>
    ((wideDeltaOf commits i).map fun counts =>
      wide.mergeDelta (ColumnAggregates.wideMerge cap counters) (fun _ => ⟨linkOf l commits i, counts⟩)
        (l.sequenceNumber i)).getD wide) wide

variable (s : State B T)

/-- The wide aggregate that a reader folds: a stored version and the deltas it does not hold. -/
def foldedWide (wide : Option WideRead) : Option (Published (WideGroupCounts ColumnAggregates)) :=
  wide.bind fun w => (s.wides[w.version]?).bind fun version =>
    if Mergeable s.commits version.appends w.appends then
      ((mergeWide l w.cap w.counters s.commits version.object w.appends).folded
        (ColumnAggregates.wideMerge w.cap w.counters)).map fun folded => ⟨folded, version.appends ++ w.appends⟩
    else none

def step : Action → Option (State B T)
  | .commit c =>
    match c with
    | .remove summary _ => if rowConservingRecluster summary then none else some { s with commits := s.commits ++ [c] }
    | _ => some { s with commits := s.commits ++ [c] }
  | .publish cap appends =>
    if Mergeable s.commits s.side.appends appends then
      some { s with
        sides := ⟨(collect m l delta cap s.commits appends).applyTo (countMerges m cap) s.side.object,
          s.side.appends ++ appends⟩ :: s.sides }
    else none
  | .fold cap counters appends =>
    if Mergeable s.commits s.wide.appends appends then
      some { s with
        wides := ⟨(mergeWide l cap counters s.commits s.wide.object appends).settle
            (ColumnAggregates.wideMerge cap counters) (appends.map l.sequenceNumber) (appends.map l.sequenceNumber),
          s.wide.appends ++ appends⟩ :: s.wides }
    else none
  | .read known column side wide =>
    if known ≤ s.commits.length then
      some { s with
        answers := s.answers ++
          ((tier1GroupCountRows (tableAfter l (s.commits.take known)) (rowsAfter (s.commits.take known)).length column
            (s.sideRead side).object ((foldedWide l s wide).map Published.object)).map
              fun counts => ⟨known, column, counts⟩).toList }
    else none

/-- A reader's metadata holds every append whose delta is in the aggregates that it reads. -/
def UpToDate : Action → Prop
  | .read known _ side wide =>
    (∀ i ∈ (s.sideRead side).appends, i < known) ∧
      ∀ version ∈ foldedWide l s wide, ∀ i ∈ version.appends, i < known
  | _ => True

instance decidableUpToDate : (a : Action) → Decidable (UpToDate l s a)
  | .read _ _ _ _ => inferInstanceAs (Decidable (_ ∧ _))
  | .commit _ => isTrue trivial
  | .publish _ _ => isTrue trivial
  | .fold _ _ _ => isTrue trivial

end Steps

end Tier1

end LogLake
