import LogLake.Catalog.Ledger

/-!
# The consumed proof of a table

A commit that appends the rows of segments also records the segments, with the times they were
claimed at, in a property of the table; both are one transaction.
-/

namespace LogLake.Catalog

structure ConsumedProofEntry where
  segmentId : Text
  claimedAt : Int
  deriving DecidableEq

structure ConsumedProof where
  coverageStart : Option Int
  acknowledgedThrough : Option Int
  entries : KeyedTable ConsumedProofEntry.segmentId

inductive ConsumedProofError where
  | emptySegmentId
  deriving DecidableEq

namespace ConsumedProof

def empty (coverageStart : Option Int) : ConsumedProof where
  coverageStart := coverageStart
  acknowledgedThrough := none
  entries := KeyedTable.empty

variable (proof : ConsumedProof)

def contains (segmentId : Text) : Bool := (proof.entries.row segmentId).isSome

/-- `compact_through`: the watermark only grows, and the entries it covers go. -/
def compactThrough (through : Int) : ConsumedProof :=
  let watermark := proof.acknowledgedThrough.elim through fun current => max current through
  { proof with
    acknowledgedThrough := some watermark
    entries := proof.entries.retain fun entry => entry.claimedAt > watermark }

def pruneTerminalEntries (terminal : List Text) : ConsumedProof :=
  { proof with entries := proof.entries.retain fun entry => entry.segmentId ∉ terminal }

/-- `insert`: a segment keeps its earliest time. -/
def insert (entry : ConsumedProofEntry) : Except ConsumedProofError ConsumedProof :=
  if entry.segmentId.isEmpty then .error .emptySegmentId
  else
    let modified := proof.entries.update (fun existing => existing.segmentId = entry.segmentId)
      (fun existing => { existing with claimedAt := min existing.claimedAt entry.claimedAt }) fun _ => rfl
    .ok { proof with entries := modified.insertNew entry }

end ConsumedProof

/-- A snapshot, as far as the proofs read it: its time and the segments of its summary. -/
structure ProofSnapshot where
  timestamp : Int
  consumed : List Text

def retainedHistoryFloor (snapshots : List ProofSnapshot) : Option Int := (snapshots.map ProofSnapshot.timestamp).min?

/-- `seed_from_retained_history`: the segments of the retained summaries, at the times of their snapshots. -/
def seedFromRetainedHistory (snapshots : List ProofSnapshot) : Except ConsumedProofError ConsumedProof :=
  (snapshots.flatMap fun snapshot => (snapshot.consumed.filter fun id => !id.isEmpty).map fun segmentId =>
    ConsumedProofEntry.mk segmentId snapshot.timestamp).foldlM ConsumedProof.insert
      (ConsumedProof.empty (retainedHistoryFloor snapshots))

structure MergeConsumedProof where
  additions : List ConsumedProofEntry
  acknowledgedThrough : Option Int
  terminal : List Text

/-- What `MergeConsumedProofAction::commit` makes of the property, or of the retained history when it is absent. -/
def MergeConsumedProof.commit (action : MergeConsumedProof) (property : Option ConsumedProof)
    (snapshots : List ProofSnapshot) : Except ConsumedProofError ConsumedProof :=
  (property.elim (seedFromRetainedHistory snapshots) .ok).bind fun proof =>
    let compacted := action.acknowledgedThrough.elim proof proof.compactThrough
    action.additions.foldlM ConsumedProof.insert (compacted.pruneTerminalEntries action.terminal)

def basename (id : Text) : Text := id ++ ".arrow".toList

structure ReclaimProofSources where
  durable : Option ConsumedProof
  retained : List Text

/-- The test of `reclaim_with_proof_older_than`: one of the sources holds the segment. -/
def ReclaimProofSources.proves (sources : ReclaimProofSources) (id : Text) : Bool :=
  sources.durable.any (fun proof => proof.contains (basename id) || proof.contains id) ||
    sources.retained.contains (basename id) || sources.retained.contains id

def watermarkForIncarnation (watermark : Option ConsumedProofWatermark) (verified : Option Text) : Option Int :=
  (watermark.filter fun w => w.tableUuid = verified).map ConsumedProofWatermark.acknowledgedThrough

/-- The catalog id of a name in the proof, in `terminal_consumed_proof_entries`. -/
def catalogId (segmentId : Text) : Text := (stripSuffix ".arrow".toList segmentId).getD segmentId

/-- `terminal_consumed_proof_entries`: the names in the proof whose rows are committed. -/
def terminalEntries (proof : Option ConsumedProof) (tenant indexId : Text) (ledger : Ledger) : List Text :=
  (proof.elim [] fun proof => proof.entries.rows.map ConsumedProofEntry.segmentId).filter fun segmentId =>
    (ledger.row (catalogId segmentId)).any fun row =>
      row.tenant = tenant ∧ row.indexId = indexId ∧ row.status = .committed

end LogLake.Catalog
