import LogLake.Lib.Transition
import LogLake.Iceberg.Table
import LogLake.Time.Chrono

/-!
# Table subscriptions

A subscription keeps a time cursor and the snapshot it has read up to.
-/

namespace LogLake.Subscribe

open Iceberg

/-! ## The walk over the parent links -/

inductive Ancestry (σ : Type) where
  | reached (snapshots : List σ)
  | gap (missing child : Int)
  | cursorNotAncestor (snapshots : List σ)

def walkFrom {σ : Type} (id : σ → Int) (parent : σ → Option Int) (lookup : Int → Option σ) (cursorSnap : Int) :
    Nat → σ → List σ → List Int → Option (Ancestry σ)
  | 0, _, _, _ => none
  | fuel + 1, node, acc, seen =>
    if id node = cursorSnap then some (.reached acc)
    else
      match parent node with
      | none => some (.cursorNotAncestor (acc ++ [node]))
      | some pid =>
        if pid = cursorSnap then some (.reached (acc ++ [node]))
        else if pid ∈ seen then some (.gap pid (id node))
        else
          match lookup pid with
          | some parentSnap => walkFrom id parent lookup cursorSnap fuel parentSnap (acc ++ [node]) (pid :: seen)
          | none => some (.gap pid (id node))

variable {ρ : Type}

/-- `walk_ancestry` over the metadata of a table. -/
def walkAncestry (t : TableMetadata ρ) (current : Snapshot ρ) (cursorSnap : Int) : Ancestry (Snapshot ρ) :=
  (walkFrom Snapshot.id Snapshot.parent t.snapshotById cursorSnap (t.snapshots.length + 1) current [] []).getD
    (.gap current.id current.id)

/-! ## What a commit did -/

inductive CommitKind where
  | append | loglakeRewrite | foreignOverwrite
  deriving DecidableEq

def rewriteCommitProp : String := "loglake.rewrite"

def CommitKind.deliversAddedFiles (kind : CommitKind) : Bool := kind = .append

def classifyCommit (summary : Summary) : CommitKind :=
  match summary.operation with
  | .append => .append
  | .overwrite | .replace | .delete =>
    if summary.properties.any fun p => p.1 = rewriteCommitProp then .loglakeRewrite else .foreignOverwrite

/-! ## Reading -/

structure Reads (ρ : Type) where
  manifestList : Snapshot ρ → Bool
  manifest : ManifestFile ρ → Bool
  dataFile : DataFile ρ → Bool
  scan : Bool

variable (reads : Reads ρ)

/-- The files to read of one manifest of a snapshot: those it added. -/
def manifestTasks (snapshotId : Int) (m : ManifestFile ρ) : Option (List (DataFile ρ)) :=
  if m.addedSnapshotId ≠ snapshotId then some []
  else if m.content ≠ .data then some []
  else if reads.manifest m then
    some ((m.entries.filter fun e => e.status = .added && e.file.content = .data).map ManifestEntry.file)
  else none

/-- The files to read of one snapshot; those of a rewrite are skipped. -/
def snapshotTasks (s : Snapshot ρ) : Option (List (DataFile ρ)) :=
  if (classifyCommit s.summary).deliversAddedFiles then
    if reads.manifestList s then (s.manifests.mapM (manifestTasks reads s.id)).map List.flatten else none
  else some []

def readFile (f : DataFile ρ) : Option (List ρ) := if reads.dataFile f then some f.rows else none

/-- The rows of the files that the snapshots added. -/
def readAdded (snapshots : List (Snapshot ρ)) : Option (List ρ) :=
  (snapshots.mapM (snapshotTasks reads)).bind fun tasks => (tasks.flatten.mapM (readFile reads)).map List.flatten

/-! ## Polls -/

structure HistoryGap where
  table : String
  cursorSnapshotId : Int
  currentSnapshotId : Int
  missingSnapshotId : Int
  childSnapshotId : Int

inductive PollError where
  | historyGap (gap : HistoryGap)
  | readFailed
  | cursorOutOfRange

/-- `IcebergSubscription`: its table and its two cursors, the time in nanoseconds. -/
structure Subscription where
  tableName : String
  cursor : Int
  cursorSnapshotId : Option Int
  deriving DecidableEq

variable (time : ρ → Int) (sub : Subscription) (t : TableMetadata ρ) (reads : Reads ρ)

def Subscription.pollIncremental (cursorSnap : Int) : Except PollError (List ρ) :=
  match t.currentSnapshot with
  | none => .ok []
  | some current =>
    match walkAncestry t current cursorSnap with
    | .gap missing child => .error (.historyGap ⟨sub.tableName, cursorSnap, current.id, missing, child⟩)
    | .reached snapshots | .cursorNotAncestor snapshots =>
      (readAdded reads snapshots).elim (.error .readFailed) .ok

/-- `poll_full_scan_filtered`: the rows of the table after the time cursor. -/
def Subscription.pollFullScanFiltered : Except PollError (List ρ) :=
  if reads.scan then
    match timestampNanosOpt sub.cursor with
    | none => .error .cursorOutOfRange
    | some cursorNs => .ok ((t.currentSnapshot.elim [] Snapshot.liveRows).filter fun row => time row > cursorNs)
  else .error .readFailed

def Subscription.advanceCursors (rows : List ρ) (currentSnapshotId : Int) : Subscription :=
  let cursorNs := (timestampNanosOpt sub.cursor).getD 0
  let maxSeen := rows.foldl (fun m row => if time row > m then time row else m) cursorNs
  { sub with
    cursor := if maxSeen > cursorNs then maxSeen else sub.cursor
    cursorSnapshotId := some currentSnapshotId }

/-- The cursors move after a poll that returned rows, to the captured snapshot. -/
def Subscription.settle (currentSnapshotId : Int) : Except PollError (List ρ) → Except PollError (List ρ) × Subscription
  | .error e => (.error e, sub)
  | .ok rows => (.ok rows, sub.advanceCursors time rows currentSnapshotId)

/-- `poll_captured`: what the poll returns, and the subscription after it. -/
def Subscription.pollCaptured : Except PollError (List ρ) × Subscription :=
  match t.currentSnapshotId with
  | none => (.ok [], sub)
  | some current =>
    if sub.cursorSnapshotId = some current then (.ok [], sub)
    else
      match sub.cursorSnapshotId with
      | some cursorSnap => sub.settle time current (sub.pollIncremental t reads cursorSnap)
      | none => sub.settle time current (sub.pollFullScanFiltered time t reads)

/-! ## A subscription beside the writers of its table -/

inductive RewriteKind where
  | recluster | retention | deleteTask
  deriving DecidableEq

/-- The value of the marker property of a rewrite. -/
def RewriteKind.marker : RewriteKind → String
  | .recluster => "recluster"
  | .retention => "retention"
  | .deleteTask => "delete_task"

/-- A commit of the table's history: its snapshot, and the rows it appended. -/
structure Commit (ρ : Type) where
  snapshot : Snapshot ρ
  appended : List ρ

/-- A consumer: its subscription, the snapshot of its first poll, and the rows that the polls since then returned; a restart takes
none of them back. -/
structure Consumer (ρ : Type) where
  subscription : Subscription
  start : Option Int
  delivered : List ρ

/-- The table, every commit ever made to it, the consumer, the cursors that it last persisted, and the generation that a poll
in progress has captured. -/
structure State (ρ : Type) where
  table : TableMetadata ρ
  commits : List (Commit ρ)
  consumer : Consumer ρ
  persisted : Subscription
  captured : Option (TableMetadata ρ)

def State.init (tableName : String) (since : Int) : State ρ :=
  ⟨.empty, [], ⟨⟨tableName, since, none⟩, none, []⟩, ⟨tableName, since, none⟩, none⟩

inductive Action (ρ : Type) where
  | append (id : Int) (properties : List (String × String)) (files : List (DataFile ρ))
  | rewrite (kind : RewriteKind) (id : Int) (extra : List (String × String)) (added : List (DataFile ρ)) (removed : List Nat)
  | expire (n : Nat)
  | capture
  | poll (reads : Reads ρ)
  | abandon
  | persist
  | restart

variable (s : State ρ)

def State.committed (id : Int) (appended : List ρ) (result : Option (TableMetadata ρ)) : Option (State ρ) :=
  if s.commits.all fun c => c.snapshot.id ≠ id then
    result.bind fun table => table.snapshots.getLast?.map fun snapshot =>
      { s with table := table, commits := s.commits ++ [⟨snapshot, appended⟩] }
  else none

/-- The consumer after a poll: the first one starts its account. -/
def Consumer.polled (consumer : Consumer ρ) : Except PollError (List ρ) × Subscription → Consumer ρ
  | (.error _, sub) => { consumer with subscription := sub }
  | (.ok rows, sub) =>
    if consumer.subscription.cursorSnapshotId = none then ⟨sub, sub.cursorSnapshotId, []⟩
    else { consumer with subscription := sub, delivered := consumer.delivered ++ rows }

def step : Action ρ → Option (State ρ)
  | .append id properties files =>
    s.committed id (files.flatMap DataFile.rows) (s.table.fastAppend id properties files)
  | .rewrite kind id extra added removed =>
    s.committed id [] (s.table.rewriteFiles id ((rewriteCommitProp, kind.marker) :: extra) added removed)
  | .expire n => (s.table.expire n).map fun table => { s with table := table }
  | .capture => some { s with captured := some s.table }
  | .poll reads => s.captured.map fun t =>
    { s with consumer := s.consumer.polled (s.consumer.subscription.pollCaptured time t reads), captured := none }
  | .abandon => some { s with captured := none }
  | .persist => some { s with persisted := s.consumer.subscription }
  | .restart => some { s with consumer.subscription := s.persisted, captured := none }

/-- A restart finds the cursors as the consumer has them: no poll moved them since they were persisted. -/
def RestartsWhereItWas : Action ρ → Prop
  | .restart => s.persisted = s.consumer.subscription
  | _ => True

instance decidableRestartsWhereItWas (a : Action ρ) : Decidable (RestartsWhereItWas s a) :=
  match a with
  | .restart => inferInstanceAs (Decidable (s.persisted = s.consumer.subscription))
  | .append .. | .rewrite .. | .expire _ | .capture | .poll _ | .abandon | .persist => isTrue trivial

/-- The commits after one snapshot up to another, in the order they were made. -/
def commitsBetween (commits : List (Commit ρ)) (b c : Int) : List (Commit ρ) :=
  let position := fun id => (commits.map fun commit => commit.snapshot.id).idxOf id
  (commits.take (position c + 1)).drop (position b + 1)

/-- The rows of the appends in `(b, c]` have been delivered since the first poll at `b`, each at least once, and nothing but rows
of appends after `b`. -/
def State.DeliversAll : Prop :=
  ∀ c, s.consumer.subscription.cursorSnapshotId = some c →
    ∃ b, s.consumer.start = some b ∧
      ((commitsBetween s.commits b c).flatMap Commit.appended).Subperm s.consumer.delivered ∧
      ∀ row ∈ s.consumer.delivered, ∃ d, row ∈ (commitsBetween s.commits b d).flatMap Commit.appended

/-- The rows delivered since the first poll at `b` are those of the appends in `(b, c]`, each once. -/
def State.DeliversExactly : Prop :=
  ∀ c, s.consumer.subscription.cursorSnapshotId = some c →
    ∃ b, s.consumer.start = some b ∧
      s.consumer.delivered.Perm ((commitsBetween s.commits b c).flatMap Commit.appended)

end LogLake.Subscribe
