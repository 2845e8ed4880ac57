import LogLake.Text

/-!
# Disposition of orphaned segments

The segments a dead compactor left in `processing/` lie in `orphans/`.
-/

namespace LogLake.Disposition

/-- A file name; only a UTF-8 one can be read as a text. -/
inductive OsName where
  | utf8 (name : Text)
  | other (bytes : List UInt8)
  deriving DecidableEq

def OsName.toStr : OsName → Option Text
  | .utf8 name => some name
  | .other _ => none

/-! ## The table -/

/-- A snapshot of the table metadata: its time in milliseconds, and `CONSUMED_SEGMENTS_PROP` of its summary. -/
structure TableSnapshot where
  timestampMs : Int
  consumedSegmentsProp : Option Text
  deriving DecidableEq

/-- The segments a value of the property names. -/
def splitConsumed (v : Text) : List Text := (v.splitOn ',').filter fun s => !s.isEmpty

variable (snapshots : List TableSnapshot)

def cumulativeConsumedSegments : List Text :=
  (snapshots.filterMap TableSnapshot.consumedSegmentsProp).flatMap splitConsumed

def consumedSegmentsAndHistoryFloor : List Text × Option Int :=
  (cumulativeConsumedSegments snapshots, (snapshots.map TableSnapshot.timestampMs).min?)

/-! ## The directories -/

/-- A file of `orphans/`: its name and its modification time in whole milliseconds since the epoch, none when it cannot be read. -/
structure OrphanFile where
  fileName : OsName
  modified : Option Nat
  deriving DecidableEq

/-- A WAL directory: the files of `orphans/` as they are listed, and the names in `sealed/`. -/
structure WalDir where
  orphans : List OrphanFile
  sealed : List OsName

structure OrphanDisposition where
  deleted : List OrphanFile
  requeued : List OrphanFile
  deriving DecidableEq

structure Sweep where
  dir : WalDir
  disposed : OrphanDisposition

def historySkewMarginMs : Int := 5000

def i64Max : Int := 2 ^ 63 - 1

def addI64 (a b : Int) : Int := (a + b).bmod (2 ^ 64)

/-- `d.as_millis() as i64`. -/
def asI64 (millis : Nat) : Int := (millis : Int).bmod (2 ^ 64)

/-- The retained history covers the segment's life. -/
def covered : Option Int → Option Nat → Bool
  | none, _ => true
  | some floor, some sealedAt => addI64 floor historySkewMarginMs ≤ asI64 sealedAt
  | some _, none => false

inductive Verdict where
  | delete | requeue | hold
  deriving DecidableEq

def verdict (consumed : List Text) (floor : Option Int) (sealed : List OsName) (file : OrphanFile) : Verdict :=
  match file.fileName.toStr with
  | none => .hold
  | some name =>
    if name ∈ consumed then .delete
    else if !covered floor file.modified then .hold
    else if file.fileName ∈ sealed then .hold
    else .requeue

/-- The verdict on a file at the start of a disposition. -/
def verdictAt (dir : WalDir) (file : OrphanFile) : Verdict :=
  verdict (cumulativeConsumedSegments snapshots) (snapshots.map TableSnapshot.timestampMs).min? dir.sealed file

def Sweep.apply (s : Sweep) (file : OrphanFile) : Verdict → Sweep
  | .hold => s
  | .delete =>
    { dir := { s.dir with orphans := s.dir.orphans.erase file }
      disposed := { s.disposed with deleted := s.disposed.deleted ++ [file] } }
  | .requeue =>
    { dir := { orphans := s.dir.orphans.erase file, sealed := file.fileName :: s.dir.sealed }
      disposed := { s.disposed with requeued := s.disposed.requeued ++ [file] } }

/-- `classify_orphans`, with whether the unlink or the rename of a file succeeds; the first that does not ends it. -/
def classifyOrphans (io : OsName → Bool) (consumed : List Text) (floor : Option Int) : List OrphanFile → Sweep → Sweep × Bool
  | [], s => (s, true)
  | file :: rest, s =>
    let v := verdict consumed floor s.dir.sealed file
    if v = .hold ∨ io file.fileName then classifyOrphans io consumed floor rest (s.apply file v) else (s, false)

/-- What `dispose_orphans_at` leaves: the directory, what it disposed of, the number it reports as held and whether it succeeded. -/
structure Outcome where
  dir : WalDir
  disposed : OrphanDisposition
  held : Nat
  ok : Bool

def disposeOrphansAt (io : OsName → Bool) (snapshots : List TableSnapshot) (dir : WalDir) : Outcome :=
  if dir.orphans.isEmpty then ⟨dir, ⟨[], []⟩, 0, true⟩
  else
    let (consumed, floor) := consumedSegmentsAndHistoryFloor snapshots
    let (s, ok) := classifyOrphans io consumed floor dir.orphans ⟨dir, ⟨[], []⟩⟩
    ⟨s.dir, s.disposed, dir.orphans.length - s.disposed.deleted.length - s.disposed.requeued.length, ok⟩

/-! ## What has happened to the table -/

/-- A commit: the snapshot it wrote and the segments whose rows it appended. -/
structure Commit where
  snapshot : TableSnapshot
  segments : List Text
  deriving DecidableEq

/-- The commits to a table, oldest first, and how many of the oldest snapshots have expired. -/
structure TableHistory where
  commits : List Commit
  expired : Nat
  deriving DecidableEq

namespace TableHistory

variable (h : TableHistory)

def past : List Commit := h.commits.take h.expired

def kept : List Commit := h.commits.drop h.expired

def retained : List TableSnapshot := h.kept.map Commit.snapshot

/-- The rows of the file's segment are in the table. -/
def Committed (file : OrphanFile) : Prop :=
  ∃ name, file.fileName.toStr = some name ∧ ∃ c ∈ h.commits, name ∈ c.segments

/-- Every commit records its segments in its snapshot, the times of the snapshots are `i64` and do not go back, and the current
snapshot does not expire. -/
structure Sound (h : TableHistory) : Prop where
  records : ∀ c ∈ h.commits, ∀ name, name ∈ cumulativeConsumedSegments [c.snapshot] ↔ name ∈ c.segments
  ordered : h.commits.Pairwise fun c d => c.snapshot.timestampMs ≤ d.snapshot.timestampMs
  times : ∀ c ∈ h.commits, -2 ^ 63 ≤ c.snapshot.timestampMs ∧ c.snapshot.timestampMs ≤ i64Max
  current : h.expired ≤ h.commits.length - 1

end TableHistory

/-- A committed segment was sealed before its commit, as far as clocks that differ by at most the margin show. -/
def SealedInTime (h : TableHistory) (dir : WalDir) : Prop :=
  ∀ file ∈ dir.orphans, ∀ name, file.fileName.toStr = some name → ∀ c ∈ h.commits, name ∈ c.segments →
    ∀ sealedAt ∈ file.modified, (sealedAt : Int) ≤ c.snapshot.timestampMs + historySkewMarginMs

/-- A deleted segment has its rows in the table, a requeued one has not, every other one stays, and nothing else gets into `sealed/`. -/
structure Safe (h : TableHistory) (before : WalDir) (out : Outcome) : Prop where
  deleted : ∀ file ∈ out.disposed.deleted, h.Committed file
  requeued : ∀ file ∈ out.disposed.requeued, ¬ h.Committed file
  held : ∀ file ∈ before.orphans, file ∉ out.disposed.deleted → file ∉ out.disposed.requeued → file ∈ out.dir.orphans
  sealed : ∀ name, name ∈ out.dir.sealed ↔ name ∈ before.sealed ∨ ∃ file ∈ out.disposed.requeued, file.fileName = name

/-- The file's segment was consumed by an expired snapshot, by none that is retained, and the expired one cannot be told from one
after the floor: the floor is past the `i64` range once the margin is added and the time of the file is not, or the two have
the same time and the segment was sealed exactly the margin after it. -/
def OnTheEdge (h : TableHistory) (file : OrphanFile) : Prop :=
  ∃ name sealedAt, file.fileName.toStr = some name ∧ file.modified = some sealedAt ∧ (∀ c ∈ h.kept, name ∉ c.segments) ∧
    ∃ c ∈ h.past, name ∈ c.segments ∧ ∃ oldest ∈ h.kept.head?,
      i64Max - historySkewMarginMs < oldest.snapshot.timestampMs ∧ (sealedAt : Int) ≤ i64Max ∨
        c.snapshot.timestampMs = oldest.snapshot.timestampMs ∧
          (sealedAt : Int) = c.snapshot.timestampMs + historySkewMarginMs

/-! ## Two hosts -/

/-- The clocks of the host that seals and of the host that commits, in milliseconds, by moments of a common time: neither goes
back, and they differ by at most the margin. -/
structure Clocks where
  sealing : Nat → Nat
  committing : Nat → Nat
  sealing_mono : Monotone sealing
  committing_mono : Monotone committing
  close : ∀ t, (sealing t : Int) ≤ committing t + historySkewMarginMs ∧ (committing t : Int) ≤ sealing t + historySkewMarginMs

/-- The present moment, the moments segments were sealed at, and the table. -/
structure World where
  now : Nat
  sealedAt : List (Text × Nat)
  history : TableHistory
  deriving DecidableEq

/-- `start_segment`: the name of a segment's file. -/
def segmentName (ingesterId uuid : Text) : Text := ingesterId ++ '-' :: uuid ++ ".arrow".toList

/-- The property a commit of the segments writes. -/
def consumedProp (names : List Text) : Option Text := if names.isEmpty then none else some ([','].intercalate names)

/-- Time passes, a segment is sealed, sealed segments are committed, the oldest snapshots expire. -/
inductive Event where
  | pass (moments : Nat)
  | sealing (ingesterId uuid : Text)
  | commit (names : List Text)
  | expire (count : Nat)

def World.names (w : World) : List Text := w.sealedAt.map Prod.fst

variable (clocks : Clocks) (w : World)

/-- One event; a commit's time is an `i64`. -/
def worldStep : Event → Option World
  | .pass moments => some { w with now := w.now + moments }
  | .sealing ingesterId uuid =>
    if segmentName ingesterId uuid ∈ w.names then none
    else some { w with sealedAt := (segmentName ingesterId uuid, w.now) :: w.sealedAt }
  | .commit names =>
    if (∀ name ∈ names, name ∈ w.names) ∧ (clocks.committing w.now : Int) ≤ i64Max then
      some { w with history.commits := w.history.commits ++ [⟨⟨clocks.committing w.now, consumedProp names⟩, names⟩] }
    else none
  | .expire count =>
    if w.history.expired ≤ count ∧ count < w.history.commits.length then some { w with history.expired := count } else none

def World.init : World := ⟨0, [], ⟨[], 0⟩⟩

/-- The files show the times their segments were sealed at. -/
def ReadsSealTimes (dir : WalDir) : Prop :=
  ∀ file ∈ dir.orphans, ∀ name, file.fileName.toStr = some name → ∀ m ∈ file.modified,
    ∃ t, (name, t) ∈ w.sealedAt ∧ m = clocks.sealing t

/-- The names of the segments hold no comma. -/
def Event.Plain : Event → Prop
  | .sealing ingesterId uuid => ',' ∉ ingesterId ∧ ',' ∉ uuid
  | _ => True

/-- A commit falls into a later millisecond than those before it. -/
def Event.Apart : Event → Prop
  | .commit _ => ∀ c ∈ w.history.commits, c.snapshot.timestampMs < clocks.committing w.now
  | _ => True

end LogLake.Disposition
