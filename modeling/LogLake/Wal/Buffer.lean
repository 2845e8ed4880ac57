import LogLake.Lib.Transition
import LogLake.Wal.Dirs

/-!
# A real-time scan beside the drain

A scan of the union of the table and the write-ahead log takes a base snapshot from the table cache,
lists the three segment directories one after the other, and then reads the listed paths.
-/

namespace LogLake

def recentCommittedWindow : Nat := 300

/-- The age up to which the table cache serves a superseded snapshot: `STALE_TABLE_CACHE_CEILING_MULT` times the TTL. -/
def staleCeiling : Nat := 60

/-- `DEFAULT_RETENTION`: the least age at which the sweep removes a file of `committed/`. -/
def sweepFloor : Nat := 60

inductive ScanPhase where
  | idle
  | listing (base begun : List Text) (dirs : List SegmentDir) (paths : List (SegmentDir × Text))
  | reading (base begun : List Text) (paths : List (SegmentDir × Text)) (out : List Text)
  deriving DecidableEq

/-- The snapshot a scan goes by. -/
def ScanPhase.base : ScanPhase → Option (List Text)
  | .idle => none
  | .listing base _ _ _ => some base
  | .reading base _ _ _ => some base

def ScanPhase.paths : ScanPhase → List (SegmentDir × Text)
  | .idle => []
  | .listing _ _ _ paths => paths
  | .reading _ _ paths _ => paths

/-- The paths a scan has listed and not read yet; while it lists it reads none. -/
def ScanPhase.unread : ScanPhase → List (SegmentDir × Text)
  | .reading _ _ paths _ => paths
  | _ => []

def ScanPhase.out : ScanPhase → List Text
  | .reading _ _ _ out => out
  | _ => []

structure BufferState where
  now : Nat
  dirs : WalDirs
  mtime : SortedMap Text Nat
  consumed : List Text
  /-- The superseded snapshots: the moment another took their place, and the segments they had committed. -/
  history : List (Nat × List Text)
  scan : ScanPhase

def BufferState.init : BufferState := ⟨0, SortedMap.empty, SortedMap.empty, [], [], .idle⟩

variable (s : BufferState) (base : List Text)

/-- Whether `list_uncommitted_segments` takes a file of a directory: not one the base snapshot has committed, and from
`committed/` only files younger than the window. -/
def BufferState.eligible (dir : SegmentDir) (name : Text) : Bool :=
  (dir != .committed || (s.mtime.get? name).any fun t => s.now < t + recentCommittedWindow) && !base.contains name

def BufferState.listUncommittedSegments (dir : SegmentDir) : List (SegmentDir × Text) :=
  ((s.dirs.list dir).filter (s.eligible base dir)).map fun name => (dir, name)

inductive BufferAction where
  | tick (seconds : Nat)
  | sealNew (name : Text)
  | claim (name : Text)
  | release (name : Text)
  | commit (names : List Text)
  | finish (name : Text)
  | sweep (name : Text)
  | takeCurrent
  | takeSuperseded (index : Nat)
  | listNext
  | readNext
  deriving DecidableEq

/-- The segment an action moves to another directory or removes. -/
def BufferAction.moved : BufferAction → Option Text
  | .claim name | .release name | .finish name | .sweep name => some name
  | _ => none

/-- A scan that has taken its base snapshot: all segments sealed so far, and the directories in the order in which they
are listed. -/
def BufferState.begin : BufferState :=
  { s with scan := .listing base (s.mtime.keysWith fun _ => true) [.sealed, .processing, .committed] [] }

def bufferStep : BufferAction → Option BufferState
  | .tick seconds => some { s with now := s.now + seconds }
  | .sealNew name =>
    if s.mtime.get? name = none then
      (sealSegment s.dirs name).map fun dirs => { s with dirs := dirs, mtime := s.mtime.upsert name fun _ => s.now }
    else none
  | .claim name => (claimSegment s.dirs name).map fun dirs => { s with dirs := dirs }
  | .release name =>
    if name ∈ s.consumed then none else (releaseSegment s.dirs name).map fun dirs => { s with dirs := dirs }
  | .commit names =>
    if names.Nodup ∧ ∀ n ∈ names, s.dirs.get? n = some .processing ∧ n ∉ s.consumed then
      some { s with consumed := names ++ s.consumed, history := (s.now, s.consumed) :: s.history }
    else none
  | .finish name =>
    if name ∈ s.consumed then (finishSegment s.dirs name).map fun dirs => { s with dirs := dirs } else none
  | .sweep name =>
    if (s.mtime.get? name).any fun t => t + sweepFloor ≤ s.now then
      (sweepSegment s.dirs name).map fun dirs => { s with dirs := dirs }
    else none
  | .takeCurrent => if s.scan = .idle then some (s.begin s.consumed) else none
  | .takeSuperseded index =>
    if s.scan = .idle then s.history[index]?.bind fun (superseded, base) =>
      if s.now < superseded + staleCeiling then some (s.begin base) else none
    else none
  | .listNext => match s.scan with
    | .listing base begun (dir :: rest) paths =>
      -- The listing is sorted by path, and the directories sort in the reverse of the order in which they are listed.
      some { s with scan := .listing base begun rest (s.listUncommittedSegments base dir ++ paths) }
    | .listing base begun [] paths => some { s with scan := .reading base begun paths [] }
    | _ => none
  | .readNext => match s.scan with
    | .reading base begun ((dir, name) :: rest) out =>
      -- A path whose file has moved cannot be read; it is skipped.
      some { s with scan := .reading base begun rest (if s.dirs.get? name = some dir then name :: out else out) }
    | _ => none

/-- The rows of a finished scan, each with its segment: those of the base snapshot and those read from the buffer. -/
def scanRows {ρ : Type*} (rowsOf : Text → List ρ) (base out : List Text) : List (Text × ρ) :=
  (base ++ out).flatMap fun name => (rowsOf name).map fun row => (name, row)

/-- Every row of every segment sealed before the scan began is returned exactly once. -/
def ScanSeesEachRowOnce {ρ : Type*} (rowsOf : Text → List ρ) (s : BufferState) : Prop :=
  ∀ base begun out, s.scan = .reading base begun [] out → ∀ n ∈ begun,
    (scanRows rowsOf base out).filter (fun r => r.1 = n) = (rowsOf n).map fun row => (n, row)

end LogLake
