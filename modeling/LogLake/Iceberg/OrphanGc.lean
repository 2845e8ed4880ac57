import LogLake.Iceberg.Table
import LogLake.Lib.Transition
import LogLake.Text

/-!
# Orphan garbage collection beside writers

`gc_orphans` reads which files the retained snapshots reach, then the clock, then lists the table's
directories and looks up the age of every file it does not know as reachable, and at last deletes
those that are old enough.
-/

namespace LogLake.OrphanGc

open Iceberg (ManifestStatus)

/-- A path in the table metadata, keyed by the table location. -/
inductive TablePath where
  | under (rel : Text)
  | outside (path : Text)
  deriving DecidableEq

/-- A manifest: its own path, and the status and path of every data file it lists. -/
structure ManifestFile where
  path : TablePath
  entries : List (ManifestStatus × TablePath)
  deriving DecidableEq

/-- A snapshot: the path of its manifest list, and the manifests in it. -/
structure Snapshot where
  manifestList : TablePath
  manifests : List ManifestFile
  deriving DecidableEq

structure TableMetadata where
  snapshots : List Snapshot
  statistics : List TablePath
  deriving DecidableEq

def isAlive (status : ManifestStatus) : Bool := decide (status ≠ .deleted)

/-- The manifest and the alive data files it lists. -/
def ManifestFile.reachableFiles (m : ManifestFile) : List TablePath :=
  m.path :: (m.entries.filter fun entry => isAlive entry.1).map Prod.snd

/-- `reachable_files`: the statistics files and, for every retained snapshot, its manifest list, its manifests and the alive data
files in them. -/
def TableMetadata.reachableFiles (m : TableMetadata) : List TablePath :=
  m.statistics ++ m.snapshots.flatMap fun snapshot =>
    snapshot.manifestList :: snapshot.manifests.flatMap ManifestFile.reachableFiles

/-- A path that is relative to the location. -/
def TablePath.rel? : TablePath → Option Text
  | .under rel => some rel
  | .outside _ => none

structure StoredFile where
  rel : Text
  modified : Nat
  deriving DecidableEq

def wholeSeconds (time : Nat) : Nat := time / 1000000000

/-- The age check: not modified after the reading of the clock, and at least `minAge` old, in whole seconds. -/
def OldEnough (minAge now modified : Nat) : Prop :=
  wholeSeconds modified ≤ wholeSeconds now ∧ wholeSeconds minAge ≤ wholeSeconds now - wholeSeconds modified

instance decidableOldEnough (minAge now modified : Nat) : Decidable (OldEnough minAge now modified) :=
  inferInstanceAs (Decidable (_ ∧ _))

/-- What the collector lists: the data and metadata directories, without the metadata files and what the aggregates own. -/
def isCandidate (rel : Text) : Bool :=
  ("data/".toList.isPrefixOf rel || "metadata/".toList.isPrefixOf rel) &&
    !(".metadata.json".toList.isSuffixOf rel || "version-hint.text".toList.isSuffixOf rel ||
      containsText rel "metadata/loglake-agg".toList)

inductive Phase where
  | idle
  | reached (reachable : List Text)
  | listing (reachable : List Text) (now : Nat) (toDelete : List Text)
  | deleting (reachable : List Text) (now : Nat) (toDelete : List Text)
  deriving DecidableEq

/-- The reachable files of a run that has not read the clock. -/
def Phase.reached? : Phase → Option (List Text)
  | .reached reachable => some reachable
  | _ => none

/-- What a run goes by after its reading of the clock. -/
def Phase.aged? : Phase → Option (List Text × Nat × List Text)
  | .listing reachable now toDelete | .deleting reachable now toDelete => some (reachable, now, toDelete)
  | _ => none

structure State where
  clock : Nat
  files : List StoredFile
  /-- Every path that was ever written; file names are not drawn twice. -/
  written : List Text
  metadata : TableMetadata
  phase : Phase
  /-- The files that were deleted while the metadata referenced them. -/
  lost : List Text
  deriving DecidableEq

def State.init : State := ⟨0, [], [], ⟨[], []⟩, .idle, []⟩

inductive Action where
  | tick (elapsed : Nat)
  | write (rel : Text)
  | commit (metadata : TableMetadata)
  /-- `reachable_files`; the run stops when a path is outside the table location. -/
  | reach
  | readClock
  | visit (file : Nat) (known : Bool)
  | listed
  | delete
  | stop
  deriving DecidableEq

variable (minAge : Nat)

def Marks (reachable : List Text) (now : Nat) (file : StoredFile) (known : Bool) : Prop :=
  isCandidate file.rel = true ∧ file.rel ∉ reachable ∧ known = true ∧ OldEnough minAge now file.modified

instance decidableMarks (reachable : List Text) (now : Nat) (file : StoredFile) (known : Bool) :
    Decidable (Marks minAge reachable now file known) :=
  inferInstanceAs (Decidable (_ ∧ _))

variable (s : State)

/-- A writer references only what was referenced or what is in the store. -/
def State.Admits (metadata : TableMetadata) : Prop :=
  ∀ rel, .under rel ∈ metadata.reachableFiles → .under rel ∈ s.metadata.reachableFiles ∨ rel ∈ s.files.map StoredFile.rel

/-- The paths of the new metadata are checked one by one. -/
instance decidableAdmits (metadata : TableMetadata) : Decidable (s.Admits metadata) :=
  decidable_of_iff (∀ rel ∈ metadata.reachableFiles.filterMap TablePath.rel?,
      .under rel ∈ s.metadata.reachableFiles ∨ rel ∈ s.files.map StoredFile.rel) <| by
    refine forall_congr' fun rel => imp_congr_left ⟨fun hrel => ?_, fun hrel => ?_⟩
    · obtain ⟨path, hpath, hrel⟩ := List.mem_filterMap.mp hrel
      cases path with
      | under rel' =>
        cases hrel
        exact hpath
      | outside path => cases hrel
    · exact List.mem_filterMap.mpr ⟨.under rel, hrel, rfl⟩

/-- One step, with the collector's `min_age`. -/
def step : Action → Option State
  | .tick elapsed => some { s with clock := s.clock + elapsed }
  | .write rel =>
    if rel ∉ s.written then
      some { s with files := s.files ++ [⟨rel, s.clock⟩], written := s.written ++ [rel] }
    else none
  | .commit metadata => if s.Admits metadata then some { s with metadata := metadata } else none
  | .reach =>
    if s.phase = .idle ∧ ∀ path ∈ s.metadata.reachableFiles, path.rel?.isSome then
      some { s with phase := .reached (s.metadata.reachableFiles.filterMap TablePath.rel?) }
    else none
  | .readClock =>
    match s.phase with
    | .reached reachable => some { s with phase := .listing reachable s.clock [] }
    | _ => none
  | .visit file known =>
    match s.phase with
    | .listing reachable now toDelete =>
      s.files[file]?.map fun f =>
        if Marks minAge reachable now f known then
          { s with phase := .listing reachable now (toDelete ++ [f.rel]) }
        else s
    | _ => none
  | .listed =>
    match s.phase with
    | .listing reachable now toDelete => some { s with phase := .deleting reachable now toDelete }
    | _ => none
  | .delete =>
    match s.phase with
    | .deleting reachable now (rel :: toDelete) =>
      some { s with
        files := s.files.filter fun f => f.rel ≠ rel
        phase := .deleting reachable now toDelete
        lost := if .under rel ∈ s.metadata.reachableFiles then s.lost ++ [rel] else s.lost }
    | _ => none
  | .stop => some { s with phase := .idle }

/-- Every writer commits less than `minAge` after the modification of the files it references for the first time. -/
def CommitsInTime : Action → Prop
  | .commit metadata => ∀ f ∈ s.files, .under f.rel ∈ metadata.reachableFiles → .under f.rel ∉ s.metadata.reachableFiles →
      s.clock < f.modified + minAge
  | _ => True

/-- A file that comes to be referenced after a run has read the reachable files is too young for it: not yet `minAge` old, in
whole seconds, when the run reads the clock. -/
def YoungAtClock : Action → Prop
  | .readClock => ∀ reachable ∈ s.phase.reached?, ∀ f ∈ s.files, .under f.rel ∈ s.metadata.reachableFiles →
      f.rel ∉ reachable → ¬ OldEnough minAge s.clock f.modified
  | .commit metadata => ∀ aged ∈ s.phase.aged?, ∀ f ∈ s.files, .under f.rel ∈ metadata.reachableFiles →
      .under f.rel ∉ s.metadata.reachableFiles → f.rel ∉ aged.1 → ¬ OldEnough minAge aged.2.1 f.modified
  | _ => True

instance decidableCommitsInTime (a : Action) : Decidable (CommitsInTime minAge s a) := by
  cases a <;> (dsimp only [CommitsInTime]; infer_instance)

instance decidableYoungAtClock (a : Action) : Decidable (YoungAtClock minAge s a) := by
  cases a <;> (dsimp only [YoungAtClock]; infer_instance)

end LogLake.OrphanGc
