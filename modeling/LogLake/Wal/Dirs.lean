import LogLake.Lib.Ordered
import LogLake.Text

/-!
# The segment directories of a write-ahead log

A sealed segment lies in one of three directories and is moved between them by atomic renames, so a
name has at most one location at any instant.
-/

namespace LogLake

inductive SegmentDir where
  | sealed | processing | committed
  deriving DecidableEq, Repr

/-- The location of every segment file, by name. -/
abbrev WalDirs : Type := SortedMap Text SegmentDir

variable (dirs : WalDirs)

/-- `list_segments`: the file names of one directory, ascending. -/
def WalDirs.list (dir : SegmentDir) : List Text := dirs.keysWith fun d => d = dir

/-- A rename of a file from one directory to another; it fails when the file is not there. -/
def WalDirs.rename (source target : SegmentDir) (name : Text) : Option WalDirs :=
  if dirs.get? name = some source then some (dirs.upsert name fun _ => target) else none

variable (name : Text)

def claimSegment : Option WalDirs := dirs.rename .sealed .processing name

def releaseSegment : Option WalDirs := dirs.rename .processing .sealed name

def finishSegment : Option WalDirs := dirs.rename .processing .committed name

def sweepSegment : Option WalDirs :=
  if dirs.get? name = some .committed then some (dirs.erase name) else none

/-- The rename of a sealed file into `sealed/` under a name no directory holds. -/
def sealSegment : Option WalDirs :=
  if dirs.get? name = none then some (dirs.upsert name fun _ => .sealed) else none

/-- The segment is in one of the directories. -/
def WalDirs.Holds : Prop := ∃ d, dirs.get? name = some d

instance WalDirs.decidableHolds : Decidable (dirs.Holds name) :=
  decidable_of_iff ((dirs.get? name).isSome = true) Option.isSome_iff_exists

variable {name : Text}

theorem WalDirs.mem_list {dirs : WalDirs} {dir : SegmentDir} : name ∈ dirs.list dir ↔ dirs.get? name = some dir := by
  unfold WalDirs.list
  rw [SortedMap.mem_keysWith]
  simp

variable {dirs dirs' : WalDirs}

/-- What a rename does: the file was in the source directory, is in the target, and no other file moves. -/
theorem WalDirs.rename_eq_some {source target : SegmentDir}
    (h : dirs.rename source target name = some dirs') : dirs.get? name = some source ∧
      ∀ n, dirs'.get? n = if n = name then some target else dirs.get? n := by
  unfold WalDirs.rename at h
  split at h
  · next hsrc =>
    rw [Option.some.injEq] at h
    subst h
    exact ⟨hsrc, fun n => SortedMap.get?_upsert ..⟩
  · cases h

/-- What a seal does: the name was free, the file is in `sealed/`, and no other file moves. -/
theorem sealSegment_eq_some (h : sealSegment dirs name = some dirs') :
    dirs.get? name = none ∧ ∀ n, dirs'.get? n = if n = name then some .sealed else dirs.get? n := by
  unfold sealSegment at h
  split at h
  · next hfree =>
    rw [Option.some.injEq] at h
    subst h
    exact ⟨hfree, fun n => SortedMap.get?_upsert ..⟩
  · cases h

/-- What the sweep of a file does: the file was in `committed/`, is gone, and no other file moves. -/
theorem sweepSegment_eq_some (h : sweepSegment dirs name = some dirs') :
    dirs.get? name = some .committed ∧ ∀ n, dirs'.get? n = if n = name then none else dirs.get? n := by
  unfold sweepSegment at h
  split at h
  · next hsrc =>
    rw [Option.some.injEq] at h
    subst h
    exact ⟨hsrc, fun n => SortedMap.get?_erase ..⟩
  · cases h

end LogLake
