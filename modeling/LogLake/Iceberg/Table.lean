import Mathlib

/-!
# Iceberg tables

The metadata of a table is its retained snapshots, oldest first, and the current one.
-/

namespace LogLake.Iceberg

inductive DataContentType where
  | data | positionDeletes | equalityDeletes
  deriving DecidableEq

inductive ManifestContentType where
  | data | deletes
  deriving DecidableEq

inductive ManifestStatus where
  | existing | added | deleted
  deriving DecidableEq

inductive Operation where
  | append | replace | overwrite | delete
  deriving DecidableEq

/-- A data file: its path, its content type and the rows in it. -/
structure DataFile (ρ : Type) where
  path : Nat
  content : DataContentType
  rows : List ρ

structure ManifestEntry (ρ : Type) where
  status : ManifestStatus
  file : DataFile ρ

/-- A manifest: the snapshot that wrote it, its kind and its entries. -/
structure ManifestFile (ρ : Type) where
  addedSnapshotId : Int
  content : ManifestContentType
  entries : List (ManifestEntry ρ)

structure Summary where
  operation : Operation
  properties : List (String × String)

structure Snapshot (ρ : Type) where
  id : Int
  parent : Option Int
  summary : Summary
  manifests : List (ManifestFile ρ)

/-- The table metadata a commit reads and a load returns. -/
structure TableMetadata (ρ : Type) where
  snapshots : List (Snapshot ρ)
  currentSnapshotId : Option Int

variable {ρ : Type}

def TableMetadata.empty : TableMetadata ρ := ⟨[], none⟩

variable (t : TableMetadata ρ) (id : Int)

def TableMetadata.snapshotById : Option (Snapshot ρ) :=
  t.snapshots.find? fun s => s.id = id

def TableMetadata.currentSnapshot : Option (Snapshot ρ) := t.currentSnapshotId.bind t.snapshotById

def ManifestEntry.isAlive (e : ManifestEntry ρ) : Bool := e.status = .added || e.status = .existing

/-- `has_added_files`, `has_existing_files` and `has_deleted_files`. -/
def ManifestFile.hasFiles (m : ManifestFile ρ) (status : ManifestStatus) : Bool := m.entries.any fun e => e.status = status

/-- The rows a scan of a snapshot reads: those of the live files. -/
def Snapshot.liveRows (s : Snapshot ρ) : List ρ :=
  s.manifests.flatMap fun m => (m.entries.filter ManifestEntry.isAlive).flatMap fun e => e.file.rows

/-! ## Commits -/

variable (operation : Operation)

/-- `existing_manifest`: what an append, or a rewrite that removes nothing, carries forward. -/
def TableMetadata.existingManifests : List (ManifestFile ρ) :=
  t.currentSnapshot.elim [] fun s => s.manifests.filter fun m =>
    m.hasFiles .added || m.hasFiles .existing || (operation = .append && m.hasFiles .deleted)

/-- A manifest written anew by a removal: removed files are recorded as deleted, the other live ones as existing. -/
def ManifestFile.without (m : ManifestFile ρ) (id : Int) (removed : List Nat) : ManifestFile ρ :=
  ⟨id, .data, (m.entries.filter ManifestEntry.isAlive).map fun e =>
    ⟨if e.file.path ∈ removed then .deleted else .existing, e.file⟩⟩

def ManifestFile.touches (m : ManifestFile ρ) (removed : List Nat) : Bool :=
  m.entries.any fun e => e.isAlive && e.file.path ∈ removed

/-- `rewrite_existing_manifests_for_removal`, `none` when not every removed file is live. -/
def TableMetadata.rewriteManifestsForRemoval (removed : List Nat) : Option (List (ManifestFile ρ)) :=
  t.currentSnapshot.bind fun s =>
    let matched := s.manifests.flatMap fun m => m.entries.filter fun e => e.isAlive && e.file.path ∈ removed
    if matched.length = removed.length then
      some (s.manifests.flatMap fun m =>
        if m.touches removed then [m.without id removed]
        else if m.hasFiles .added || m.hasFiles .existing then [m] else [])
    else none

def addedManifest (files : List (DataFile ρ)) : ManifestFile ρ :=
  ⟨id, .data, files.map fun f => ⟨.added, f⟩⟩

variable (properties : List (String × String)) (added : List (DataFile ρ)) (removed : List Nat)

def TableMetadata.manifestFiles : Option (List (ManifestFile ρ)) :=
  if added.isEmpty && removed.isEmpty && properties.isEmpty then none
  else
    (if removed.isEmpty then some (t.existingManifests operation) else t.rewriteManifestsForRemoval id removed).map
      fun existing => existing ++ if added.isEmpty then [] else [addedManifest id added]

/-- `SnapshotProducer::commit` and its application: the new snapshot, a child of the current one, becomes current. -/
def TableMetadata.commit : Option (TableMetadata ρ) :=
  if added.all (fun f => f.content = .data) && t.snapshots.all fun s => s.id ≠ id then
    (t.manifestFiles id operation properties added removed).map fun manifests =>
      ⟨t.snapshots ++ [⟨id, t.currentSnapshotId, ⟨operation, properties⟩, manifests⟩], some id⟩
  else none

def TableMetadata.fastAppend (files : List (DataFile ρ)) : Option (TableMetadata ρ) :=
  t.commit id .append properties files []

def TableMetadata.rewriteFiles : Option (TableMetadata ρ) :=
  if added.isEmpty && removed.isEmpty then none else t.commit id .overwrite properties added removed

/-- `ExpireSnapshotsAction` on a linear history: the oldest snapshots go, never the current one. -/
def TableMetadata.expire (n : Nat) : Option (TableMetadata ρ) :=
  if n < t.snapshots.length then some { t with snapshots := t.snapshots.drop n } else none

end LogLake.Iceberg
