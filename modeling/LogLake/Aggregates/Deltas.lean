import LogLake.Aggregates.Coverage
import LogLake.Lib.ConditionalStore

/-!
# Folding group-count deltas

A commit writes its group counts as a small object of its own, keyed by the sequence number.
-/

namespace LogLake

structure GroupCountDelta (δ : Type) where
  coverageLink : Option AggregateCoverageLink
  counts : δ

/-- The counts by column, exact and sketched: none; a delta merged in, with the columns over the cap demoted;
`reconcile_split_columns` after the last delta; and whether anything is counted. -/
structure WideMerge (κ δ : Type) where
  empty : κ
  absorb : κ → δ → κ
  reconcile : κ → κ
  isSome : κ → Bool

/-- `WideGroupCounts`, and beside it the deltas merged into it so far, the last one first, which the object does not say. -/
structure WideGroupCounts (κ : Type) extends SnapshotAggregates κ where
  absorbed : List Int
  rebuiltThrough : Option Int
  merged : List Int

variable {κ δ : Type}

namespace WideGroupCounts

def empty (m : WideMerge κ δ) : WideGroupCounts κ := ⟨⟨none, [], m.empty⟩, [], none, []⟩

variable (wide : WideGroupCounts κ)

/-- A delta at or below the rebuild watermark: the rebuild read its rows from the files. -/
def Redundant (seq : Int) : Prop := ∃ through ∈ wide.rebuiltThrough, seq ≤ through

instance decidableRedundant (seq : Int) : Decidable (wide.Redundant seq) :=
  inferInstanceAs (Decidable (∃ through ∈ wide.rebuiltThrough, _))

variable (present : List Int)

def outstanding : List Int :=
  present.filter fun seq => seq ∉ wide.absorbed ∧ ¬wide.Redundant seq

def toDelete : List Int :=
  present.filter fun seq => seq ∈ wide.absorbed ∨ wide.Redundant seq

def pruned : List Int := wide.absorbed.filter fun seq => seq ∉ present

variable (m : WideMerge κ δ)

def mergeDelta (delta : Int → GroupCountDelta δ) (wide : WideGroupCounts κ) (seq : Int) : WideGroupCounts κ :=
  let covered := ((delta seq).coverageLink.map wide.addCoverageLink).getD wide.toSnapshotAggregates
  { wide with
    toSnapshotAggregates := { covered with counts := m.absorb wide.counts (delta seq).counts }
    merged := seq :: wide.merged }

/-- The base as a folder stores it: what was folded is absorbed, and only ids whose object was listed are kept. -/
def settle (wide : WideGroupCounts κ) (toFold present : List Int) : WideGroupCounts κ :=
  { wide with
    counts := m.reconcile wide.counts
    absorbed := (wide.absorbed ++ toFold).filter fun seq => seq ∈ present }

def folded (wide : WideGroupCounts κ) : Option (WideGroupCounts κ) :=
  if m.isSome (m.reconcile wide.counts) then some { wide with counts := m.reconcile wide.counts, absorbed := [] } else none

end WideGroupCounts

/-- The store: the base object, the delta objects, the deltas that were written at some time, and which of the writes of
the base were applied. -/
structure DeltaBucket (κ : Type) where
  base : ConditionalStore (WideGroupCounts κ) (WideGroupCounts κ)
  objects : List Int
  written : List Int
  landed : List Nat

/-- Where a run of `fold_group_count_deltas_in` stands. -/
inductive FolderPhase (κ : Type) where
  | idle
  | statted (version : Nat)
  | loaded (version : Nat) (base : WideGroupCounts κ)
  | folding (version : Nat) (acc : WideGroupCounts κ) (present toFold unread : List Int)
  | stored (pos : Nat) (toDelete : List Int)
  | deleting (toDelete : List Int)

inductive FolderAction where
  | stat | load | list | read | store | acknowledge | delete | skip | stop
  deriving DecidableEq

/-- Where a run of `fold_wide_group_counts_with_deltas` stands, with the deltas that had been written when it began. -/
inductive ReaderPhase (κ : Type) where
  | idle
  | listed (present since : List Int)
  | loaded (base : WideGroupCounts κ) (since : List Int)
  | reading (acc : WideGroupCounts κ) (unread since : List Int)
  | done (result : Option (WideGroupCounts κ)) (since : List Int)

inductive ReaderAction where
  | list | load | read | finish | stop
  deriving DecidableEq

namespace DeltaBucket

/-- The base as it is read; an absent one is empty. -/
def current (m : WideMerge κ δ) (b : DeltaBucket κ) : WideGroupCounts κ := b.base.object.getD (.empty m)

/-- `list_group_count_deltas`. -/
def list (b : DeltaBucket κ) : List Int := b.objects.insertionSort (· ≤ ·)

/-- A table just created, or one whose base was just rebuilt from the files through a sequence number. -/
def start (rebuilt : Option (Int × SnapshotAggregates κ)) : DeltaBucket κ where
  base := .init (rebuilt.map fun r => ⟨r.2, [], some r.1, []⟩)
  objects := []
  written := []
  landed := []

end DeltaBucket

section Steps

variable (m : WideMerge κ δ) (delta : Int → GroupCountDelta δ) (minBacklog : Nat)

/-- What a folder makes of its listing: nothing to do, too little to fold, or a fold. -/
def folderListed (version : Nat) (base : WideGroupCounts κ) (present : List Int) : FolderPhase κ :=
  if base.toDelete present = [] ∧ base.pruned present = [] ∧
      (base.outstanding present = [] ∨ (base.outstanding present).length < minBacklog) then .idle
  else .folding version base present (base.outstanding present) (base.outstanding present)

def folderStep (b : DeltaBucket κ) : FolderPhase κ → FolderAction → Option (DeltaBucket κ × FolderPhase κ)
  | .idle, .stat =>
    match b.base.object with
    | none => some (b, .loaded b.base.version (.empty m))
    | some _ => some (b, .statted b.base.version)
  | .statted version, .load => some (b, .loaded version (b.current m))
  | .loaded version base, .list => some (b, folderListed minBacklog version base b.list)
  | .folding version acc present toFold (seq :: unread), .read =>
    if seq ∈ b.objects then some (b, .folding version (acc.mergeDelta m delta seq) present toFold unread)
    else some (b, .idle)
  | .folding version acc present toFold [], .store =>
    if toFold = [] ∧ acc.pruned present = [] then some (b, .deleting (acc.toDelete present))
    else
      some ({ b with base := b.base.sendAt version (acc.settle m toFold present) },
        .stored b.base.sent.length (acc.toDelete present))
  | .stored pos toDelete, .acknowledge => if pos ∈ b.landed then some (b, .deleting toDelete) else none
  | .deleting (seq :: rest), .delete => some ({ b with objects := b.objects.filter (· ≠ seq) }, .deleting rest)
  | .deleting (_ :: rest), .skip => some (b, .deleting rest)
  | _, .stop => some (b, .idle)
  | _, _ => none

/-- A step of a reader; it writes nothing. -/
def readerStep (b : DeltaBucket κ) : ReaderPhase κ → ReaderAction → Option (ReaderPhase κ)
  | .idle, .list => some (.listed b.list b.written)
  | .idle, .load => some (.loaded (b.current m) b.written)
  | .listed present since, .load => some (.reading (b.current m) ((b.current m).outstanding present) since)
  | .loaded base since, .list => some (.reading base (base.outstanding b.list) since)
  | .reading acc (seq :: unread) since, .read =>
    if seq ∈ b.objects then some (.reading (acc.mergeDelta m delta seq) unread since) else some .idle
  | .reading acc [] since, .finish => some (.done (acc.folded m) since)
  | _, .stop => some .idle
  | _, _ => none

/-- The store with any number of folders and readers at work. -/
structure DeltaState (κ : Type) where
  bucket : DeltaBucket κ
  folders : List (FolderPhase κ)
  readers : List (ReaderPhase κ)

inductive DeltaAction where
  /-- The write of a commit's delta, the first one or a repeated one, reaches the store. -/
  | put (seq : Int)
  | land (pos : Nat)
  | folder (f : Nat) (a : FolderAction)
  | reader (r : Nat) (a : ReaderAction)
  deriving DecidableEq

def DeltaState.start (rebuilt : Option (Int × SnapshotAggregates κ)) (folders readers : Nat) : DeltaState κ where
  bucket := .start rebuilt
  folders := List.replicate folders .idle
  readers := List.replicate readers .idle

def deltaStep (s : DeltaState κ) : DeltaAction → Option (DeltaState κ)
  | .put seq =>
    some { s with
      bucket := { s.bucket with objects := s.bucket.objects.insert seq, written := s.bucket.written.insert seq } }
  | .land pos =>
    (s.bucket.base.land id pos).map fun w =>
      { s with bucket := { s.bucket with base := w.2, landed := pos :: s.bucket.landed } }
  | .folder f a =>
    (s.folders[f]?).bind fun phase =>
      (folderStep m delta minBacklog s.bucket phase a).map fun next =>
        { s with bucket := next.1, folders := s.folders.set f next.2 }
  | .reader r a =>
    (s.readers[r]?).bind fun phase =>
      (readerStep m delta s.bucket phase a).map fun next => { s with readers := s.readers.set r next }

/-! ## A base that may not parse -/

variable (parses : WideGroupCounts κ → Bool)

/-- A step of a folder. `load_wide_group_counts` makes an absent base of a body that does not parse, and hands back the
version of the object all the same. -/
def parsingFolderStep (b : DeltaBucket κ) : FolderPhase κ → FolderAction → Option (DeltaBucket κ × FolderPhase κ)
  | .statted version, .load => some (b, .loaded version ((b.base.object.filter parses).getD (.empty m)))
  | phase, a => folderStep m delta minBacklog b phase a

variable (s : DeltaState κ)

def parsingStep : DeltaAction → Option (DeltaState κ)
  | .folder f a =>
    (s.folders[f]?).bind fun phase =>
      (parsingFolderStep m delta minBacklog parses s.bucket phase a).map fun next =>
        { s with bucket := next.1, folders := s.folders.set f next.2 }
  | .reader _ _ => none
  | a => deltaStep m delta minBacklog s a

/-- A base under some version, the pending deltas, and folders that have not begun. -/
def DeltaState.pending (base : WideGroupCounts κ) (version : Nat) (deltas : List Int) (folders : Nat) : DeltaState κ :=
  ⟨⟨⟨some base, version, []⟩, deltas, deltas, []⟩, List.replicate folders .idle, []⟩

/-- A folder that lists the deltas finds none, or fewer than it folds. -/
def BelowBacklog : DeltaAction → Prop
  | .folder _ .list => s.bucket.objects = [] ∨ s.bucket.objects.length < minBacklog
  | _ => True

instance decidableBelowBacklog (a : DeltaAction) : Decidable (BelowBacklog minBacklog s a) := by
  unfold BelowBacklog
  split <;> infer_instance

end Steps

/-- The reader has read a base without the delta, and has not listed the objects yet. -/
def ReaderPhase.Awaits : ReaderPhase κ → Int → Prop
  | .loaded base _, seq => seq ∉ base.absorbed ∧ ¬base.Redundant seq
  | _, _ => False

instance decidableAwaits (phase : ReaderPhase κ) (seq : Int) : Decidable (phase.Awaits seq) := by
  cases phase <;> (dsimp only [ReaderPhase.Awaits]; infer_instance)

def FolderPhase.next? : FolderPhase κ → Option Int
  | .deleting (seq :: _) => some seq
  | _ => none

/-- A repeated write of a delta finds the object still there, and no object is deleted while a reader awaits it. -/
def DeltasInTime (s : DeltaState κ) : DeltaAction → Prop
  | .put seq => seq ∈ s.bucket.written → seq ∈ s.bucket.objects
  | .folder f .delete =>
    ∀ phase ∈ s.folders[f]?, ∀ seq ∈ phase.next?, ∀ reader ∈ s.readers, ¬reader.Awaits seq
  | _ => True

instance decidableDeltasInTime (s : DeltaState κ) (a : DeltaAction) : Decidable (DeltasInTime s a) := by
  unfold DeltasInTime
  split <;> infer_instance

end LogLake
