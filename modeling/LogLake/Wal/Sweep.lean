import LogLake.Text

/-!
# The gated sweep of committed segments

A committed segment stays on disk until it is older than the retention, every fresh consumer has
committed past it and, when a mark is required, its mark is present.
-/

namespace LogLake

inductive SweepError where
  /-- A directory entry, its type or its metadata cannot be read. -/
  | entry
  /-- `read watermark <file>`. -/
  | watermark (file : Text)
  /-- `sweep_committed remove`. -/
  | remove
  deriving DecidableEq

/-! ## The consumers' watermarks -/

structure ConsumerFile where
  /-- It is a plain file; `none` when its type cannot be read. -/
  isFile : Option Bool
  name : Text
  /-- Its modification time, which the platform may not know; `none` when its metadata cannot be read. -/
  modified : Option (Option Nat)
  /-- Its text; `none` when it cannot be read or is not UTF-8. -/
  content : Option Text
  deriving DecidableEq

/-- In-flight temporary files are named `.<id>.tmp`. -/
def ConsumerFile.isTemporary (f : ConsumerFile) : Bool := ".".toList.isPrefixOf f.name

/-- A consumer whose watermark file was updated within `staleAfter`. -/
def ConsumerFile.Fresh (now staleAfter : Nat) (f : ConsumerFile) : Prop :=
  f.isFile = some true ∧ f.isTemporary = false ∧ ∃ modified, f.modified = some modified ∧ now - modified.getD now < staleAfter

/-- The lower of the minimum so far and the next watermark. -/
def lowerWatermark (min : Option Text) (watermark : Text) : Text :=
  min.elim watermark fun cur => if cur ≤ watermark then cur else watermark

def minWatermarkFrom (now staleAfter : Nat) : Option Text → List ConsumerFile → Except SweepError (Option Text)
  | min, [] => .ok min
  | min, f :: files =>
    match f.isFile with
    | none => .error .entry
    | some false => minWatermarkFrom now staleAfter min files
    | some true =>
      if f.isTemporary then minWatermarkFrom now staleAfter min files
      else
        match f.modified with
        | none => .error .entry
        | some modified =>
          -- stale, or every consumer counts as stale because the window is zero
          if staleAfter ≤ now - modified.getD now then minWatermarkFrom now staleAfter min files
          else
            match f.content with
            | none => .error (.watermark f.name)
            | some content => minWatermarkFrom now staleAfter (some (lowerWatermark min (trim content))) files

/-- `min_consumer_watermark`: the lowest watermark of the fresh consumers. -/
def minConsumerWatermark (now staleAfter : Nat) (consumers : Option (List ConsumerFile)) : Except SweepError (Option Text) :=
  consumers.elim (.ok none) (minWatermarkFrom now staleAfter none)

/-! ## The sweep -/

inductive Removal where
  | removed
  | notFound
  | failed
  deriving DecidableEq

structure CommittedEntry where
  /-- It is a plain file; `none` when the entry or its type cannot be read. -/
  isFile : Option Bool
  /-- Its name; `none` when it is not UTF-8. -/
  name : Option Text
  /-- Its modification time; `none` when it cannot be told. -/
  modified : Option Nat
  removal : Removal
  deriving DecidableEq

/-- The age of an entry; one whose modification time cannot be told is new. -/
def CommittedEntry.age (now : Nat) (e : CommittedEntry) : Nat := now - e.modified.getD now

/-- `Path::extension`: what follows the last dot, unless nothing precedes that dot. -/
def pathExtension (name : Text) : Option Text :=
  let extension := (name.reverse.takeWhile (· ≠ '.')).reverse
  if extension.length + 1 < name.length then some extension else none

/-- A segment of `committed/`: a plain file `<name>.arrow`. -/
def CommittedEntry.isSegment (e : CommittedEntry) : Bool :=
  e.isFile == some true && (e.name.bind pathExtension) == some "arrow".toList

/-- The retention settings and, when a mark is required, the names that have it. -/
structure SweepSettings where
  retention : Nat
  maxRetention : Nat
  staleAfter : Nat
  marked : Option (List Text)

variable (cfg : SweepSettings)

/-- The mark gate refuses a name. -/
def SweepSettings.gated (name : Text) : Bool := cfg.marked.any fun set => !set.contains name

/-- A segment may go: at the ceiling in any case, else past the retention, consumed and not refused by the mark gate. -/
def SweepSettings.releases (watermark : Option Text) (age : Nat) (name : Text) : Bool :=
  let consumed := watermark.all fun wm => name ≤ wm
  let expired := decide (cfg.maxRetention ≤ age)
  (expired || (decide (cfg.retention ≤ age) && consumed)) && !(cfg.gated name && !expired)

inductive EntryOutcome where
  | skipped
  | deleted (gated : Bool)
  | failed (error : SweepError)
  deriving DecidableEq

def sweepEntry (watermark : Option Text) (now : Nat) (e : CommittedEntry) : EntryOutcome :=
  match e.isFile, e.name with
  | none, _ => .failed .entry
  | some false, _ => .skipped
  | some true, none => .skipped
  | some true, some name =>
    if pathExtension name ≠ some "arrow".toList then .skipped
    else if cfg.releases watermark (e.age now) name = false then .skipped
    else
      match e.removal with
      | .removed => .deleted (cfg.gated name)
      | .notFound => .skipped
      | .failed => .failed .remove

structure CommittedSweep where
  deleted : Nat
  /-- Of those, the ones removed at the hard ceiling while the mark gate still refused them. -/
  unmarked : Nat
  deriving DecidableEq

def CommittedSweep.count (swept : CommittedSweep) (gated : Bool) : CommittedSweep :=
  ⟨swept.deleted + 1, swept.unmarked + gated.toNat⟩

/-- A pass: the entries it removed, in order, and what it returned. -/
structure SweepRun where
  removed : List CommittedEntry
  result : Except SweepError CommittedSweep

def sweepFrom (cfg : SweepSettings) (watermark : Option Text) (now : Nat) : CommittedSweep → List CommittedEntry → SweepRun
  | swept, [] => ⟨[], .ok swept⟩
  | swept, e :: entries =>
    match sweepEntry cfg watermark now e with
    | .skipped => sweepFrom cfg watermark now swept entries
    | .deleted gated =>
      let run := sweepFrom cfg watermark now (swept.count gated) entries
      ⟨e :: run.removed, run.result⟩
    | .failed error => ⟨[], .error error⟩

def sweepCommittedGated (consumerNow now : Nat) (consumers : Option (List ConsumerFile))
    (committed : Option (List CommittedEntry)) : SweepRun :=
  match committed with
  | none => ⟨[], .ok ⟨0, 0⟩⟩
  | some entries =>
    match minConsumerWatermark consumerNow cfg.staleAfter consumers with
    | .error error => ⟨[], .error error⟩
    | .ok watermark => sweepFrom cfg watermark now ⟨0, 0⟩ entries

end LogLake
