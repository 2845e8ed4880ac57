import LogLake.Lib.Renames
import LogLake.Lib.Transition
import LogLake.Text

/-!
# The lifecycle of segments, rename by rename

A sealed segment is claimed, released, finished, set aside or recovered by renames of its file
between directories.
-/

namespace LogLake.Lifecycle

open Renames

inductive Dir where
  | sealed | processing | committed | orphans | poison
  | stale (owner : Text)
  deriving DecidableEq

/-- Where a segment is that a drain sets aside. -/
def Dir.Held (d : Dir) : Prop := d = .sealed ∨ d = .processing

instance decidableHeld (d : Dir) : Decidable d.Held := inferInstanceAs (Decidable (_ ∨ _))

/-- What an operation has still to do. -/
inductive Phase where
  | idle
  /-- `claim_segment` -/
  | claiming (name : Text)
  /-- The segment is in `processing/`; the move is made durable, or it is not. -/
  | claimed (name : Text) (durable : Bool)
  /-- `release_segment` -/
  | releasing (name : Text)
  /-- `finish_segment` -/
  | finishing (name : Text)
  /-- `quarantine_stale_segment` -/
  | staling (source : Dir) (owner name : Text)
  | staleChecked (source : Dir) (owner name : Text) (found : Bool)
  /-- `quarantine_poison_segment` -/
  | poisoning (source : Dir) (name : Text)
  | poisonChecked (source : Dir) (name : Text)
  | poisonNoted (source : Dir) (name : Text)
  /-- `requeue_poisoned_segment` -/
  | requeueing (name : Text)
  | requeueChecked (name : Text)
  | requeued (name : Text)
  /-- `recover_orphaned_processing`, with the entries that are still to be visited -/
  | recovering (unread : List Text)
  | recoverFound (name : Text) (unread : List Text)
  | recoverChecked (name : Text) (found : Bool) (unread : List Text)
  deriving DecidableEq

/-- The renames that take a segment and those that put one back. -/
inductive Event where
  | claim (name : Text) (durable : Bool)
  | release (name : Text)
  | requeue (name : Text)
  deriving DecidableEq

def Event.name : Event → Text
  | .claim name _ => name
  | .release name => name
  | .requeue name => name

/-- The files, each with the number of its segment; the poison notes; the names and numbers of the segments that were sealed; the
segments that were overwritten or removed; the events, the newest first; the processes. -/
structure State where
  files : Files Dir Text Nat
  notes : List Text
  sealed : List (Text × Nat)
  overwritten : List Nat
  removed : List Nat
  history : List Event
  procs : List Phase

def State.start (procs : Nat) : State := ⟨[], [], [], [], [], [], List.replicate procs .idle⟩

variable (s : State)

def State.exist (d : Dir) (name : Text) : Bool := (s.files.lookup (d, name)).isSome

/-- A rename of a segment; it fails when the file is not there. -/
def State.move (source target : Dir) (name : Text) : Option State :=
  (s.files.rename (source, name) (target, name)).map fun moved =>
    { s with files := moved.1, overwritten := s.overwritten ++ moved.2.toList }

/-- An unlink of a segment, if it is there. -/
def State.remove (d : Dir) (name : Text) : State :=
  { s with files := (s.files.unlink (d, name)).1, removed := s.removed ++ (s.files.unlink (d, name)).2.toList }

def State.record (e : Event) : State := { s with history := e :: s.history }

inductive Operation where
  | claim (name : Text)
  | release (name : Text)
  | finish (name : Text)
  | stale (source : Dir) (owner name : Text)
  | poison (source : Dir) (name : Text)
  | requeue (name : Text)
  | recover (entries : List Text)
  deriving DecidableEq

def Operation.first : Operation → Option Phase
  | .claim name => some (.claiming name)
  | .release name => some (.releasing name)
  | .finish name => some (.finishing name)
  | .stale source owner name => if source.Held then some (.staling source owner name) else none
  | .poison source name => if source.Held then some (.poisoning source name) else none
  | .requeue name => some (.requeueing name)
  | .recover entries => some (.recovering entries)

/-- The next step of an operation; with it comes whether the move of a claim will be made durable. -/
def advance (durable : Bool) : Phase → State × Phase
  | .idle => (s, .idle)
  | .claiming name =>
    match s.move .sealed .processing name with
    | none => (s, .idle)
    | some s' => (s'.record (.claim name durable), .claimed name durable)
  | .claimed name durable => (s, if durable then .idle else .releasing name)
  | .releasing name =>
    match s.move .processing .sealed name with
    | none => (s, .idle)
    | some s' => (s'.record (.release name), .idle)
  | .finishing name => ((s.move .processing .committed name).getD s, .idle)
  | .staling source owner name => (s, .staleChecked source owner name (s.exist (.stale owner) name))
  | .staleChecked source owner name found =>
    if found then (s.remove source name, .idle) else ((s.move source (.stale owner) name).getD s, .idle)
  | .poisoning source name => (s, if s.exist .poison name then .idle else .poisonChecked source name)
  | .poisonChecked source name => ({ s with notes := s.notes.insert name }, .poisonNoted source name)
  | .poisonNoted source name => ((s.move source .poison name).getD s, .idle)
  | .requeueing name => (s, if s.exist .sealed name then .idle else .requeueChecked name)
  | .requeueChecked name =>
    match s.move .poison .sealed name with
    | none => (s, .idle)
    | some s' => (s'.record (.requeue name), .requeued name)
  | .requeued name => ({ s with notes := s.notes.erase name }, .idle)
  | .recovering [] => (s, .idle)
  | .recovering (name :: unread) =>
    (s, if s.exist .processing name then .recoverFound name unread else .recovering unread)
  | .recoverFound name unread => (s, .recoverChecked name (s.exist .orphans name) unread)
  | .recoverChecked name found unread =>
    if found then (s.remove .processing name, .recovering unread)
    else
      match s.move .processing .orphans name with
      | none => (s, .idle)
      | some s' => (s', .recovering unread)

inductive Action where
  /-- The rename of a sealed segment into `sealed/`, under the name that was drawn for it. -/
  | sealing (name : Text) (segment : Nat)
  | begin (p : Nat) (op : Operation)
  | step (p : Nat) (durable : Bool)
  | crash (p : Nat)
  deriving DecidableEq

def lifecycleStep : Action → Option State
  | .sealing name segment =>
    if name ∈ s.sealed.map Prod.fst then none
    else
      some { s with
        files := (s.files.install (.sealed, name) segment).1
        overwritten := s.overwritten ++ (s.files.install (.sealed, name) segment).2.toList
        sealed := (name, segment) :: s.sealed }
  | .begin p op =>
    if s.procs[p]? = some .idle then op.first.map fun phase => { s with procs := s.procs.set p phase } else none
  | .step p durable =>
    (s.procs[p]?).map fun phase =>
      { (advance s durable phase).1 with procs := s.procs.set p (advance s durable phase).2 }
  | .crash p => if p < s.procs.length then some { s with procs := s.procs.set p .idle } else none

end LogLake.Lifecycle
