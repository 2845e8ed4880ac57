import LogLake.Lib.Transition
import LogLake.Wal.Dirs

/-!
# A segment consumer beside writers and the drain

Any number of writers open segments under names of their own and make them visible when they seal
them; the drain renames visible segments; a consumer lists the three directories one after the
other, keeps what lies after its cursor, and commits what it was given in order.
-/

namespace LogLake

/-- The file name of a segment: `<ingester>-<uuid>.arrow`. -/
def segmentFileName (ingester uuid : Text) : Text := ingester ++ "-".toList ++ uuid ++ ".arrow".toList

inductive ConsumerPhase where
  /-- Not polling; the segments of the last poll that are still to be committed. -/
  | idle (pending : List Text)
  | listedSealed (atStart listed : List Text)
  | listedProcessing (atStart listed : List Text)
  deriving DecidableEq

/-- The names the consumer holds: those still to be committed, or those its poll has listed so far. -/
def ConsumerPhase.names : ConsumerPhase → List Text
  | .idle pending => pending
  | .listedSealed _ listed => listed
  | .listedProcessing _ listed => listed

/-- A poll is between two of its listings. -/
def ConsumerPhase.isPolling : ConsumerPhase → Bool
  | .idle _ => false
  | _ => true

structure ConsumerState where
  current : SortedMap Nat Text
  /-- Every name a writer has opened; a UUID is never drawn twice. -/
  used : List Text
  dirs : WalDirs
  /-- `CursorState::last_segment_name`. -/
  cursor : Option Text
  consumed : List Text
  phase : ConsumerPhase

def ConsumerState.init : ConsumerState := ⟨SortedMap.empty, [], SortedMap.empty, none, [], .idle []⟩

/-- `poll`: the listed names after the cursor, each once, ascending. -/
def pollResult (cursor : Option Text) (listed : List Text) : List Text :=
  (listed.filter fun name => decide (∀ last ∈ cursor, ¬ name ≤ last)).sortDedup

/-- `commit_name`: the cursor never moves backwards. -/
def commitName (cursor : Option Text) (name : Text) : Option Text :=
  if cursor.any fun last => name ≤ last then cursor else some name

inductive ConsumerAction where
  | startSegment (writer : Nat) (uuid : Text)
  | sealActive (writer : Nat)
  | claim (name : Text)
  | release (name : Text)
  | finish (name : Text)
  | sweep (name : Text)
  | listSealed
  | listProcessing
  | listCommitted
  | commit
  deriving DecidableEq

def consumerStep (ingester : Nat → Text) (s : ConsumerState) : ConsumerAction → Option ConsumerState
  | .startSegment writer uuid =>
    let name := segmentFileName (ingester writer) uuid
    if s.current.get? writer = none ∧ name ∉ s.used then
      some { s with current := s.current.upsert writer fun _ => name, used := name :: s.used }
    else none
  | .sealActive writer => (s.current.get? writer).bind fun name => (sealSegment s.dirs name).map fun dirs =>
      { s with current := s.current.erase writer, dirs := dirs }
  | .claim name => (claimSegment s.dirs name).map fun dirs => { s with dirs := dirs }
  | .release name => (releaseSegment s.dirs name).map fun dirs => { s with dirs := dirs }
  | .finish name => (finishSegment s.dirs name).map fun dirs => { s with dirs := dirs }
  | .sweep name => (sweepSegment s.dirs name).map fun dirs => { s with dirs := dirs }
  | .listSealed => match s.phase with
    | .idle _ => some { s with phase := .listedSealed (s.dirs.keysWith fun _ => true) (s.dirs.list .sealed) }
    | _ => none
  | .listProcessing => match s.phase with
    | .listedSealed atStart listed =>
      some { s with phase := .listedProcessing atStart (listed ++ s.dirs.list .processing) }
    | _ => none
  | .listCommitted => match s.phase with
    | .listedProcessing _ listed =>
      some { s with phase := .idle (pollResult s.cursor (listed ++ s.dirs.list .committed)) }
    | _ => none
  | .commit => match s.phase with
    | .idle (name :: rest) =>
      some { s with cursor := commitName s.cursor name, consumed := name :: s.consumed, phase := .idle rest }
    | _ => none

/-- Every segment that was visible when the poll began, is still there when it ends and has not been committed is among
the segments the poll returns. -/
def PollReturnsAll (s s' : ConsumerState) : Prop :=
  ∀ atStart listed pending, s.phase = .listedProcessing atStart listed → s'.phase = .idle pending →
    ∀ n ∈ atStart, s'.dirs.Holds n → n ∉ s'.consumed → n ∈ pending

end LogLake
