import LogLake.Catalog.Ledger
import LogLake.Lib.Ordered
import LogLake.Lib.Pages
import LogLake.Mirror.Keys

/-!
# Reconciliation of the mirror with the ledger

A sealed segment that was uploaded and never registered is found by listing the mirror.
-/

namespace LogLake.Mirror

open Catalog (Ledger register purgeCommitted)

def i64Max : Nat := 2 ^ 63 - 1

def u64Max : Nat := 2 ^ 64 - 1

/-! ## Listing -/

/-- An entry of a listing: a file or a directory, with its length. -/
structure MirrorEntry where
  isFile : Bool
  contentLength : UInt64
  deriving DecidableEq

abbrev Store : Type := SortedMap Text MirrorEntry

/-- What a reconciliation is configured with; whether a listing can start after a key is a capability of the store. -/
structure SyncConfig where
  mirrorPrefix : Text
  objectBudget : Nat
  supportsStartAfter : Bool

variable (cfg : SyncConfig)

def SyncConfig.trimmed : Text := trimSlashes cfg.mirrorPrefix

def SyncConfig.budget : Nat := max cfg.objectBudget 1

/-- The key is below the listed prefix. -/
def SyncConfig.under (key : Text) : Bool := (cfg.trimmed ++ ['/']).isPrefixOf key

/-- The object of an entry, when it is the file of a sealed segment. -/
def SyncConfig.object? (e : Text × MirrorEntry) : Option MirrorSyncObject :=
  if e.2.isFile then mirrorSyncObject e.1 e.2.contentLength cfg.trimmed else none

/-- What a lister may yield: the entries after the start in the order of their keys, or all of them in any order when the store
cannot start after a key. -/
def SyncConfig.Yields (mirror : Store) (startAfter : Option Text) (listing : List (Text × MirrorEntry)) : Prop :=
  if cfg.supportsStartAfter then listing = mirror.entries.filter fun e => cfg.under e.1 && decide (Pages.After startAfter e.1)
  else listing.Perm (mirror.entries.filter fun e => cfg.under e.1)

instance SyncConfig.decidableYields (mirror : Store) (startAfter : Option Text)
    (listing : List (Text × MirrorEntry)) : Decidable (cfg.Yields mirror startAfter listing) :=
  inferInstanceAs (Decidable (if cfg.supportsStartAfter = true then
    listing = mirror.entries.filter fun e => cfg.under e.1 && decide (Pages.After startAfter e.1)
  else listing.Perm (mirror.entries.filter fun e => cfg.under e.1)))

structure MirrorSyncPage where
  objects : List MirrorSyncObject
  endOfPrefix : Bool
  deriving DecidableEq

def listMirrorSyncPage (startAfter : Option Text) (listing : List (Text × MirrorEntry)) : MirrorSyncPage :=
  let objects := listing.filterMap cfg.object?
  if cfg.supportsStartAfter then
    -- the listing is left as soon as the budget is reached
    if cfg.budget ≤ objects.length then ⟨objects.take cfg.budget, false⟩ else ⟨objects, true⟩
  else
    let rest := (objects.filter fun o => Pages.After startAfter o.path).insertionSort fun a b => a.path ≤ b.path
    ⟨rest.take cfg.budget, rest.length ≤ cfg.budget⟩

/-! ## The cursor -/

structure MirrorSyncCursor where
  lastKey : Option Text
  rotation : Nat
  rotationStartedAt : Option Int
  rotationObjectsExamined : Nat
  lastCompletedAt : Option Int
  deriving DecidableEq

/-- `MirrorSyncCursor::default`: the beginning of rotation zero. -/
def MirrorSyncCursor.start : MirrorSyncCursor := ⟨none, 0, none, 0, none⟩

/-- The objects examined before this page. -/
def MirrorSyncCursor.previousObjects (cursor : MirrorSyncCursor) : Nat :=
  if cursor.lastKey.isSome then cursor.rotationObjectsExamined else 0

inductive CursorError where
  | completedKeepsKey | rotationRange | rotationOverflow | countOverflow | countRange
  deriving DecidableEq

/-- The row that follows the expected one. -/
def MirrorSyncCursor.next (expected : MirrorSyncCursor) (nextLastKey : Option Text) (completedRotation : Bool)
    (pageObjectsExamined : Nat) (now : Int) : MirrorSyncCursor where
  lastKey := nextLastKey
  rotation := expected.rotation + completedRotation.toNat
  rotationStartedAt := if completedRotation then none else expected.rotationStartedAt.or (some now)
  rotationObjectsExamined := expected.previousObjects + pageObjectsExamined
  lastCompletedAt := if completedRotation then some now else expected.lastCompletedAt

/-- The statement: it inserts a row where there is none and replaces one that has the expected rotation and key. -/
def replaceCursor (stored : Option MirrorSyncCursor) (expected next : MirrorSyncCursor) : Option MirrorSyncCursor :=
  match stored with
  | none => some next
  | some row => if row.rotation = expected.rotation ∧ row.lastKey = expected.lastKey then some next else none

/-- `compare_and_set_mirror_sync_cursor`: the new row, or none when the stored one is not the expected one. -/
def compareAndSetMirrorSyncCursor (stored : Option MirrorSyncCursor) (expected : MirrorSyncCursor) (nextLastKey : Option Text)
    (completedRotation : Bool) (pageObjectsExamined : Nat) (now : Int) : Except CursorError (Option MirrorSyncCursor) :=
  if completedRotation && nextLastKey.isSome then .error .completedKeepsKey
  else if i64Max < expected.rotation then .error .rotationRange
  else if i64Max < expected.rotation + completedRotation.toNat then .error .rotationOverflow
  else if u64Max < expected.previousObjects + pageObjectsExamined then .error .countOverflow
  else if i64Max < expected.previousObjects + pageObjectsExamined then .error .countRange
  else .ok (replaceCursor stored expected (expected.next nextLastKey completedRotation pageObjectsExamined now))

/-! ## One call -/

/-- What a call works on: the mirror, the table of segments and the stored cursor. -/
structure SyncWorld where
  mirror : Store
  ledger : Ledger
  stored : Option MirrorSyncCursor

def SyncWorld.cursor (w : SyncWorld) : MirrorSyncCursor := w.stored.getD .start

/-- Where a call is: not begun, with the cursor it has read, or with a page and the objects of it still to be registered. -/
inductive SyncPhase where
  | idle
  | loaded (cursor : MirrorSyncCursor)
  | registering (cursor : MirrorSyncCursor) (page : MirrorSyncPage) (pending : List MirrorSyncObject)
  deriving DecidableEq

/-- The steps of a call, with what the clock shows and what the lister yields; `fail` is an error or the end of the process. -/
inductive SyncAction where
  | load (now : Int)
  | list (listing : List (Text × MirrorEntry))
  | register (now : Int)
  | store (now : Int)
  | fail

/-- What a step leaves, and whether it ends a successful call. -/
structure SyncOutcome where
  world : SyncWorld
  phase : SyncPhase
  success : Bool

/-- The key the cursor is moved to. -/
def MirrorSyncPage.nextLastKey (page : MirrorSyncPage) : Option Text :=
  if page.endOfPrefix then none else page.objects.getLast?.map MirrorSyncObject.path

def syncStep (w : SyncWorld) : SyncPhase → SyncAction → Option SyncOutcome
  | .idle, .load now =>
    let cursor := w.cursor
    some ⟨w, .loaded { cursor with rotationStartedAt := some (cursor.rotationStartedAt.getD now) }, false⟩
  | .loaded cursor, .list listing =>
    if cfg.Yields w.mirror cursor.lastKey listing then
      let page := listMirrorSyncPage cfg cursor.lastKey listing
      if u64Max < cursor.previousObjects + page.objects.length then some ⟨w, .idle, false⟩
      else some ⟨w, .registering cursor page page.objects, false⟩
    else none
  | .registering cursor page (o :: pending), .register now =>
    some ⟨{ w with ledger := register o.id o.tenant o.indexId o.url o.bytes.toInt 0 now w.ledger },
      .registering cursor page pending, false⟩
  | .registering cursor page [], .store now =>
    match compareAndSetMirrorSyncCursor w.stored cursor page.nextLastKey page.endOfPrefix page.objects.length now with
    | .ok (some next) => some ⟨{ w with stored := some next }, .idle, true⟩
    | _ => some ⟨w, .idle, false⟩
  | .loaded _, .fail => some ⟨w, .idle, false⟩
  | .registering _ _ _, .fail => some ⟨w, .idle, false⟩
  | _, _ => none

/-! ## Competing owners -/

/-- The system: what the calls work on, where each owner's call is, and the numbers of successful calls, in all and since a
rotation last ended. -/
structure SyncState where
  world : SyncWorld
  owners : List SyncPhase
  done : Nat
  calls : Nat

variable (s : SyncState)

def SyncState.rotation : Nat := s.world.cursor.rotation

/-- A step of an owner's call, an upload, the removal of an object, statements of others on the ledger, and a purge. -/
inductive SyncEvent where
  | call (owner : Nat) (action : SyncAction)
  | put (key : Text) (entry : MirrorEntry)
  | remove (key : Text)
  | ledger (next : Ledger)
  | purge (ids : List Text)

def syncEvent : SyncEvent → Option SyncState
  | .call owner action =>
    (s.owners[owner]?).bind fun phase => (syncStep cfg s.world phase action).map fun out =>
      { world := out.world
        owners := s.owners.set owner out.phase
        done := s.done + out.success.toNat
        calls :=
          if out.success then (if out.world.cursor.rotation = s.rotation then s.calls + 1 else 0) else s.calls }
  | .put key entry => some { s with world.mirror := s.world.mirror.upsert key fun _ => entry }
  | .remove key => some { s with world.mirror := s.world.mirror.erase key }
  | .ledger next =>
    if ∀ row ∈ s.world.ledger.rows, (next.row row.id).isSome then some { s with world.ledger := next } else none
  | .purge ids =>
    if ∀ id ∈ ids, ∀ e ∈ s.world.mirror.entries, ∀ o ∈ cfg.object? e, o.id ≠ id then
      some { s with world.ledger := purgeCommitted ids s.world.ledger }
    else none

/-- Nothing registered, the cursor at the start, and a number of owners. -/
def SyncState.init (owners : Nat) : SyncState := ⟨⟨.empty, KeyedTable.empty, none⟩, List.replicate owners .idle, 0, 0⟩

variable (key : Text)

/-- The segment's id, when the key is that of a sealed segment below the prefix. -/
def SyncConfig.segmentId : Option Text :=
  if cfg.under key then (mirrorSyncObject key 0 cfg.trimmed).map MirrorSyncObject.id else none

/-- The mirror has a file under the key. -/
def SyncState.Holds : Prop := ∃ e, s.world.mirror.get? key = some e ∧ e.isFile = true

instance SyncState.decidableHolds : Decidable (s.Holds key) :=
  decidable_of_iff ((s.world.mirror.get? key).any MirrorEntry.isFile = true) (Option.any_eq_true ..)

def SyncState.Registered (id : Text) : Prop := (s.world.ledger.row id).isSome = true

/-- A cursor is before another: in an earlier rotation, or at an earlier key of the same. -/
def MirrorSyncCursor.Before (c d : MirrorSyncCursor) : Prop :=
  c.rotation < d.rotation ∨ c.rotation = d.rotation ∧ ∃ k, d.lastKey = some k ∧ Pages.After c.lastKey k

end LogLake.Mirror
