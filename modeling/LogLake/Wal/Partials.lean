import LogLake.Lib.Transition
import LogLake.Text

/-!
# Recovery of orphaned partials beside live writers

Every ingester replica writes to the same `active/` directory; only the file name carries the
writer's id.
-/

namespace LogLake

def walFrameHeaderLen : Nat := 52

/-- The id of a segment, `<ingester_id>-<uuid>`. -/
def segmentStem (ingester uuid : Text) : Text := ingester ++ "-".toList ++ uuid

def partialEnding : Text := ".arrow.partial".toList

structure ActiveFile where
  /-- Its name; `none` when it is not UTF-8. -/
  name : Option Text
  size : Nat
  framed : Bool
  modified : Nat
  deriving DecidableEq

/-- The segment id of a partial; other entries have none. -/
def ActiveFile.stem? (f : ActiveFile) : Option Text := f.name.bind (stripSuffix partialEnding)

variable (stem : Text)

/-- The entry is the partial of the segment. -/
def ActiveFile.isPartialOf (f : ActiveFile) : Bool := f.name == some (stem ++ partialEnding)

structure ActiveSegment where
  stem : Text
  rows : Nat
  deriving DecidableEq

structure LiveWriter where
  id : Text
  current : Option ActiveSegment
  deriving DecidableEq

def LiveWriter.Holds (w : LiveWriter) (stem : Text) : Prop := ∃ seg ∈ w.current, seg.stem = stem

instance LiveWriter.decidableHolds (w : LiveWriter) (stem : Text) : Decidable (w.Holds stem) :=
  inferInstanceAs (Decidable (∃ seg ∈ w.current, seg.stem = stem))

structure PartialRecovery where
  owner : Text
  taking : Option (Text × Nat)
  recovered : Nat
  leftAlone : Nat
  deriving DecidableEq

/-- The test of ownership by name: the stem starts with `<owner>-`. -/
def carriesId (owner stem : Text) : Bool := (owner ++ "-".toList).isPrefixOf stem

/-- How long a partial has been idle; zero when its modification time is unknown or in the future. -/
def ActiveFile.idle (f : ActiveFile) (now : Nat) (known : Bool) : Nat := if known then now - f.modified else 0

structure PartialsState where
  active : List ActiveFile
  sealedStems : List Text
  writers : List LiveWriter
  /-- Every segment id that was ever drawn; a UUID is not drawn twice. -/
  drawn : List Text
  recovery : Option PartialRecovery
  /-- The segments that a recovery took from a live writer of another id. -/
  stolen : List Text
  deriving DecidableEq

def PartialsState.leftBehind (active : List ActiveFile) (sealedStems : List Text) : PartialsState :=
  ⟨active, sealedStems, [], active.filterMap ActiveFile.stem?, none, []⟩

inductive PartialsAction where
  | spawn (id : Text)
  | startSegment (writer : Nat) (uuid : Text) (time : Nat)
  | append (writer : Nat) (rows bytes time : Nat)
  | sealCurrent (writer : Nat) (unlinked : Bool)
  | sealFails (writer : Nat)
  | crash (writer : Nat)
  | recover (owner : Text)
  | inspect (entry : Nat) (now : Nat) (known : Bool)
  | take (succeeds : Bool)
  | finish
  deriving DecidableEq

def PartialsAction.ofWriter : PartialsAction → Bool
  | .recover _ | .inspect _ _ _ | .take _ | .finish => false
  | _ => true

namespace PartialsState

/-- The directory without the partial of the segment. -/
def without (active : List ActiveFile) : List ActiveFile := active.filter fun f => !f.isPartialOf stem

/-- A write to the open file of a segment; a file without a name is not seen in the directory. -/
def grow (bytes time : Nat) (active : List ActiveFile) : List ActiveFile :=
  active.map fun f =>
    if f.isPartialOf stem then { f with size := f.size + bytes, framed := true, modified := time } else f

variable (s : PartialsState) (owner stem : Text)

/-- The partial is taken from a live writer of another id. -/
def Steals : Prop := ∃ w ∈ s.writers, w.id ≠ owner ∧ w.Holds stem

instance decidableSteals : Decidable (s.Steals owner stem) :=
  inferInstanceAs (Decidable (∃ w ∈ s.writers, w.id ≠ owner ∧ w.Holds stem))

/-- The partial leaves the directory by the recovery's hand. -/
def takeAway : PartialsState :=
  { s with
    active := without stem s.active
    stolen := if s.Steals owner stem then s.stolen ++ [stem] else s.stolen }

/-- Reading the metadata of an entry: skip what is no partial, leave a foreign one that is not idle for `adoptAfter`, else take
it. -/
def inspectEntry (adoptAfter : Nat) (r : PartialRecovery) (f : ActiveFile) (now : Nat) (known : Bool) : PartialRecovery :=
  match f.stem? with
  | none => r
  | some stem =>
    if carriesId r.owner stem || decide (adoptAfter ≤ f.idle now known) then
      { r with taking := some (stem, f.size) }
    else { r with leftAlone := r.leftAlone + 1 }

/-- Taking a partial: an empty or header-only one is removed, so is one that has a sealed copy, any other is renamed into
`sealed/`. -/
def takePartial (r : PartialRecovery) (stem : Text) (size : Nat) (succeeds : Bool) : Option PartialsState :=
  let file := s.active.find? (·.isPartialOf stem)
  if succeeds && file.isNone then none
  else if size = 0 ∨ size ≤ walFrameHeaderLen ∧ file.any (·.framed) = true ∨ stem ∈ s.sealedStems then
    some { if succeeds then s.takeAway r.owner stem else s with recovery := some { r with taking := none } }
  else if succeeds then
    some { s.takeAway r.owner stem with
      sealedStems := s.sealedStems ++ [stem]
      recovery := some { r with taking := none, recovered := r.recovered + 1 } }
  else some { s with recovery := none }

end PartialsState

variable (adoptAfter : Nat) (s : PartialsState)

/-- One step, with the time after which another writer's partial is adopted. -/
def partialsStep : PartialsAction → Option PartialsState
  | .spawn id => some { s with writers := s.writers ++ [⟨id, none⟩] }
  | .startSegment writer uuid time =>
    s.writers[writer]?.bind fun w =>
      let stem := segmentStem w.id uuid
      if w.current = none ∧ stem ∉ s.drawn then
        some { s with
          active := s.active ++ [⟨some (stem ++ partialEnding), 0, false, time⟩]
          writers := s.writers.set writer { w with current := some ⟨stem, 0⟩ }
          drawn := s.drawn ++ [stem] }
      else none
  | .append writer rows bytes time =>
    s.writers[writer]?.bind fun w => w.current.map fun seg =>
      { s with
        active := PartialsState.grow seg.stem bytes time s.active
        writers := s.writers.set writer { w with current := some { seg with rows := seg.rows + rows } } }
  | .sealCurrent writer unlinked =>
    s.writers[writer]?.bind fun w => w.current.map fun seg =>
      { s with
        active := if unlinked then PartialsState.without seg.stem s.active else s.active
        sealedStems := if seg.rows = 0 then s.sealedStems else s.sealedStems ++ [seg.stem]
        writers := s.writers.set writer { w with current := none } }
  | .sealFails writer =>
    s.writers[writer]?.map fun w => { s with writers := s.writers.set writer { w with current := none } }
  | .crash writer => some { s with writers := s.writers.eraseIdx writer }
  | .recover owner => if s.recovery = none then some { s with recovery := some ⟨owner, none, 0, 0⟩ } else none
  | .inspect entry now known =>
    s.recovery.bind fun r => s.active[entry]?.bind fun f =>
      if r.taking = none then
        some { s with recovery := some (PartialsState.inspectEntry adoptAfter r f now known) }
      else none
  | .take succeeds =>
    s.recovery.bind fun r => r.taking.bind fun taken => s.takePartial r taken.1 taken.2 succeeds
  | .finish =>
    s.recovery.bind fun r => if r.taking = none then some { s with recovery := none } else none

/-- The recovery can tell the partials of live writers of other ids from abandoned ones: when it reads the metadata of one, its
name does not start with the recovering id and a dash, and it was written less than `adoptAfter` ago. -/
def ToldApart : PartialsAction → Prop
  | .inspect entry now known => ∀ r ∈ s.recovery, ∀ f ∈ s.active[entry]?, ∀ stem ∈ f.stem?, s.Steals r.owner stem →
      carriesId r.owner stem = false ∧ f.idle now known < adoptAfter
  | _ => True

instance decidableToldApart (a : PartialsAction) : Decidable (ToldApart adoptAfter s a) := by
  cases a <;> (dsimp only [ToldApart]; infer_instance)

end LogLake
