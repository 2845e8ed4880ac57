import LogLake.Lib.Transition

/-!
# The mirror of a write-ahead log

A sealed segment gets a pin, a second durable name, and is queued for the uploader.
-/

namespace LogLake.Mirror

def uploadAttempts : Nat := 5

/-- What the uploader is doing with a segment. -/
inductive UploaderPhase where
  | idle
  | attempting (g attempt : Nat)
  /-- The attempts are used up, or the local file was not found: is the object there? -/
  | statting (g : Nat)
  | stored (g : Nat)
  | notified (g : Nat)
  deriving DecidableEq

/-- A segment the sweep looks at, found as a pin or as a sealed file. -/
structure Candidate where
  segment : Nat
  pinned : Bool
  deriving DecidableEq

inductive Presence where
  | present | absent | unknown
  deriving DecidableEq

inductive SweepPhase where
  | idle
  /-- Listing the directories: those to come, whether the pins of the first one are listed, and what was found. -/
  | listing (dirs : List Nat) (pinsListed : Bool) (candidates : List Candidate)
  /-- The candidates still to check, those checked, the one whose object is there now, the segments to return, and whether the
  sweep has given up on the rest. -/
  | checking (waiting : List Candidate) (checked : List (Candidate × Presence)) (confirmed : Option Candidate)
      (uploaded : List Nat) (stopped : Bool)
  deriving DecidableEq

/-- The WAL directories with their files, the pins, the objects of the mirror, the segments whose announcement was delivered to the
registrar, and what the process holds in memory: among it the `channel`, the announcements sent or returned and not delivered. -/
structure MirrorState where
  dirs : List Nat
  sealed : List Nat
  processing : List Nat
  committed : List Nat
  pins : List Nat
  objects : List Nat
  announced : List Nat
  channel : List Nat
  unqueued : List Nat
  queue : List Nat
  uploader : UploaderPhase
  sweep : SweepPhase

def MirrorState.init : MirrorState := ⟨[], [], [], [], [], [], [], [], [], [], .idle, .idle⟩

inductive UploadOutcome where
  | ok
  | failed (stored : Bool)
  | localNotFound
  deriving DecidableEq

inductive MirrorAction where
  | sealSegment (g : Nat)
  /-- `enqueue`: the pin is made, or fails, and the segment is queued. -/
  | enqueue (g : Nat) (pinned : Bool)
  | receive
  | upload (outcome : UploadOutcome)
  | stat (fails : Bool)
  /-- `notify_uploaded`. -/
  | notify
  /-- `remove_pin`. -/
  | unpin (fails : Bool)
  /-- The registrar takes the next announcement. -/
  | deliver
  | sweepStart
  /-- `list_pending` and `list_sealed`; a failed listing counts as empty. -/
  | listPending (fails : Bool)
  | listSealed (fails : Bool)
  | check (fails : Bool)
  | handle (readFails : Bool) (outcome : UploadOutcome)
  | settle (fails : Bool)
  | sweepReturn
  | claim (g : Nat)
  | release (g : Nat)
  | finish (g : Nat)
  | remove (g : Nat)
  | crash
  deriving DecidableEq

def without (l : List Nat) (g : Nat) : List Nat := l.filter fun h => h ≠ g

variable (s : MirrorState)

/-- `find_segment`: some local name is left. -/
def MirrorState.hasLocal (g : Nat) : Bool := g ∈ s.sealed ++ s.processing ++ s.committed ++ s.pins

def MirrorState.store (g : Nat) (stored : Bool) : MirrorState :=
  if stored then { s with objects := g :: s.objects } else s

/-- Candidates found in a directory; a segment that is listed already keeps its first entry. -/
def addCandidates (candidates : List Candidate) (names : List Nat) (pinned : Bool) : List Candidate :=
  candidates ++ ((names.insertionSort (· ≤ ·)).filter fun g => candidates.all fun c => c.segment ≠ g).map fun g => ⟨g, pinned⟩

/-- `read_sweep_candidate` finds bytes: under the candidate's own name, or under `processing/`. -/
def MirrorState.readable (c : Candidate) : Bool :=
  c.segment ∈ (if c.pinned then s.pins else s.sealed) || c.segment ∈ s.processing

variable (dirOf : Nat → Nat) (s : MirrorState)

def mirrorStep : MirrorAction → Option MirrorState
  | .sealSegment g =>
    if g ∈ s.unqueued ++ s.sealed ++ s.processing ++ s.committed ++ s.pins ++ s.objects then none
    else some { s with
      dirs := if dirOf g ∈ s.dirs then s.dirs else s.dirs ++ [dirOf g]
      sealed := g :: s.sealed
      unqueued := g :: s.unqueued }
  | .enqueue g pinned =>
    if g ∈ s.unqueued ∧ (pinned = true → s.hasLocal g = true) then
      some { s with
        pins := if pinned then g :: s.pins else s.pins
        unqueued := without s.unqueued g
        queue := s.queue ++ [g] }
    else none
  | .receive => match s.uploader, s.queue with
    | .idle, g :: queue => some { s with uploader := .attempting g 1, queue := queue }
    | _, _ => none
  | .upload outcome => match s.uploader with
    | .attempting g attempt => match outcome with
      | .ok => if s.hasLocal g then some { s.store g true with uploader := .stored g } else none
      | .failed stored =>
        if stored = true → s.hasLocal g = true then
          some { s.store g stored with
            uploader := if attempt < uploadAttempts then .attempting g (attempt + 1) else .statting g }
        else none
      | .localNotFound => some { s with uploader := .statting g }
    | _ => none
  | .stat fails => match s.uploader with
    | .statting g => some { s with uploader := if !fails && g ∈ s.objects then .stored g else .idle }
    | _ => none
  | .notify => match s.uploader with
    | .stored g => some { s with channel := s.channel ++ [g], uploader := .notified g }
    | _ => none
  | .unpin fails => match s.uploader with
    | .notified g => some { s with pins := if fails then s.pins else without s.pins g, uploader := .idle }
    | _ => none
  | .deliver => match s.channel with
    | g :: channel => some { s with announced := g :: s.announced, channel := channel }
    | [] => none
  | .sweepStart => match s.sweep with
    | .idle => some { s with sweep := .listing s.dirs false [] }
    | _ => none
  | .listPending fails => match s.sweep with
    | .listing (d :: dirs) false candidates =>
      let names := if fails then [] else s.pins.filter fun g => dirOf g = d
      some { s with sweep := .listing (d :: dirs) true (addCandidates candidates names true) }
    | _ => none
  | .listSealed fails => match s.sweep with
    | .listing (d :: dirs) true candidates =>
      let names := if fails then [] else s.sealed.filter fun g => dirOf g = d
      some { s with sweep := .listing dirs false (addCandidates candidates names false) }
    | _ => none
  | .check fails => match s.sweep with
    | .listing [] _ (c :: candidates) =>
      some { s with sweep := .checking candidates [(c, if fails then .unknown else if c.segment ∈ s.objects then .present
        else .absent)] none [] false }
    | .checking (c :: waiting) checked confirmed uploaded stopped =>
      some { s with sweep := .checking waiting (checked ++ [(c, if fails then .unknown else if c.segment ∈ s.objects then
        .present else .absent)]) confirmed uploaded stopped }
    | _ => none
  | .handle readFails outcome => match s.sweep with
    | .checking waiting ((c, presence) :: checked) none uploaded false => match presence with
      | .present =>
        some { s with sweep := .checking waiting checked (if c.pinned then some c else none) uploaded false }
      | .unknown => some { s with sweep := .checking waiting checked none uploaded true }
      | .absent =>
        if readFails || !s.readable c then some { s with sweep := .checking waiting checked none uploaded false }
        else match outcome with
          | .ok => some { s.store c.segment true with sweep := .checking waiting checked (some c) uploaded false }
          | .failed stored => some { s.store c.segment stored with sweep := .checking waiting checked none uploaded true }
          | .localNotFound => none
    | _ => none
  | .settle fails => match s.sweep with
    | .checking waiting checked (some c) uploaded stopped =>
      some { s with
        pins := if c.pinned && !fails then without s.pins c.segment else s.pins
        sweep := .checking waiting checked none (uploaded ++ [c.segment]) stopped }
    | _ => none
  | .sweepReturn => match s.sweep with
    | .listing [] _ [] => some { s with sweep := .idle }
    | .checking waiting checked none uploaded stopped =>
      if stopped || (waiting.isEmpty && checked.isEmpty) then
        some { s with channel := s.channel ++ uploaded, sweep := .idle }
      else none
    | _ => none
  | .claim g =>
    if g ∈ s.sealed then some { s with sealed := without s.sealed g, processing := g :: s.processing } else none
  | .release g =>
    if g ∈ s.processing then some { s with processing := without s.processing g, sealed := g :: s.sealed } else none
  | .finish g =>
    if g ∈ s.processing then some { s with processing := without s.processing g, committed := g :: s.committed } else none
  | .remove g => some { s with
      sealed := without s.sealed g, processing := without s.processing g, committed := without s.committed g }
  | .crash => some { s with channel := [], unqueued := [], queue := [], uploader := .idle, sweep := .idle }

/-! ## What must not be lost -/

variable (g : Nat)

/-- The uploader works on the segment, and has not told the registrar yet. -/
def MirrorState.uploaderHas : Bool :=
  match s.uploader with
  | .attempting h _ | .statting h | .stored h => h = g
  | .idle | .notified _ => false

/-- The sweep has the segment among those it will return. -/
def MirrorState.sweepHas : Bool :=
  match s.sweep with
  | .checking _ _ confirmed uploaded _ => confirmed.any (fun c => c.segment = g) || g ∈ uploaded
  | .idle | .listing _ _ _ => false

/-- The segments whose announcement was delivered or is on its way. -/
def MirrorState.told : List Nat := s.channel ++ s.announced

/-- An object in the mirror that nobody was told about, without a pin, and not in the hands of the uploader or the sweep. -/
def MirrorState.Stranded : Prop :=
  g ∈ s.objects ∧ g ∉ s.told ∧ g ∉ s.pins ∧ s.uploaderHas g = false ∧ s.sweepHas g = false

instance MirrorState.decidableStranded : Decidable (s.Stranded g) :=
  inferInstanceAs (Decidable (_ ∧ _))

def UploaderPhase.inHand : UploaderPhase → List Nat
  | .attempting g _ | .statting g | .stored g => [g]
  | .idle | .notified _ => []

def SweepPhase.toReturn : SweepPhase → List Nat
  | .checking _ _ confirmed uploaded _ => (confirmed.map Candidate.segment).toList ++ uploaded
  | .idle | .listing _ _ _ => []

/-- What a crash interrupts: the announcements not delivered yet, the segment the uploader works on, and those the sweep has to
return. -/
def MirrorState.inProgress : List Nat := s.channel ++ s.uploader.inHand ++ s.sweep.toReturn

/-- The segment of a step in progress still has its pin, or its announcement was delivered before. -/
def MirrorState.Recoverable : Prop := g ∈ s.pins ∨ g ∈ s.announced

instance MirrorState.decidableRecoverable : Decidable (s.Recoverable g) :=
  inferInstanceAs (Decidable (_ ∨ _))

/-- The step can be made up for: a crash interrupts work on recoverable segments only, and so are a segment the uploader gives up on
because it cannot determine its presence, and one for which an upload of the sweep fails although the object was stored. -/
def AnnounceSafe : MirrorAction → Prop
  | .crash => ∀ g ∈ s.inProgress, s.Recoverable g
  | .stat true => match s.uploader with
    | .statting g => s.Recoverable g
    | _ => True
  | .handle _ (.failed true) => match s.sweep with
    | .checking _ ((c, .absent) :: _) _ _ _ => s.Recoverable c.segment
    | _ => True
  | _ => True

def MirrorAction.succeeds : MirrorAction → Bool
  | .enqueue _ pinned => pinned
  | .upload (.failed _) => false
  | .stat fails | .unpin fails | .listPending fails | .listSealed fails | .check fails | .settle fails => !fails
  | .handle readFails outcome => !readFails && outcome = .ok
  | .crash => false
  | _ => true

end LogLake.Mirror
