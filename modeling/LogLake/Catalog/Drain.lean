import LogLake.Catalog.Proof
import LogLake.Lib.Transition

/-!
# Draining one table

Any number of clients work on the segments of one tenant and index.
-/

namespace LogLake.Catalog

/-- What a sweep knows: the claims it listed, or what it decided about them. -/
inductive SweepPhase where
  | idle
  | listed (claims : List ClaimedSegment)
  | decided (proven : List Text) (requeue : List ClaimedSegment)

/-- The claim a sweep queues again next, when there is nothing left to mark. -/
def SweepPhase.next : SweepPhase → Option ClaimedSegment
  | .decided [] (claim :: _) => some claim
  | _ => none

/-- How far a transaction that marks rows has come: their UPDATE has run, then the candidate of the watermark was selected,
then the stored watermark was read. -/
inductive MarkPhase where
  | updated
  | selected (candidate : Option Int)
  | decided (candidate : Option Int) (current : Option ConsumedProofWatermark)

def MarkPhase.candidate : MarkPhase → Option Int
  | .updated => none
  | .selected candidate | .decided candidate _ => candidate

/-- An open transaction of `mark_committed_batch` or of `mark_reclaimed_committed`: the rows its UPDATE matched, which stay
locked, and what it wrote to them. Nobody else sees that before the COMMIT. -/
structure Marking where
  ids : List Text
  now : Int
  reclaimed : Bool
  phase : MarkPhase

/-- The ledger with the rows as the transaction wrote them: what its own statements see, and everybody after the COMMIT. -/
def Marking.apply (m : Marking) (ledger : Ledger) : Ledger :=
  ledger.update (fun row => row.id ∈ m.ids)
    (fun row =>
      { row with status := .committed, committedAt := some m.now, claimer := if m.reclaimed then none else row.claimer })
    fun _ => rfl

/-- A candidate that a transaction selected, and the rows it took as committed because it marks them. -/
structure Candidate where
  through : Int
  marks : List Text

structure Client where
  reading : Int
  held : List ClaimedSegment
  committed : List Text
  /-- The boundary and the terminal entries the next commit takes along. -/
  boundary : Option Int
  terminal : List Text
  sweep : SweepPhase
  marking : Option Marking

structure DrainState where
  clock : Int
  ledger : Ledger
  /-- The rows of open transactions: another statement on one of them waits. -/
  locked : List Text
  watermark : Option ConsumedProofWatermark
  /-- Every candidate selected so far, and every boundary written. -/
  candidates : List Candidate
  published : List Int
  proof : Option ConsumedProof
  snapshots : List ProofSnapshot
  /-- The segments whose rows were appended to the table, once for every time. -/
  appended : List ClaimedSegment
  clients : Text → Client

def Client.new (reading : Int) : Client where
  reading := reading
  held := []
  committed := []
  boundary := none
  terminal := []
  sweep := .idle
  marking := none

/-- The start: a table just created, any ledger, idle clients. -/
def DrainState.start (clock : Int) (ledger : Ledger) : DrainState where
  clock := clock
  ledger := ledger
  locked := []
  watermark := none
  candidates := []
  published := []
  proof := none
  snapshots := []
  appended := []
  clients := fun _ => Client.new clock

inductive DrainAction where
  | tick (ms : Nat)
  | read (p : Text)
  | register (p id segmentUrl : Text) (bytes rows : Int)
  | begin (p : Text)
  | claim (p : Text) (ids : List Text)
  | release (p id : Text)
  | quarantine (p id : Text)
  | requeueQuarantined
  | readBoundary (p : Text) (verified : Option Text)
  | readTerminal (p : Text)
  | commit (p : Text) (ids : List Text)
  | mark (p : Text)
  | compact (p : Text)
  | expire (snapshots : Nat)
  | list (p : Text) (limit : Nat)
  | prove (p : Text) (readable : Bool)
  | markReclaimed (p : Text)
  | selectCandidate (p : Text)
  | readWatermark (p : Text)
  | commitMark (p : Text) (verified : Option Text)
  | rollback (p : Text)
  | requeue (p : Text)

namespace DrainState

variable (s : DrainState)

def setClient (p : Text) (client : Client) : DrainState :=
  { s with clients := Function.update s.clients p client }

/-- The UPDATE of a transaction: it takes the rows that match, unless one of them is locked. -/
def openMark (matched : Row → Bool) (now : Int) (reclaimed : Bool) (p : Text) (c : Client) : Option DrainState :=
  let ids := (s.ledger.rows.filter matched).map Row.id
  if c.marking.isNone ∧ ∀ id ∈ ids, id ∉ s.locked then
    some ({ s with locked := s.locked ++ ids }.setClient p { c with marking := some ⟨ids, now, reclaimed, .updated⟩ })
  else none

def unlock (ids : List Text) : List Text := s.locked.filter fun id => id ∉ ids

/-- The watermark moves, and the COMMIT makes it and the marked rows visible. -/
def commitMark (m : Marking) (verified : Option Text) (candidate : Option Int) (current : Option ConsumedProofWatermark) :
    DrainState :=
  let watermark := advanceWatermark verified candidate current s.watermark
  { s with
    ledger := m.apply s.ledger
    locked := s.unlock m.ids
    watermark
    published := s.published ++ (watermark.map ConsumedProofWatermark.acknowledgedThrough).toList }

def sources : ReclaimProofSources where
  durable := s.proof
  retained := s.snapshots.flatMap ProofSnapshot.consumed

/-- The claims in a selection, as the claim returns them; those of other targets go to other commits. -/
def claimable (tenant indexId : Text) (ids : List Text) : List Row :=
  s.ledger.rows.filter fun row => row.id ∈ ids ∧ row.status = .sealed ∧ row.tenant = tenant ∧ row.indexId = indexId

end DrainState

/-- How many ids one statement takes. -/
def chunkSize : Nat := 256

variable (tenant indexId : Text) (maxAge : Int) (s : DrainState)

def drainStep : DrainAction → Option DrainState
  | .tick ms => some { s with clock := s.clock + ms }
  | .read p => some (s.setClient p { s.clients p with reading := s.clock })
  | .register p id segmentUrl bytes rows =>
    some { s with ledger := register id tenant indexId segmentUrl bytes rows (s.clients p).reading s.ledger }
  | .begin p =>
    some (s.setClient p { s.clients p with held := [], committed := [], boundary := none, terminal := [] })
  | .claim p ids =>
    let c := s.clients p
    if ∀ claim ∈ c.held, claim.id ∉ ids then
      some ({ s with ledger := claimRows p c.reading ids s.ledger }.setClient p
        { c with held := c.held ++ (s.claimable tenant indexId ids).map fun row => Row.claimed row c.reading })
    else none
  | .release p id =>
    let c := s.clients p
    if (∃ claim ∈ c.held, claim.id = id) ∧ id ∉ s.locked then
      some ({ s with ledger := release p c.reading id s.ledger }.setClient p
        { c with held := c.held.filter fun claim => claim.id ≠ id })
    else none
  | .quarantine p id =>
    let c := s.clients p
    if (∃ claim ∈ c.held, claim.id = id) ∧ id ∉ s.locked then
      some ({ s with ledger := quarantineTerminal p id s.ledger }.setClient p
        { c with held := c.held.filter fun claim => claim.id ≠ id })
    else none
  | .requeueQuarantined => some { s with ledger := requeueQuarantined s.ledger }
  | .readBoundary p verified =>
    some (s.setClient p { s.clients p with boundary := watermarkForIncarnation s.watermark verified })
  | .readTerminal p => some (s.setClient p { s.clients p with terminal := terminalEntries s.proof tenant indexId s.ledger })
  | .commit p ids =>
    let c := s.clients p
    let claims := c.held.filter fun claim => claim.id ∈ ids
    let names := claims.map fun claim => basename claim.id
    let action : MergeConsumedProof :=
      { additions := claims.map fun claim => ⟨basename claim.id, claim.claimedAt⟩
        acknowledgedThrough := c.boundary
        terminal := c.terminal }
    (action.commit s.proof s.snapshots).toOption.map fun proof =>
      let snapshots := s.snapshots ++ [ProofSnapshot.mk s.clock names]
      { s with proof := some proof, snapshots, appended := s.appended ++ claims }.setClient p
        { c with
          held := c.held.filter fun claim => claim.id ∉ ids
          committed := c.committed ++ claims.map ClaimedSegment.id }
  | .mark p =>
    let c := s.clients p
    if c.committed = [] then none
    else s.openMark (fun row => row.id ∈ c.committed.take chunkSize ∧ row.ClaimedBy p) c.reading false p
      { c with committed := c.committed.drop chunkSize }
  | .compact p =>
    let c := s.clients p
    c.boundary.bind fun boundary =>
      let action : MergeConsumedProof := { additions := [], acknowledgedThrough := some boundary, terminal := c.terminal }
      (action.commit s.proof s.snapshots).toOption.map fun proof => { s with proof := some proof }
  | .expire n => some { s with snapshots := s.snapshots.drop n }
  | .list p limit =>
    let c := s.clients p
    let claims := (abandonedClaims c.reading maxAge limit s.ledger).filter fun claim =>
      claim.tenant = tenant ∧ claim.indexId = indexId
    some (s.setClient p { c with sweep := .listed claims })
  | .prove p readable =>
    let c := s.clients p
    match c.sweep with
    | .listed claims =>
      let proves (claim : ClaimedSegment) : Bool := readable && s.sources.proves claim.id
      some (s.setClient p { c with
        sweep := .decided ((claims.filter proves).map ClaimedSegment.id) (claims.filter fun claim => !proves claim) })
    | _ => none
  | .markReclaimed p =>
    let c := s.clients p
    match c.sweep with
    | .decided (id :: ids) requeue =>
      let proven := id :: ids
      s.openMark (fun row => row.id ∈ proven.take chunkSize ∧ row.status = .processing) c.reading true p
        { c with sweep := .decided (proven.drop chunkSize) requeue }
    | _ => none
  | .selectCandidate p =>
    let c := s.clients p
    match c.marking with
    | some ⟨ids, now, reclaimed, .updated⟩ =>
      let candidate := watermarkCandidate tenant indexId (Marking.apply ⟨ids, now, reclaimed, .updated⟩ s.ledger)
      some ({ s with candidates := s.candidates ++ (candidate.map fun through => Candidate.mk through ids).toList }.setClient p
        { c with marking := some ⟨ids, now, reclaimed, .selected candidate⟩ })
    | _ => none
  | .readWatermark p =>
    let c := s.clients p
    match c.marking with
    | some ⟨ids, now, reclaimed, .selected candidate⟩ =>
      some (s.setClient p { c with marking := some ⟨ids, now, reclaimed, .decided candidate s.watermark⟩ })
    | _ => none
  | .commitMark p verified =>
    let c := s.clients p
    match c.marking with
    | some ⟨ids, now, reclaimed, .decided candidate current⟩ =>
      some ((s.commitMark ⟨ids, now, reclaimed, .decided candidate current⟩ verified candidate current).setClient p
        { c with marking := none })
    | _ => none
  | .rollback p =>
    let c := s.clients p
    c.marking.map fun m => { s with locked := s.unlock m.ids }.setClient p { c with marking := none }
  | .requeue p =>
    let c := s.clients p
    match c.sweep with
    | .decided [] (claim :: rest) =>
      if claim.id ∉ s.locked then
        some ({ s with ledger := requeueClaim claim.id s.ledger }.setClient p { c with sweep := .decided [] rest })
      else none
    | _ => none

/-! ## Conditions -/

/-- A claim whose holder may still commit it. -/
def DrainState.Timely (claim : ClaimedSegment) : Prop := s.clock < claim.claimedAt + maxAge

/-- What the ways of losing count rest on: a drain commits less than `maxAge` after its claim; a sweep reads the proof,
and queues a row again only while the row is under the claim it listed. -/
def ReclaimSafe : DrainAction → Prop
  | .commit p ids => ∀ claim ∈ (s.clients p).held, claim.id ∈ ids → s.Timely maxAge claim
  | .prove _ readable => readable = true
  | .requeue p => ∀ claim ∈ (s.clients p).sweep.next, ∀ row ∈ s.ledger.row claim.id,
      row.status = .processing → row.claimedAt = some claim.claimedAt
  | .readBoundary _ _ | .readTerminal _ => False
  | _ => True

instance decidableReclaimSafe (a : DrainAction) : Decidable (ReclaimSafe maxAge s a) := by
  cases a <;> (dsimp only [ReclaimSafe, DrainState.Timely]; infer_instance)

/-- The rows a claim takes were registered no later than the time it writes, and every candidate that a marking transaction
has selected so far lies before it, whether or not it has been written. -/
def ClaimSafe : DrainAction → Prop
  | .claim p ids => ∀ row ∈ s.claimable tenant indexId ids,
      row.registeredAt ≤ (s.clients p).reading ∧ ∀ c ∈ s.candidates, c.through < (s.clients p).reading
  | _ => True

instance decidableClaimSafe (a : DrainAction) : Decidable (ClaimSafe tenant indexId s a) := by
  cases a <;> (dsimp only [ClaimSafe]; infer_instance)

/-! ## What the proof is for -/

def Terminal (ledger : Ledger) (id : Text) : Prop := ∃ row, ledger.row id = some row ∧ row.status = .committed

/-- A segment whose rows are in the table and whose row of the ledger is not committed has an entry in the proof. -/
def DrainState.KeepsEvidence : Prop :=
  ∀ claim ∈ s.appended, ¬ Terminal s.ledger claim.id → ∃ proof, s.proof = some proof ∧ proof.contains (basename claim.id) = true

/-- A segment whose entry had a time at or below the watermark is committed. -/
def DrainState.BoundaryTerminal : Prop :=
  ∀ claim ∈ s.appended, ∀ w, s.watermark = some w → claim.claimedAt ≤ w.acknowledgedThrough → Terminal s.ledger claim.id

end LogLake.Catalog
