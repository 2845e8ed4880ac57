import LogLake.Lib.KeyedTable
import LogLake.Text

/-!
# The segment ledger

The catalog keeps one row for every segment of the mirror: sealed, being processed under a claim,
committed, or quarantined.
-/

namespace LogLake.Catalog

inductive Status where
  | sealed | processing | committed | quarantined
  deriving DecidableEq

structure Row where
  id : Text
  tenant : Text
  indexId : Text
  segmentUrl : Text
  bytes : Int
  rows : Int
  status : Status
  attempts : Nat
  notBefore : Option Int
  claimer : Option Text
  claimedAt : Option Int
  committedAt : Option Int
  registeredAt : Int
  deriving DecidableEq

/-- The table `wal_segments`; the id is its primary key. -/
abbrev Ledger : Type := KeyedTable Row.id

structure ClaimedSegment where
  id : Text
  tenant : Text
  indexId : Text
  segmentUrl : Text
  bytes : Int
  rows : Int
  claimedAt : Int
  deriving DecidableEq

/-- The row as a claim made at a time returns it. -/
def Row.claimed (row : Row) (claimedAt : Int) : ClaimedSegment where
  id := row.id
  tenant := row.tenant
  indexId := row.indexId
  segmentUrl := row.segmentUrl
  bytes := row.bytes
  rows := row.rows
  claimedAt := claimedAt

def newRow (id tenant indexId segmentUrl : Text) (bytes rows : Int) (now : Int) : Row where
  id := id
  tenant := tenant
  indexId := indexId
  segmentUrl := segmentUrl
  bytes := bytes
  rows := rows
  status := .sealed
  attempts := 0
  notBefore := none
  claimer := none
  claimedAt := none
  committedAt := none
  registeredAt := now

def register (id tenant indexId segmentUrl : Text) (bytes rows : Int) (now : Int) (ledger : Ledger) : Ledger :=
  ledger.insertNew (newRow id tenant indexId segmentUrl bytes rows now)

/-! ## Claims -/

variable (now : Int)

/-- The condition of the selection in `try_claim_sharded`: sealed, and past its backoff. -/
def Row.Due (row : Row) : Prop := row.status = .sealed ∧ ∀ t ∈ row.notBefore, t ≤ now

instance decidableDue (row : Row) : Decidable (row.Due now) :=
  inferInstanceAs (Decidable (row.status = .sealed ∧ ∀ t ∈ row.notBefore, t ≤ now))

/-- The selection in `try_claim_sharded`: the oldest rows that are due, up to a limit. -/
def selectSealed (limit : Nat) (locked : Text → Bool) (ledger : Ledger) : List Row :=
  ((ledger.rows.filter fun row => decide (row.Due now) && !locked row.id).insertionSort
    fun a b => a.registeredAt ≤ b.registeredAt).take limit

variable (claimer : Text) (now : Int)

def Row.claim (row : Row) : Row :=
  { row with status := .processing, claimer := some claimer, claimedAt := some now }

variable (ids : List Text) (ledger : Ledger)

/-- The claim of `try_claim_sharded`: the sealed rows among those selected. -/
def claimRows : Ledger :=
  ledger.update (fun row => row.id ∈ ids ∧ row.status = .sealed) (Row.claim claimer now) fun _ => rfl

def indexShard (indexId : Text) (shardCount : Nat) : Nat :=
  ((asBytes indexId).foldl (fun h b => (h ^^^ b.toUInt64) * 0x1000000001b3) (0xcbf29ce484222325 : UInt64)).toNat % shardCount

/-! ## Giving a claim back -/

def releaseMaxAttempts : Nat := 12

/-- The backoff after a number of attempts: one second, doubled each time, at last five minutes. -/
def backoff (attempts : Nat) : Int := if attempts ≥ 8 then 300000 else 1000 * ((1 <<< attempts : Nat) : Int)

/-- The condition of the statements a claimer runs on its own claims. -/
def Row.ClaimedBy (row : Row) : Prop := row.status = .processing ∧ row.claimer = some claimer

instance decidableClaimedBy (row : Row) : Decidable (row.ClaimedBy claimer) :=
  inferInstanceAs (Decidable (row.status = .processing ∧ row.claimer = some claimer))

/-- A row that is released: one attempt more, and set aside when there were too many. -/
def Row.release (maxAttempts : Nat) (row : Row) : Row :=
  { row with
    status := if row.attempts + 1 ≥ maxAttempts then .quarantined else .sealed
    attempts := row.attempts + 1
    notBefore := some (now + backoff row.attempts)
    claimer := none
    claimedAt := none }

def releaseWithBackoff (maxAttempts : Nat) (id : Text) (ledger : Ledger) : Ledger :=
  ledger.update (fun row => row.id = id ∧ row.ClaimedBy claimer) (Row.release now maxAttempts) fun _ => rfl

variable (id : Text) (ledger : Ledger)

def release : Ledger :=
  releaseWithBackoff claimer now releaseMaxAttempts id ledger

def quarantineTerminal : Ledger :=
  ledger.update (fun row => row.id = id ∧ row.ClaimedBy claimer)
    (fun row =>
      { row with status := .quarantined, attempts := row.attempts + 1, notBefore := none, claimer := none, claimedAt := none })
    fun _ => rfl

def requeueQuarantined : Ledger :=
  ledger.update (fun row => row.status = .quarantined)
    (fun row => { row with status := .sealed, attempts := 0, notBefore := none }) fun _ => rfl

def markCommitted : Ledger :=
  ledger.update (fun row => row.id ∈ ids ∧ row.ClaimedBy claimer)
    (fun row => { row with status := .committed, committedAt := some now }) fun _ => rfl

/-! ## Abandoned claims -/

/-- `abandoned_claims`: the oldest claims made before the cutoff, up to a limit. -/
def abandonedClaims (now maxAge : Int) (limit : Nat) (ledger : Ledger) : List ClaimedSegment :=
  let cutoff := now - maxAge
  let abandoned := ledger.rows.filterMap fun row =>
    if row.status = .processing then (row.claimedAt.filter (· < cutoff)).map row.claimed else none
  (abandoned.insertionSort fun a b => a.claimedAt ≤ b.claimedAt).take limit

def markReclaimed : Ledger :=
  ledger.update (fun row => row.id ∈ ids ∧ row.status = .processing)
    (fun row => { row with status := .committed, committedAt := some now, claimer := none }) fun _ => rfl

def requeueClaim : Ledger :=
  ledger.update (fun row => row.id = id ∧ row.status = .processing)
    (fun row => { row with status := .sealed, claimer := none, claimedAt := none }) fun _ => rfl

/-! ## Retention -/

/-- `purgeable_committed`: the ids and the keys of the rows committed before the cutoff, oldest first, up to a limit. -/
def purgeableCommitted (now maxAge : Int) (limit : Nat) (ledger : Ledger) : List (Text × Text) :=
  let cutoff := now - maxAge
  let eligible := ledger.rows.filterMap fun row =>
    if row.status = .committed then (row.committedAt.filter (· < cutoff)).map fun t => (t, row.id, row.segmentUrl) else none
  ((eligible.insertionSort fun a b => a.1 ≤ b.1).take limit).map Prod.snd

def purgeCommitted : Ledger :=
  ledger.retain fun row => ¬ (row.status = .committed ∧ row.id ∈ ids)

/-! ## The watermark of a target -/

structure ConsumedProofWatermark where
  acknowledgedThrough : Int
  tableUuid : Option Text
  deriving DecidableEq

/-- `WATERMARK_CANDIDATE_SQL` and what is made of its two values: just below the oldest registration that is not committed,
or the latest claim when there is none. -/
def watermarkCandidate (tenant indexId : Text) (ledger : Ledger) : Option Int :=
  let target := ledger.rows.filter fun row => row.tenant = tenant ∧ row.indexId = indexId
  let oldestNonterminal := ((target.filter fun row => row.status ≠ .committed).map Row.registeredAt).min?
  let latestTerminal := ((target.filter fun row => row.status = .committed).map fun row =>
    ((row.claimedAt.or row.committedAt).getD row.registeredAt)).max?
  (oldestNonterminal.map (· - 1)).or latestTerminal

/-- What `advance_consumed_proof_watermark_in` writes over the stored row, for the candidate it computed and the row it read:
a later boundary of the same incarnation replaces the stored one, and so does any boundary of another. -/
def advanceWatermark (tableUuid : Option Text) (candidate : Option Int) (current stored : Option ConsumedProofWatermark) :
    Option ConsumedProofWatermark :=
  match candidate, current with
  | none, _ => stored
  | some candidate, some read =>
    if read.tableUuid = tableUuid then
      if candidate > read.acknowledgedThrough then
        -- `WATERMARK_ADVANCE_SQL` compares again with the row it updates, and not the incarnation.
        stored.map fun w => if w.acknowledgedThrough < candidate then { w with acknowledgedThrough := candidate } else w
      else stored
    else stored.map fun _ => { acknowledgedThrough := candidate, tableUuid }
  | some candidate, none => some { acknowledgedThrough := candidate, tableUuid }

end LogLake.Catalog
