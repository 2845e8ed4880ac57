import LogLake.Catalog.Ledger
import LogLake.Lib.Transition

/-!
# Claims of sharded drains

A drain may be responsible for a part of the indexes only.
-/

namespace LogLake.Catalog

inductive Dialect where
  | postgres | sqlite
  deriving DecidableEq

/-- How a drain claims: its database, its batch size and its shard. -/
structure ShardConfig where
  dialect : Dialect
  batch : Nat
  shardIndex : Nat
  shardCount : Nat

namespace ShardConfig

variable (cfg : ShardConfig)

def count : Nat := max cfg.shardCount 1

def index : Nat := if cfg.count = 1 then 0 else cfg.shardIndex % cfg.count

def fetch : Nat := min (cfg.batch * cfg.count) (cfg.batch * 16)

/-- The index belongs to the shard of the drain. -/
def Owns (indexId : Text) : Prop := cfg.count = 1 ∨ indexShard indexId cfg.count = cfg.index

instance decidableOwns (indexId : Text) : Decidable (cfg.Owns indexId) :=
  inferInstanceAs (Decidable (cfg.count = 1 ∨ indexShard indexId cfg.count = cfg.index))

end ShardConfig

/-- A statement on one row that is still to come. -/
inductive RowStatement where
  | release (id : Text)
  | claim (row : Row)

/-- What the first statement of `try_claim_sharded` leaves behind: the rows claimed, and the statements still to come. -/
structure FirstClaim where
  ledger : Ledger
  claimed : List ClaimedSegment
  pending : List RowStatement

/-- The first statement of `try_claim_sharded`, a claim or a listing. -/
def firstClaim (cfg : ShardConfig) (claimer : Text) (now : Int) (locked : Text → Bool) (ledger : Ledger) : FirstClaim :=
  match cfg.dialect with
  | .postgres =>
    let selected := selectSealed now cfg.fetch locked ledger
    { ledger := claimRows claimer now (selected.map Row.id) ledger
      claimed := (selected.filter fun row => cfg.Owns row.indexId).map fun row => Row.claimed row now
      pending := (selected.filter fun row => ¬ cfg.Owns row.indexId).map fun row => .release row.id }
  | .sqlite =>
    let candidates := selectSealed now cfg.fetch (fun _ => false) ledger
    { ledger
      claimed := []
      pending := (candidates.filter fun row => cfg.Owns row.indexId).map .claim }

/-- One of the statements that follow, and the row it claimed. -/
def RowStatement.run (claimer : Text) (now : Int) (ledger : Ledger) : RowStatement → Ledger × Option ClaimedSegment
  | .release id => (Catalog.release claimer now id ledger, none)
  | .claim row =>
    if (ledger.row row.id).any fun current => current.status = .sealed then
      (claimRows claimer now [row.id] ledger, some (Row.claimed row now))
    else (ledger, none)

def runAll (claimer : Text) (at' : Nat → Int) : List RowStatement → Ledger → Ledger × List ClaimedSegment
  | [], ledger => (ledger, [])
  | statement :: rest, ledger =>
    let (ledger, claimed) := statement.run claimer (at' rest.length) ledger
    let (ledger, later) := runAll claimer at' rest ledger
    (ledger, claimed.toList ++ later)

/-- `try_claim_sharded` without other drains at work: the time of the first statement, and of each that follows. -/
def tryClaimSharded (cfg : ShardConfig) (claimer : Text) (now : Int) (at' : Nat → Int) (locked : Text → Bool)
    (ledger : Ledger) : Ledger × List ClaimedSegment :=
  if cfg.batch = 0 then (ledger, [])
  else
    let first := firstClaim cfg claimer now locked ledger
    let (ledger, claimed) := runAll claimer at' first.pending first.ledger
    (ledger, first.claimed ++ claimed)

/-! ## Drains of several shards -/

/-- What a drain has claimed in its cycle, and the statements still to come. -/
structure ShardWorker where
  claimed : List ClaimedSegment
  pending : List RowStatement

structure ShardState where
  ledger : Ledger
  workers : Text → ShardWorker

def ShardState.start (ledger : Ledger) : ShardState where
  ledger := ledger
  workers := fun _ => ⟨[], []⟩

inductive ShardAction where
  | claim (p : Text) (now : Int) (locked : Text → Bool)
  | next (p : Text) (now : Int)

def ShardAction.worker : ShardAction → Text
  | .claim p _ _ => p
  | .next p _ => p

variable (cfg : Text → ShardConfig) (s : ShardState)

def shardStep : ShardAction → Option ShardState
  | .claim p now locked =>
    if (s.workers p).pending.isEmpty ∧ (cfg p).batch ≠ 0 then
      let first := firstClaim (cfg p) p now locked s.ledger
      some { ledger := first.ledger, workers := Function.update s.workers p ⟨first.claimed, first.pending⟩ }
    else none
  | .next p now =>
    match (s.workers p).pending with
    | [] => none
    | statement :: rest =>
      let (ledger, claimed) := statement.run p now s.ledger
      some { ledger, workers := Function.update s.workers p ⟨(s.workers p).claimed ++ claimed.toList, rest⟩ }

/-- The claim of one statement takes rows of the drain's own shard only; the other database lists before it claims. -/
def ShardSafe : ShardAction → Prop
  | .claim p now locked => (cfg p).dialect = .postgres →
      ∀ row ∈ selectSealed now (cfg p).fetch locked s.ledger, (cfg p).Owns row.indexId
  | .next _ _ => True

instance decidableShardSafe (a : ShardAction) : Decidable (ShardSafe cfg s a) := by
  cases a <;> (dsimp only [ShardSafe]; infer_instance)

end LogLake.Catalog
