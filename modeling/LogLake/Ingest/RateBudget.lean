import LogLake.Lib.Transition

/-!
# The shared ingest budget

Replicas share one token bucket per key, which a script in the store refills by the clock of the replica that runs it and takes
a token from. Tokens are rationals, times are in seconds.
-/

namespace LogLake.RateBudget

/-- The fields of a key, and the time the store drops the key at. -/
structure Bucket where
  tokens : ℚ
  lastRefillMs : Int
  expiresAt : ℚ
  deriving DecidableEq

/-- The script is run for a replica: the time, and what the replica's clock says. -/
structure Execution where
  time : ℚ
  clock : ℚ
  deriving DecidableEq

/-- `now_ms`: the clock in whole milliseconds. -/
def Execution.nowMs (e : Execution) : Int := ⌊e.clock * 1000⌋

/-- The script's answer: throttled or not, and after how many seconds to retry. -/
structure Answer where
  throttled : Bool
  retrySecs : Int
  deriving DecidableEq

def stored (key : Option Bucket) (e : Execution) : Option Bucket := key.filter fun b => e.time < b.expiresAt

def elapsedS (nowMs lastMs : Int) : ℚ := max 0 (((nowMs - lastMs : Int) : ℚ) / 1000)

variable (rate burst : ℚ) (key : Option Bucket)

def refilled (nowMs : Int) : ℚ :=
  match key with
  | none => min burst (burst + elapsedS nowMs nowMs * rate)
  | some b => min burst (b.tokens + elapsedS nowMs b.lastRefillMs * rate)

variable (e : Execution)

/-- `BUDGET_LUA`. The key lives for an hour after it was last used. -/
def budgetScript : Answer × Bucket :=
  let tokens := refilled rate burst (stored key e) e.nowMs
  if 1 ≤ tokens then (⟨false, 0⟩, ⟨tokens - 1, e.nowMs, e.time + 3600⟩)
  else (⟨true, max 1 ⌈(1 - tokens) / rate⌉⟩, ⟨tokens, e.nowMs, e.time + 3600⟩)

/-- The script, run after run, on one key: each execution with its answer. -/
def answers (rate burst : ℚ) : Option Bucket → List Execution → List (Execution × Answer)
  | _, [] => []
  | key, e :: rest =>
    (e, (budgetScript rate burst key e).1) :: answers rate burst (some (budgetScript rate burst key e).2) rest

/-- An execution that admitted a request between two times. -/
def AdmittedWithin (lo hi : ℚ) (x : Execution × Answer) : Prop := x.2.throttled = false ∧ lo ≤ x.1.time ∧ x.1.time ≤ hi

instance (lo hi : ℚ) : DecidablePred (AdmittedWithin lo hi) := fun _ => inferInstanceAs (Decidable (_ ∧ _))

/-- The clock is not behind the one of the last refill, a key that was dropped would have been full by now, and a millisecond
brings no more than a token. -/
def Steady : Prop :=
  rate ≤ 1000 ∧ ∀ b ∈ key, b.lastRefillMs ≤ e.nowMs ∧
    (b.expiresAt ≤ e.time → burst ≤ b.tokens + ((e.nowMs - b.lastRefillMs : Int) : ℚ) / 1000 * rate)

instance : Decidable (Steady rate burst key e) :=
  inferInstanceAs (Decidable (_ ∧ _))

def budgetStep : Option (Option Bucket) :=
  some (some (budgetScript rate burst key e).2)

end LogLake.RateBudget
