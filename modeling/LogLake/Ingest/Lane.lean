import LogLake.Lib.Transition
import LogLake.Wal.Writer

/-!
# A lane: its task, the drain and the requests that wait

Write commands, ticks, rebinds and active-mirror requests are queued for the task of a lane.
-/

namespace LogLake.Ingest

inductive CommitMode where
  | auto | waitFor | force
  deriving DecidableEq, Repr

def CommitMode.rank : CommitMode → Nat
  | .auto => 0
  | .waitFor => 1
  | .force => 2

def CommitMode.max (a b : CommitMode) : CommitMode := if a.rank ≤ b.rank then b else a

variable {ρ : Type}

structure WriteCommand (ρ : Type) where
  rows : List ρ
  mode : CommitMode

inductive LaneCommand (ρ : Type) where
  | write (command : WriteCommand ρ)
  | tick
  | rebind (uuid : Option Nat)
  | mirrorActive

/-- The commands one round of the task works on: those appended already and those to come, what the last append that wrote
anything sealed, and what is left to do after the answers. -/
structure Group (ρ : Type) where
  done : List (WriteCommand ρ)
  todo : List (WriteCommand ρ)
  sealed : Option Nat
  rebind : Option (Option Nat)
  tick : Bool

def Group.mode (g : Group ρ) : CommitMode := (g.done ++ g.todo).foldr (fun c m => c.mode.max m) .auto

/-- What the drain of waiting commands takes, and what it leaves in the queue. -/
structure Collected (ρ : Type) where
  writes : List (WriteCommand ρ)
  rebind : Option (Option Nat)
  tick : Bool
  queue : List (LaneCommand ρ)

/-- The drain of waiting commands: at most `available` of them, until a rebind is taken or 50 000 rows are together. -/
def collect : Nat → Nat → List (LaneCommand ρ) → Collected ρ
  | available + 1, rows, .write c :: queue =>
    if rows + c.rows.length ≥ 50000 then ⟨[c], none, false, queue⟩
    else
      let more := collect available (rows + c.rows.length) queue
      { more with writes := c :: more.writes }
  | available + 1, rows, .tick :: queue => { collect available rows queue with tick := true }
  | available + 1, rows, .mirrorActive :: queue => collect available rows queue
  | _ + 1, _, .rebind uuid :: queue => ⟨[], some uuid, false, queue⟩
  | _, _, queue => ⟨[], none, false, queue⟩

inductive LanePhase (ρ : Type) where
  | idle
  | appending (group : Group ρ)
  | answered (rebind : Option (Option Nat)) (tick : Bool)

inductive WaitPhase where
  /-- About to look into `sealed/`. -/
  | polling
  | sealedAbsent
  | ok
  | failed
  deriving DecidableEq

/-- A request that waits: its rows and the segment of its receipt. -/
structure Waiter (ρ : Type) where
  rows : List ρ
  segment : Option Nat
  phase : WaitPhase

structure LaneState (ρ : Type) where
  wal : Wal ρ
  queue : List (LaneCommand ρ)
  lane : LanePhase ρ
  answered : List (WriteCommand ρ)
  /-- The `force` requests answered Ok by the lane. -/
  waiters : List (Waiter ρ)

def LaneState.init : LaneState ρ := ⟨.empty, [], .idle, [], []⟩

/-- `append_batches_with_commit` after the appends: the log and the segment of the receipt. -/
def commitGroup (mode : CommitMode) (sealed : Option Nat) (w : Wal ρ) : Wal ρ × Option Nat :=
  match mode with
  | .auto => (w, none)
  | .waitFor => (if sealed.isNone then w.syncActive else w, none)
  | .force => if sealed.isSome then (w, sealed) else w.seal

/-- A request that starts to wait; without a segment there is nothing to wait for. -/
def newWaiter (receipt : Option Nat) (c : WriteCommand ρ) : Waiter ρ :=
  ⟨c.rows, receipt, if receipt.isNone then .ok else .polling⟩

variable (w : Wal ρ)

/-- A rename of a segment file by the drain, `none` when the file is not in the source directory. -/
def Wal.move (source target : Place) (i : Nat) : Option (Wal ρ) :=
  (w.segments[i]?).bind fun seg =>
    if seg.place = source then some (w.update i fun seg => { seg with place := target }) else none

def Wal.isAt (i : Nat) (place : Place) : Bool := (w.segments[i]?).any fun seg => seg.place = place

/-- Where an append fails: opening a segment, writing to it, flushing it, or in the seal after the write. -/
inductive AppendFailure where
  | start | write | flush
  | sealing (renamed : Bool)

def Wal.appendFails (batch : List ρ) : AppendFailure → Wal ρ
  | .start => w
  | .write => w.startSegment
  | .flush => w.write batch
  | .sealing renamed => (w.write batch).sealFails renamed

inductive LaneAction (ρ : Type) where
  | send (command : LaneCommand ρ)
  | receive (available : Nat)
  | append (aged : Bool)
  | appendFails (failure : AppendFailure)
  | reply
  | replyFails (failedSeal : Option Bool)
  | rebind
  | rebindFails (renamed : Bool)
  | tick (aged : Bool)
  | tickFails (renamed : Bool)
  | shutdown
  | claim (i : Nat)
  | release (i : Nat)
  | quarantine (source : Place) (i : Nat)
  | commitIceberg (i : Nat)
  | finish (i : Nat)
  | checkSealed (waiter : Nat)
  | checkProcessing (waiter : Nat)
  | timeout (waiter : Nat)

variable (s : LaneState ρ)

/-- A waiting request in a phase moves on to another one. -/
def LaneState.advance (waiter : Nat) (phase : WaitPhase) (next : Wal ρ → Nat → WaitPhase) : Option (LaneState ρ) :=
  (s.waiters[waiter]?).bind fun w => w.segment.bind fun i =>
    if w.phase = phase then
      some { s with waiters := s.waiters.modify waiter fun w => { w with phase := next s.wal i } }
    else none

def laneStep (maxEvents : Nat) (s : LaneState ρ) : LaneAction ρ → Option (LaneState ρ)
  | .send command => some { s with queue := s.queue ++ [command] }
  | .receive available => match s.lane, s.queue with
    | .idle, .write c :: queue =>
      let taken := collect available c.rows.length queue
      some { s with queue := taken.queue, lane := .appending ⟨[], c :: taken.writes, none, taken.rebind, taken.tick⟩ }
    | .idle, .tick :: queue => some { s with queue := queue, lane := .answered none true }
    | .idle, .rebind uuid :: queue => some { s with queue := queue, lane := .answered (some uuid) false }
    | .idle, .mirrorActive :: queue => some { s with queue := queue }
    | _, _ => none
  | .append aged => match s.lane with
    | .appending ⟨done, c :: todo, sealed, rebind, tick⟩ =>
      if c.rows.isEmpty then some { s with lane := .appending ⟨done ++ [c], todo, sealed, rebind, tick⟩ }
      else
        let appended := s.wal.appendBatch maxEvents aged c.rows
        some { s with wal := appended.1, lane := .appending ⟨done ++ [c], todo, appended.2, rebind, tick⟩ }
    | _ => none
  | .appendFails failure => match s.lane with
    | .appending ⟨_, c :: _, _, rebind, tick⟩ =>
      if c.rows.isEmpty then none
      else some { s with wal := s.wal.appendFails c.rows failure, lane := .answered rebind tick }
    | _ => none
  | .reply => match s.lane with
    | .appending ⟨done, [], sealed, rebind, tick⟩ =>
      let committed := commitGroup (Group.mode ⟨done, [], sealed, rebind, tick⟩) sealed s.wal
      some { s with
        wal := committed.1
        lane := .answered rebind tick
        answered := s.answered ++ done
        waiters := s.waiters ++ (done.filter fun c => c.mode = .force).map (newWaiter committed.2) }
    | _ => none
  | .replyFails failedSeal => match s.lane with
    | .appending ⟨_, [], none, rebind, tick⟩ =>
      some { s with wal := failedSeal.elim s.wal fun renamed => s.wal.sealFails renamed, lane := .answered rebind tick }
    | _ => none
  | .rebind => match s.lane with
    | .answered (some uuid) tick => some { s with wal := s.wal.bindTableUuid uuid, lane := .answered none tick }
    | _ => none
  | .rebindFails renamed => match s.lane with
    | .answered (some _) tick => some { s with wal := s.wal.sealFails renamed, lane := .answered none tick }
    | _ => none
  | .tick aged => match s.lane with
    | .answered none true => some { s with wal := s.wal.tick aged, lane := .idle }
    | .answered none false => some { s with lane := .idle }
    | _ => none
  | .tickFails renamed => match s.lane with
    | .answered none true => some { s with wal := s.wal.sealFails renamed, lane := .idle }
    | _ => none
  | .shutdown => match s.lane, s.queue with
    | .idle, [] => some { s with wal := s.wal.seal.1 }
    | _, _ => none
  | .claim i => (s.wal.move .sealed .processing i).map fun wal => { s with wal := wal }
  | .release i => (s.wal.move .processing .sealed i).map fun wal => { s with wal := wal }
  | .quarantine source i =>
    if source = .sealed ∨ source = .processing then
      (s.wal.move source .quarantined i).map fun wal => { s with wal := wal }
    else none
  | .commitIceberg i =>
    if s.wal.isAt i .processing then some { s with wal := s.wal.update i fun seg => { seg with inIceberg := true } } else none
  | .finish i =>
    if (s.wal.segments[i]?).any fun seg => seg.inIceberg then
      (s.wal.move .processing .committed i).map fun wal => { s with wal := wal }
    else none
  | .checkSealed waiter =>
    s.advance waiter .polling fun wal i => if wal.isAt i .sealed then .polling else .sealedAbsent
  | .checkProcessing waiter =>
    s.advance waiter .sealedAbsent fun wal i => if wal.isAt i .processing then .polling else .ok
  | .timeout waiter => s.advance waiter .polling fun _ _ => .failed

/-! ## What an answer promises -/

/-- Every request answered Ok that asked for it has its rows in fsynced files. -/
def LaneState.AnswersDurable : Prop :=
  ∀ c ∈ s.answered, c.mode ≠ .auto → ∀ row ∈ c.rows, s.wal.Durable row

/-- Every `force` request whose wait returned Ok has its rows in the table. -/
def LaneState.WaitsCommitted : Prop :=
  ∀ w ∈ s.waiters, w.phase = .ok → ∀ row ∈ w.rows, s.wal.Committed row

end LogLake.Ingest
