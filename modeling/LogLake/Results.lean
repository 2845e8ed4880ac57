import Mathlib

/-!
# Results under a row cap

A result arrives as batches and is cut to a number of rows on three paths: a batch job collects with a bound and then renders,
a buffered answer renders everything it collected, and a stream renders batch by batch. The breaker on the rows scanned does
not trip here.
-/

namespace LogLake

variable {ρ : Type}

/-! ## Collecting -/

/-- The loop of `collect_plan_with_caps_stream` under `AccumulationBound::StopAtRows`, with the rows seen so far. -/
def collectLoop (cap : Nat) : Nat → List (List ρ) → List (List ρ)
  | _, [] => []
  | seen, batch :: rest =>
    batch :: if cap ≤ seen + batch.length then [] else collectLoop cap (seen + batch.length) rest

variable (batches : List (List ρ))

def collectWithRowCaps (maxRowsReturned : Nat) : List (List ρ) :=
  collectLoop maxRowsReturned 0 batches

/-! ## Records -/

structure RecordsResponse (ρ : Type) where
  rowCount : Nat
  rows : List ρ
  truncated : Bool
  maxRows : Option Nat
  deriving DecidableEq

def trimBatchesTo : List (List ρ) → Nat → List (List ρ)
  | [], _ => []
  | b :: rest, remaining =>
    if remaining = 0 then []
    else if b.length ≤ remaining then b :: trimBatchesTo rest (remaining - b.length)
    else b.take remaining :: trimBatchesTo rest 0

def batchesToRecords (maxRows : Option Nat) : RecordsResponse ρ :=
  let totalRows := (batches.map List.length).sum
  match maxRows with
  | some cap =>
    if cap < totalRows then ⟨cap, (trimBatchesTo batches cap).flatten, true, some cap⟩
    else ⟨totalRows, batches.flatten, false, none⟩
  | none => ⟨totalRows, batches.flatten, false, none⟩

/-- The answer of `run_batch_query_in` from the batches of its plan. -/
def runBatchQuery (maxRows : Nat) : RecordsResponse ρ :=
  batchesToRecords (collectWithRowCaps batches maxRows) (some maxRows)

/-! ## The stream -/

/-- A chunk of the stream: the rows of a batch, or the truncation marker with the rows emitted and the cap. -/
inductive Chunk (ρ : Type) where
  | rows (batch : List ρ)
  | truncated (rowCount maxRows : Nat)
  deriving DecidableEq

structure NdjsonStream (ρ : Type) where
  inner : List (List ρ)
  rowsEmitted : Nat
  maxRows : Option Nat
  finished : Bool
  trailer : Option (Chunk ρ)

def NdjsonStream.new (inner : List (List ρ)) (maxRows : Option Nat) : NdjsonStream ρ := ⟨inner, 0, maxRows, false, none⟩

/-- `clip_batch`: what to emit of a batch, and whether the cap is exhausted. -/
def NdjsonStream.clipBatch (s : NdjsonStream ρ) (batch : List ρ) : List ρ × Bool :=
  match s.maxRows with
  | none => (batch, false)
  | some cap =>
    if batch.length ≤ cap - s.rowsEmitted then (batch, false) else (batch.take (cap - s.rowsEmitted), true)

def NdjsonStream.pollNext (s : NdjsonStream ρ) : Option (Chunk ρ) × NdjsonStream ρ :=
  match s.trailer with
  | some trailer => (some trailer, { s with trailer := none, finished := true })
  | none =>
    if s.finished then (none, s)
    else match s.inner with
      | [] => (none, { s with finished := true })
      | batch :: inner =>
        let emitted := s.rowsEmitted + (s.clipBatch batch).1.length
        (some (.rows (s.clipBatch batch).1),
          { s with
            inner := inner
            rowsEmitted := emitted
            trailer := if (s.clipBatch batch).2 then some (.truncated emitted (s.maxRows.getD emitted)) else none })

/-- The chunks of up to `n` polls, until the stream has ended. -/
def NdjsonStream.polls : Nat → NdjsonStream ρ → List (Chunk ρ)
  | 0, _ => []
  | n + 1, s => match s.pollNext with
    | (none, _) => []
    | (some chunk, s) => chunk :: polls n s

def Chunk.emitted : Chunk ρ → List ρ
  | .rows batch => batch
  | .truncated _ _ => []

def Chunk.isMarker : Chunk ρ → Bool
  | .rows _ => false
  | .truncated _ _ => true

/-! ## What an answer owes -/

/-- The answer holds the first rows up to the cap, and says exactly when there are more. -/
def Signals (cap : Nat) (batches : List (List ρ)) (rows : List ρ) (truncated : Bool) : Prop :=
  rows = batches.flatten.take cap ∧ (truncated = true ↔ cap < batches.flatten.length)

/-- Where a batch ends with exactly as many rows as the cap, no rows follow. -/
def NoRowsBehindCap (cap : Nat) (batches : List (List ρ)) : Prop :=
  ∀ front rest, front ≠ [] → batches = front ++ rest → front.flatten.length = cap → rest.flatten = []

end LogLake
