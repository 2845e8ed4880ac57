import Mathlib

/-!
# The writer of a write-ahead log

A writer appends batches to its active segment and seals it when it is full or old.
-/

namespace LogLake.Ingest

/-- The directory a segment file is in. -/
inductive Place where
  | active | sealed | processing | committed | quarantined
  deriving DecidableEq, Repr

/-- A segment: the rows written to it, how many of them the last fsync covered, where the file is, and whether the drain
has committed its rows to the table. -/
structure Segment (ρ : Type) where
  rows : List ρ
  synced : Nat
  place : Place
  inIceberg : Bool

def Segment.durable {ρ : Type} (seg : Segment ρ) : List ρ := seg.rows.take seg.synced

/-- The segments of a log, and what its writer keeps: the active segment and the table it is bound to. -/
structure Wal (ρ : Type) where
  segments : List (Segment ρ)
  current : Option Nat
  tableUuid : Option Nat

variable {ρ : Type}

def Wal.empty : Wal ρ := ⟨[], none, none⟩

variable (w : Wal ρ)

def Wal.active : Option (Segment ρ) := w.current.bind fun i => w.segments[i]?

def Wal.update (i : Nat) (f : Segment ρ → Segment ρ) : Wal ρ := { w with segments := w.segments.modify i f }

def Wal.updateActive (f : Segment ρ → Segment ρ) : Wal ρ := w.current.elim w fun i => w.update i f

/-- `start_segment`, when there is no active segment. -/
def Wal.startSegment : Wal ρ :=
  match w.current with
  | some _ => w
  | none => { w with segments := w.segments ++ [⟨[], 0, .active, false⟩], current := some w.segments.length }

/-- The write of a batch to the active segment, flushed to the operating system. -/
def Wal.write (batch : List ρ) : Wal ρ :=
  w.startSegment.updateActive fun seg => { seg with rows := seg.rows ++ batch }

/-- `seal`: the segment is synced and moved to `sealed/`; an empty one is dropped. -/
def Wal.seal : Wal ρ × Option Nat :=
  match w.active with
  | none => ({ w with current := none }, none)
  | some seg =>
    if seg.rows.isEmpty then ({ w with current := none }, none)
    else ({ w.updateActive (fun seg => { seg with synced := seg.rows.length, place := .sealed }) with current := none }, w.current)

/-- A seal that fails: the writer has let go of the segment. -/
def Wal.sealFails (renamed : Bool) (w : Wal ρ) : Wal ρ :=
  { w.updateActive (fun seg => if renamed then { seg with place := .sealed } else seg) with current := none }

/-- Whether an append will seal the segment: it becomes full, or is old. -/
def Wal.rolls (maxEvents : Nat) (aged : Bool) (w : Wal ρ) (batch : List ρ) : Bool :=
  (w.active.elim 0 fun seg => seg.rows.length) + batch.length ≥ maxEvents || aged

/-- `append_batch`: the segment is sealed when it has reached `maxEvents` rows or its age. -/
def Wal.appendBatch (maxEvents : Nat) (aged : Bool) (w : Wal ρ) (batch : List ρ) : Wal ρ × Option Nat :=
  let written := w.write batch
  if (written.active.elim 0 fun seg => seg.rows.length) ≥ maxEvents ∨ aged then written.seal else (written, none)

def Wal.syncActive : Wal ρ := w.updateActive fun seg => { seg with synced := seg.rows.length }

/-- `tick`: a segment with rows that is old enough is sealed. -/
def Wal.tick (aged : Bool) (w : Wal ρ) : Wal ρ :=
  if (w.active.elim true fun seg => seg.rows.isEmpty) ∨ !aged then w else w.seal.1

/-- `bind_table_uuid`: the open segment is sealed under the previous table. -/
def Wal.bindTableUuid (uuid : Option Nat) : Wal ρ :=
  if w.tableUuid = uuid then w else { w.seal.1 with tableUuid := uuid }

/-- A row is in a WAL file and fsynced. -/
def Wal.Durable (row : ρ) : Prop := ∃ seg ∈ w.segments, row ∈ seg.durable

def Wal.Committed (row : ρ) : Prop := ∃ seg ∈ w.segments, seg.inIceberg = true ∧ row ∈ seg.rows

end LogLake.Ingest
