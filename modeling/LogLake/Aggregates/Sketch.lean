import LogLake.Aggregates.Deltas
import LogLake.GroupCounts
import LogLake.Lib.MisraGries

/-!
# Exact and sketched group counts

A column is counted exactly as long as its distinct values fit a cap, and summarised by a bounded
number of counters after that.
-/

namespace LogLake

structure ColumnSketch where
  counters : SortedMap Text Nat
  errorFloor : Nat
  m : Nat
  rows : Nat
  deriving DecidableEq

namespace ColumnSketch

def new (m : Nat) : ColumnSketch := ⟨.empty, 0, max m 1, 0⟩

variable (s : ColumnSketch)

/-- `ColumnSketch::prune`: subtract the `(m + 1)`-th largest count from every counter and drop what reaches zero. -/
def prune : ColumnSketch :=
  if s.counters.entries.length ≤ s.m then s
  else
    let cut := s.counters.nthLargest s.m
    { s with counters := s.counters.lower cut, errorFloor := s.errorFloor + cut }

/-- `ColumnSketch::from_exact`: an exact map is a summary with nothing subtracted yet. -/
def fromExact (m : Nat) (exact : SortedMap Text Nat) (rows : Nat) : ColumnSketch := prune ⟨exact, 0, max m 1, rows⟩

/-- `ColumnSketch::offer`: a new value may grow the counters to twice the capacity before they are pruned. -/
def offer (value : Text) : ColumnSketch :=
  let offered := { s with counters := s.counters.bump value 1, rows := s.rows + 1 }
  if (s.counters.get? value).isSome then offered
  else if offered.counters.entries.length > 2 * s.m then offered.prune
  else offered

def merge (s other : ColumnSketch) : ColumnSketch :=
  prune ⟨s.counters.add other.counters, s.errorFloor + other.errorFloor, max s.m other.m, s.rows + other.rows⟩

end ColumnSketch

inductive SketchBuild where
  | new (m : Nat)
  | fromExact (m : Nat) (exact : SortedMap Text Nat) (rows : Nat)
  | offer (b : SketchBuild) (value : Text)
  | merge (b other : SketchBuild)

namespace SketchBuild

def sketch : SketchBuild → ColumnSketch
  | .new m => .new m
  | .fromExact m exact rows => .fromExact m exact rows
  | .offer b value => b.sketch.offer value
  | .merge b other => b.sketch.merge other.sketch

/-- The values it is built over, each as often as it was offered or counted. -/
def values : SketchBuild → List Text
  | .new _ => []
  | .fromExact _ exact _ => exact.elements
  | .offer b value => value :: b.values
  | .merge b other => b.values ++ other.values

def capacities : SketchBuild → List Nat
  | .new m => [m]
  | .fromExact m _ _ => [m]
  | .offer b _ => b.capacities
  | .merge b other => b.capacities ++ other.capacities

end SketchBuild

def groupCountSketchVersion : Nat := 1

/-- `GroupCountSketches`: the summaries of the columns that an exact aggregate could not cover. -/
structure GroupCountSketches where
  version : Nat
  columns : SortedMap Text ColumnSketch
  deriving DecidableEq

namespace GroupCountSketches

def empty : GroupCountSketches := ⟨groupCountSketchVersion, .empty⟩

/-- `GroupCountSketches::merge`: a version that is not recognised is dropped. -/
def merge (s other : GroupCountSketches) : GroupCountSketches :=
  if other.version ≠ groupCountSketchVersion then s
  else { s with columns := s.columns.mergeWith (fun acc sketch => (acc.map (·.merge sketch)).getD sketch) other.columns }

end GroupCountSketches

structure FileGroupCounts where
  columns : SortedMap Text GroupCounts
  deriving DecidableEq

namespace FileGroupCounts

def empty : FileGroupCounts := ⟨.empty⟩

/-- `FileGroupCounts::merge` under the cap `usize::MAX`, which no map exceeds. -/
def mergeUncapped (c other : FileGroupCounts) : FileGroupCounts :=
  ⟨c.columns.mergeWith (fun acc counts => (acc.getD ⟨.empty, 0⟩).fold counts) other.columns⟩

end FileGroupCounts

/-- What one commit, or the table, holds of its columns: the exact counts and the summaries. -/
structure ColumnAggregates where
  exact : FileGroupCounts
  sketches : GroupCountSketches
  deriving DecidableEq

namespace ColumnAggregates

def empty : ColumnAggregates := ⟨.empty, .empty⟩

/-- One column of `demote_over_cap_columns`: its counts leave the exact side, as the rows of its values and its NULLs. -/
def demoteColumn (m : Nat) (a : ColumnAggregates) (col : Text) : ColumnAggregates :=
  match a.exact.columns.get? col with
  | none => a
  | some counts =>
    let demoted := ColumnSketch.fromExact m counts.values (counts.values.total + counts.nulls)
    ⟨⟨a.exact.columns.erase col⟩,
      { a.sketches with
        columns := a.sketches.columns.upsert col fun old => (old.map (·.merge demoted)).getD demoted }⟩

variable (cap m : Nat)

def demoteOverCapColumns (a : ColumnAggregates) : ColumnAggregates :=
  (a.exact.columns.keysWith fun c => decide (cap < c.values.entries.length)).foldl (demoteColumn m) a

/-- One column of `reconcile_split_columns`: its counts leave the exact side, as the rows of its values alone. -/
def reconcileColumn (m : Nat) (a : ColumnAggregates) (col : Text) : ColumnAggregates :=
  match a.exact.columns.get? col with
  | none => a
  | some counts =>
    let asSketch := ColumnSketch.fromExact m counts.values counts.values.total
    let sketches :=
      match a.sketches.columns.get? col with
      | some target => { a.sketches with columns := a.sketches.columns.upsert col fun _ => target.merge asSketch }
      | none => a.sketches
    ⟨⟨a.exact.columns.erase col⟩, sketches⟩

/-- `reconcile_split_columns`: a column that is counted exactly and summarised goes into its summary. -/
def reconcileSplitColumns (m : Nat) (a : ColumnAggregates) : ColumnAggregates :=
  ((a.sketches.columns.entries.map Prod.fst).filter fun col => (a.exact.columns.get? col).isSome).foldl (reconcileColumn m) a

/-- Merge one commit's delta into an accumulated value, uncapped, and demote what outgrew the cap. -/
def absorb (acc delta : ColumnAggregates) : ColumnAggregates :=
  demoteOverCapColumns cap m ⟨acc.exact.mergeUncapped delta.exact, acc.sketches.merge delta.sketches⟩

/-- The counts of a table, as the folders and readers of the delta objects merge them. -/
def wideMerge : WideMerge ColumnAggregates ColumnAggregates where
  empty := .empty
  absorb := absorb cap m
  reconcile := reconcileSplitColumns m
  isSome a := !a.exact.columns.entries.isEmpty || !a.sketches.columns.entries.isEmpty

/-- For how many rows of a column a value accounts: its exact counts, NULLs included, and its summary's rows. -/
def accountedRows (a : ColumnAggregates) (column : Text) : Nat :=
  (((a.exact.columns.get? column).map fun c => c.values.total + c.nulls).getD 0) +
    (((a.sketches.columns.get? column).map (·.rows)).getD 0)

end ColumnAggregates

/-! ## Counting a batch -/

/-- A record batch: the cast-to-`Utf8` values of a column, `none` for NULL; no list when the schema lacks the column or
its type is not counted. -/
abbrev RecordBatch := Text → Option (List (Option Text))

def rowsOf (column : Text) (batch : RecordBatch) : List (Option Text) := (batch column).getD []

def present (keys : List (Option Text)) : List Text := keys.filterMap id

/-- The process's caps: the operator's, and the one for a typed column that was not declared. -/
structure GroupCountCaps where
  table : Nat
  typed : Nat

variable (caps : GroupCountCaps)

def groupCountCapFor (declared : List Text) (column : Text) : Nat :=
  if column ∈ declared then caps.table else min caps.table caps.typed

structure ColumnScan where
  values : SortedMap Text Nat
  nulls : Nat
  sketch : Option ColumnSketch
  seen : Nat

/-- One row: exact until the value would exceed the cap, then the tally is handed over. -/
def ColumnScan.row (cap m : Nat) (s : ColumnScan) : Option Text → ColumnScan
  | none => { s with nulls := s.nulls + 1 }
  | some v =>
    let s := { s with seen := s.seen + 1 }
    match s.sketch with
    | some sketch => { s with sketch := some (sketch.offer v) }
    | none =>
      if (s.values.get? v).isSome ∨ s.values.entries.length < cap then { s with values := s.values.bump v 1 }
      else { s with values := .empty, sketch := some ((ColumnSketch.fromExact m s.values (s.seen - 1)).offer v) }

def ColumnScan.scan (cap m : Nat) (keys : List (Option Text)) : ColumnScan :=
  keys.foldl (ColumnScan.row cap m) ⟨.empty, 0, none, 0⟩

def countColumn (declared : List Text) (m : Nat) (batch : RecordBatch) (a : ColumnAggregates)
    (col : Text) : ColumnAggregates :=
  match batch col with
  | none => a
  | some keys =>
    let scanned := ColumnScan.scan (groupCountCapFor caps declared col) m keys
    match scanned.sketch with
    | some s => { a with sketches := { a.sketches with columns := a.sketches.columns.upsert col fun _ => s } }
    | none => { a with exact := ⟨a.exact.columns.upsert col fun _ => ⟨scanned.values, scanned.nulls⟩⟩ }

def fileGroupCountsAndSketches (declared columns : List Text) (m : Nat) (batch : RecordBatch) : ColumnAggregates :=
  columns.foldl (countColumn caps declared m batch) .empty

/-- The value that fold cycles leave: each merges the deltas of some commits and reconciles, on top of what the cycles before
left; a reader's fold is the last one. -/
def foldCycles {κ δ : Type} (w : WideMerge κ δ) (cycles : List (List δ)) : κ :=
  cycles.foldl (fun acc deltas => w.reconcile (deltas.foldl w.absorb acc)) w.empty

/-- The table's aggregates after commits of these batches, folded in these cycles. -/
def tableAggregates (declared columns : List Text) (m : Nat) (cycles : List (List RecordBatch)) : ColumnAggregates :=
  foldCycles (ColumnAggregates.wideMerge caps.table m)
    (cycles.map (·.map (fileGroupCountsAndSketches caps declared columns m)))

end LogLake
