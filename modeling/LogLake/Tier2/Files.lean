import LogLake.GroupCounts
import LogLake.Lib.Buckets
import LogLake.Lib.MisraGries

/-!
# Data files as the counting paths read them

A live data file has the bounds of its event times in the manifest, row groups with statistics of
their own, and footers with counts by minute and by value.
-/

namespace LogLake.Tier2

/-- What is counted of a row: its event time, as `column_nanos` gives it, and the key of each column, none for NULL. -/
structure Row where
  timestamp : Option Int
  value : Text → Option Text

variable (w : Window)

def Row.Within (r : Row) : Prop := ∃ t ∈ r.timestamp, w.Holds t

instance decidableWithin (r : Row) : Decidable (r.Within w) :=
  inferInstanceAs (Decidable (∃ t ∈ r.timestamp, w.Holds t))

structure Bounded (rows : List Row) (lower upper : Option Int) : Prop where
  lower_le : ∀ lo ∈ lower, ∀ r ∈ rows, ∀ t ∈ r.timestamp, lo ≤ t
  le_upper : ∀ hi ∈ upper, ∀ r ∈ rows, ∀ t ∈ r.timestamp, t ≤ hi

/-- A row group with the statistics of its event times. -/
structure RowGroup where
  rows : List Row
  min : Option Int
  max : Option Int
  bounded : Bounded rows min max

/-- The row group may hold rows of the window, by its statistics. -/
def RowGroup.selected (g : RowGroup) : Bool :=
  match g.min, g.max with
  | some min, some max => decide ((∀ hi ∈ w.hi, min < hi) ∧ ∀ lo ∈ w.lo, lo ≤ max)
  | _, _ => true

/-! ## Footers -/

def timeBucketBaseNs : Int := 60000000000

def maxGroupCountCardinality : Nat := 1024

def eventTimes (rows : List Row) : List Int := rows.filterMap Row.timestamp

structure TimeBucketFooter where
  buckets : SortedMap Int Nat
  nulls : Nat

def timeBucketFooter (rows : List Row) : TimeBucketFooter :=
  ⟨SortedMap.tally ((eventTimes rows).map (Bucket.start64 0 timeBucketBaseNs)), (rows.map Row.timestamp).count none⟩

/-- One row of a column of `file_group_counts`; none when the distinct values exceed the cap. -/
def countWithin (cap : Nat) (counts : GroupCounts) : Option Text → Option GroupCounts
  | none => some { counts with nulls := counts.nulls + 1 }
  | some v =>
    if (counts.values.get? v).isSome ∨ counts.values.entries.length < cap then
      some { counts with values := counts.values.bump v 1 }
    else none

def fileGroupCounts (cap : Nat) (keys : List (Option Text)) : Option GroupCounts := keys.foldlM (countWithin cap) ⟨.empty, 0⟩

/-! ## Files -/

structure DataFile where
  path : Text
  parquet : Bool
  groups : List RowGroup
  /-- `data_file_timestamp_lower_ns`. -/
  lower : Option Int
  /-- `data_file_timestamp_upper_ns`. -/
  upper : Option Int
  timeFooter : Option TimeBucketFooter
  groupFooter : Text → Option GroupCounts
  bounded : Bounded (groups.flatMap RowGroup.rows) lower upper
  bounded_of_some : ∀ lo ∈ lower, ∃ r ∈ groups.flatMap RowGroup.rows, r.timestamp.isSome
  /-- The footers are those of a batch that holds the file's rows. -/
  footers : ∃ written : List Row, (groups.flatMap RowGroup.rows).Sublist written ∧
    (∀ footer ∈ timeFooter, footer = timeBucketFooter written) ∧
    ∀ column, ∀ counts ∈ groupFooter column,
      fileGroupCounts maxGroupCountCardinality (written.map fun r => r.value column) = some counts

namespace DataFile

variable (f : DataFile)

def rows : List Row := f.groups.flatMap RowGroup.rows

def untimed : List Row := f.rows.filter fun r => r.timestamp.isNone

def recordCount : Nat := f.rows.length

variable (shard : Option (Text → Bool))

/-- The shard of a sharded call takes the file; every file belongs to an unsharded one. -/
def Owned (f : DataFile) : Prop := ∀ owns ∈ shard, owns f.path = true

variable (w : Window) (f : DataFile)

/-- The manifest bounds exclude the window. -/
def Pruned : Prop :=
  (∃ upper ∈ f.upper, ∃ lo ∈ w.lo, upper < lo) ∨ ∃ lower ∈ f.lower, ∃ hi ∈ w.hi, hi ≤ lower

instance decidableOwned : Decidable (f.Owned shard) :=
  inferInstanceAs (Decidable (∀ owns ∈ shard, _))

instance decidablePruned : Decidable (f.Pruned w) := inferInstanceAs (Decidable (_ ∨ _))

def candidates (files : List DataFile) : List DataFile :=
  files.filter fun f => f.Owned shard ∧ ¬f.Pruned w

/-- The rows of the window that a scan of the file finds: `pruned_window_batch_stream`, and then the filter of its reader. -/
def scan : List Row :=
  ((f.groups.filter (RowGroup.selected w)).flatMap RowGroup.rows).filter fun r => r.Within w

end DataFile

/-- A file of one row group without statistics, with the footers of its own rows. -/
def DataFile.ofRows (path : Text) (rows : List Row) (lower upper : Option Int) (bounded : Bounded rows lower upper)
    (bounded_of_some : ∀ lo ∈ lower, ∃ r ∈ rows, r.timestamp.isSome) : DataFile where
  path := path
  parquet := true
  groups := [⟨rows, none, none, ⟨nofun, nofun⟩⟩]
  lower := lower
  upper := upper
  timeFooter := some (timeBucketFooter rows)
  groupFooter column := fileGroupCounts maxGroupCountCardinality (rows.map fun r => r.value column)
  bounded := by simpa using bounded
  bounded_of_some := by simpa using bounded_of_some
  footers := ⟨rows, by simp, fun footer h => (Option.mem_some.mp h).symm, fun column counts h => h⟩

end LogLake.Tier2
