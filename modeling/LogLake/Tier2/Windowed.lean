import LogLake.Tier2.Files

/-!
# Counting a window file by file

`grouped_counts_windowed` and `date_histogram_counts`.
-/

namespace LogLake.Tier2

/-! ## Grouped counts -/

namespace DataFile

/-- The manifest bounds lie within the window. -/
def Contained (w : Window) (f : DataFile) : Prop :=
  ∃ lower ∈ f.lower, ∃ upper ∈ f.upper, (∀ lo ∈ w.lo, lo ≤ lower) ∧ ∀ hi ∈ w.hi, upper < hi

instance decidableContained (w : Window) (f : DataFile) : Decidable (f.Contained w) :=
  inferInstanceAs (Decidable (∃ lower ∈ f.lower, _))

/-- `read_file_group_counts_for_path`: the footer's counts, when they account for exactly the file's rows. -/
def readGroupCounts (column : Text) (f : DataFile) : Option GroupCounts :=
  (f.groupFooter column).filter fun counts => counts.values.total + counts.nulls = f.rows.length

/-- `scan_file_group_counts_windowed`; it fails on the first batch it decodes of a column that is not of type `Utf8`. -/
def scanGroupCounts (utf8 : Bool) (column : Text) (w : Window) (f : DataFile) : Option GroupCounts :=
  let decoded := (f.groups.filter (RowGroup.selected w)).flatMap RowGroup.rows
  if utf8 || decoded.isEmpty then some (groupCounts ((f.scan w).map fun r => r.value column)) else none

end DataFile

/-- `grouped_counts_windowed`, for a column that is of type `Utf8` or another counted one. -/
def groupedCountsWindowed (shard : Option (Text → Bool)) (utf8 : Bool) (column : Text) (w : Window) (files : List DataFile) :
    Option GroupCounts :=
  if files.any fun f => !f.parquet then none
  else
    let overlapping := DataFile.candidates shard w files
    let contained := overlapping.filter fun f => f.Contained w
    let served := contained.filterMap (DataFile.readGroupCounts column)
    let boundary := (overlapping.filter fun f => ¬f.Contained w) ++
      contained.filter fun f => (f.readGroupCounts column).isNone
    (boundary.mapM (DataFile.scanGroupCounts utf8 column w)).map fun scans =>
      (served ++ scans).foldl GroupCounts.fold ⟨.empty, 0⟩

/-- `SELECT column, count(*)` over the rows of the window, grouped by the column. -/
def referenceGroupCounts (shard : Option (Text → Bool)) (column : Text) (w : Window) (files : List DataFile) : GroupCounts :=
  groupCounts ((((files.filter fun f => f.Owned shard).flatMap DataFile.rows).filter fun r => r.Within w).map
    fun r => r.value column)

/-! ## Date histograms -/

structure TimeBucketCounts where
  widthNs : Int
  buckets : SortedMap Int Nat

/-- The aggregate counts the event times of these rows. -/
structure TimeBucketCounts.Counts (agg : TimeBucketCounts) (rows : List Row) : Prop where
  width_pos : 0 < agg.widthNs
  buckets_eq : agg.buckets = SortedMap.tally ((eventTimes rows).map (Bucket.start 0 agg.widthNs))

def dateHistogramFromSnapshotAgg (recordCount : Nat) (agg : TimeBucketCounts) (interval origin : Int) (w : Window) :
    Option (SortedMap Int Nat) :=
  if agg.buckets.total ≠ recordCount then none
  else if interval % agg.widthNs ≠ 0 ∨ origin % agg.widthNs ≠ 0 then none
  else if agg.buckets.entries.any fun e =>
      decide (w.Meets e.1 (saturate64 (e.1 + agg.widthNs)) ∧ ¬w.Covers e.1 (saturate64 (e.1 + agg.widthNs))) then none
  else
    some ((agg.buckets.entries.filter fun e => w.Meets e.1 (saturate64 (e.1 + agg.widthNs))).foldl
      (fun counts e => counts.bump (Bucket.start64 origin interval e.1) e.2) .empty)

namespace DataFile

/-- The file's event times are in one bucket, which lies within the window: its record count is taken. -/
def SingleBucket (interval origin : Int) (w : Window) (f : DataFile) : Prop :=
  ∃ lower ∈ f.lower, ∃ upper ∈ f.upper, Bucket.start64 origin interval lower = Bucket.start64 origin interval upper ∧
    w.Covers (Bucket.start64 origin interval lower) (saturate64 (Bucket.start64 origin interval lower + interval))

instance decidableSingleBucket (interval origin : Int) (w : Window) (f : DataFile) :
    Decidable (f.SingleBucket interval origin w) :=
  inferInstanceAs (Decidable (∃ lower ∈ f.lower, _))

/-- `read_file_time_buckets`: none with a row without an event time, or when the counts are not the file's. -/
def readTimeBuckets (f : DataFile) : Option (SortedMap Int Nat) :=
  (f.timeFooter.filter fun footer => footer.nulls = 0 ∧ footer.buckets.total = f.rows.length).map TimeBucketFooter.buckets

end DataFile

/-- A minute of the footer lies across an edge of the window. -/
def EdgeStraddle (w : Window) (buckets : SortedMap Int Nat) : Prop :=
  ∃ e ∈ buckets.entries, ¬w.Covers e.1 (saturate64 (e.1 + timeBucketBaseNs)) ∧ w.Meets e.1 (saturate64 (e.1 + timeBucketBaseNs))

instance decidableEdgeStraddle (w : Window) (buckets : SortedMap Int Nat) : Decidable (EdgeStraddle w buckets) :=
  inferInstanceAs (Decidable (∃ e ∈ buckets.entries, _))

/-- The footer can answer a file, when minutes nest in the buckets. -/
def DataFile.footerBuckets (eligible : Bool) (w : Window) (f : DataFile) : Option (SortedMap Int Nat) :=
  if eligible then f.readTimeBuckets.filter fun buckets => ¬EdgeStraddle w buckets else none

variable (interval origin : Int)

/-- Minutes nest in the buckets asked for. -/
def footerEligible : Bool := interval % timeBucketBaseNs = 0 ∧ origin % timeBucketBaseNs = 0

/-- The per-file part of `date_histogram_counts`: single buckets by statistics, then footers, then scans. -/
def fileHistogram (shard : Option (Text → Bool)) (w : Window) (files : List DataFile) : SortedMap Int Nat :=
  let overlapping := DataFile.candidates shard w files
  let byStats := overlapping.filter fun f => f.SingleBucket interval origin w
  let rest := overlapping.filter fun f => ¬f.SingleBucket interval origin w
  let eligible := footerEligible interval origin
  let footers := rest.filterMap (DataFile.footerBuckets eligible w)
  let scanned := rest.filter fun f => (f.footerBuckets eligible w).isNone
  let counts := byStats.foldl
    (fun counts f => counts.bump (Bucket.start64 origin interval (f.lower.getD 0)) f.recordCount) SortedMap.empty
  let counts := footers.foldl (fun counts buckets =>
    (buckets.entries.filter fun e => w.Covers e.1 (saturate64 (e.1 + timeBucketBaseNs))).foldl
      (fun counts e => counts.bump (Bucket.start64 origin interval e.1) e.2) counts) counts
  scanned.foldl (fun counts f =>
    counts.add (SortedMap.tally ((eventTimes (f.scan w)).map (Bucket.start64 origin interval)))) counts

/-- `date_histogram_counts`, given the time aggregate that the snapshot's side object offers, if any. -/
def dateHistogramCounts (agg : Option TimeBucketCounts) (interval origin : Int) (shard : Option (Text → Bool)) (w : Window)
    (files : List DataFile) : Option (SortedMap Int Nat) :=
  if interval ≤ 0 then none
  else
    let recordCount := (files.flatMap DataFile.rows).length
    let coarse := if shard.isNone then agg.bind fun a => dateHistogramFromSnapshotAgg recordCount a interval origin w else none
    some (coarse.getD (fileHistogram interval origin shard w files))

/-- The histogram of the event times as they are read. -/
def referenceHistogram (shard : Option (Text → Bool)) (w : Window) (files : List DataFile) : SortedMap Int Nat :=
  SortedMap.tally ((eventTimes (((files.filter fun f => f.Owned shard).flatMap DataFile.rows).filter
    fun r => r.Within w)).map (Bucket.start origin interval))

/-- A data file with the instants of its rows, in nanoseconds, none for NULL. A column in coarser units holds instants beyond the
64-bit nanoseconds, and reading them saturates. -/
structure StoredFile extends DataFile where
  instants : List (Option Int)
  reads : toDataFile.rows.map Row.timestamp = instants.map (Option.map saturate64)

/-- `SELECT date_bin(interval, timestamp), count(*)` over the rows with a timestamp in the window. -/
def dateBinCounts (shard : Option (Text → Bool)) (w : Window) (files : List StoredFile) : SortedMap Int Nat :=
  SortedMap.tally (((((files.filter fun f => f.Owned shard).flatMap StoredFile.instants).filterMap id).filter
    fun t => w.Holds t).map (Bucket.start origin interval))

/-- No bucket that is computed for the file leaves the 64-bit range. -/
structure DataFile.Fits (f : DataFile) : Prop where
  lower : ∀ b ∈ f.lower, Bucket.Fits origin interval b
  upper : ∀ b ∈ f.upper, Bucket.Fits origin interval b
  times : ∀ t ∈ eventTimes f.rows, Bucket.Fits origin interval t ∧ Bucket.Fits 0 timeBucketBaseNs t

instance decidableFits (f : DataFile) : Decidable (f.Fits interval origin) :=
  decidable_of_iff ((∀ b ∈ f.lower, Bucket.Fits origin interval b) ∧ (∀ b ∈ f.upper, Bucket.Fits origin interval b) ∧
    ∀ t ∈ eventTimes f.rows, Bucket.Fits origin interval t ∧ Bucket.Fits 0 timeBucketBaseNs t)
    ⟨fun h => ⟨h.1, h.2.1, h.2.2⟩, fun h => ⟨h.lower, h.upper, h.times⟩⟩

end LogLake.Tier2
