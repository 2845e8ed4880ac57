import LogLake.DimCount
import LogLake.Time.Chrono
import LogLake.Wal.Buffer

/-!
# Metadata fast paths beside the drain

A fast path answers an aggregate from two sources: the counts of the committed rows, from the
metadata of the snapshot the table cache serves when they are read, and the rows of the buffered
segments, loaded earlier against the consumed list of the snapshot served then.
-/

namespace LogLake

/-- What the fast paths read of a row: the key of the counted column, `none` for NULL, and the timestamp in nanoseconds. -/
structure CountedRow where
  key : Option Text
  time : Option Int
  deriving DecidableEq

/-- Every row is in the range without bounds; a bounded range holds only rows with a timestamp. -/
def TimeRange.contains (range : TimeRange) (row : CountedRow) : Bool :=
  (range.lo.isNone && range.hi.isNone) ||
    row.time.any fun t => range.lo.all (fun lo => t ≥ lo) && range.hi.all (fun hi => t < hi)

inductive FastPath where
  | negationCount (predicate : DimCountPredicate)
  | windowedCount (width lo hi : Int)
  | countDistinct
  | groupCount (bounds : TimeRange) (width : Option Int)
  | dateHistogram (interval origin : Int) (bounds : TimeRange)
  deriving DecidableEq

/-- Widths and intervals are positive. -/
def FastPath.WellFormed : FastPath → Prop
  | .windowedCount width _ _ => 0 < width
  | .groupCount _ width => ∀ w ∈ width, 0 < w
  | .dateHistogram interval _ _ => 0 < interval
  | _ => True

instance FastPath.decidableWellFormed : ∀ path : FastPath, Decidable path.WellFormed
  | .windowedCount width _ _ => inferInstanceAs (Decidable (0 < width))
  | .groupCount _ width => inferInstanceAs (Decidable (∀ w ∈ width, 0 < w))
  | .dateHistogram interval _ _ => inferInstanceAs (Decidable (0 < interval))
  | .negationCount _ => isTrue trivial
  | .countDistinct => isTrue trivial

/-- `date_bin`: the start of the bucket of a timestamp. -/
def bucketOf (interval origin t : Int) : Int := origin + (t - origin) / interval * interval

/-! ## The committed rows -/

/-- The parts in which a window is read: whole buckets of the aggregate, and the ranges at both ends that it does not
cover. -/
def windowParts (width lo hi : Int) : List TimeRange :=
  if hi ≤ lo then []
  else
    let loFloor := lo / width * width
    let loCore := if loFloor = lo then lo else loFloor + width
    let hiCore := hi / width * width
    if hiCore ≤ loCore then [⟨some lo, some hi⟩]
    else ⟨some loCore, some hiCore⟩ ::
      ((if lo < loCore then [⟨some lo, some loCore⟩] else []) ++
        (if hiCore < hi then [⟨some hiCore, some hi⟩] else []))

/-- The parts of the committed rows a fast path reads, each with its own load of the table. -/
def FastPath.parts : FastPath → List TimeRange
  | .windowedCount width lo hi => windowParts width lo hi
  | .groupCount ⟨some lo, some hi⟩ (some width) => windowParts width lo hi
  | .groupCount bounds _ => [bounds]
  | .dateHistogram _ _ bounds => [bounds]
  | _ => [⟨none, none⟩]

/-! ## Answers -/

/-- The counts a fast path returns; sorting and the limit of a grouped answer are functions of them. -/
inductive FastPathAnswer where
  | count (n : Nat)
  | groups (counts : GroupCounts)
  | buckets (counts : SortedMap Int Nat)
  deriving DecidableEq

def rowKeys (rows : List CountedRow) : List (Option Text) := rows.map CountedRow.key

def rowBuckets (interval origin : Int) (rows : List CountedRow) : List Int :=
  rows.filterMap fun row => row.time.map (bucketOf interval origin)

def deltaRows (bounds : TimeRange) (delta : List CountedRow) : Nat := delta.countP bounds.contains

def deltaGroupCounts (bounds : TimeRange) (delta : List CountedRow) : GroupCounts :=
  groupCounts (rowKeys (delta.filter bounds.contains))

def deltaHistogram (interval origin : Int) (bounds : TimeRange) (delta : List CountedRow) : SortedMap Int Nat :=
  SortedMap.tally (rowBuckets interval origin (delta.filter bounds.contains))

/-- The answer of a fast path, from the committed rows of each part and the buffered rows. -/
def FastPath.respond (path : FastPath) (committed : List (List CountedRow)) (delta : List CountedRow) : FastPathAnswer :=
  match path with
  | .negationCount predicate =>
    .count ((committed.map fun part => LogLake.negationCount predicate (groupCounts (rowKeys part))).sum +
      LogLake.negationCount predicate (deltaGroupCounts ⟨none, none⟩ delta))
  | .windowedCount _ lo hi => .count ((committed.map List.length).sum + deltaRows ⟨some lo, some hi⟩ delta)
  | .countDistinct =>
    let keys := (groupCounts (rowKeys committed.flatten)).values
    let extra := (deltaGroupCounts ⟨none, none⟩ delta).values.entries.filter fun e => (keys.get? e.1).isNone
    .count (keys.entries.length + extra.length)
  | .groupCount bounds _ =>
    .groups ((committed.foldl (fun counts part => counts.fold (groupCounts (rowKeys part))) (groupCounts [])).fold
      (deltaGroupCounts bounds delta))
  | .dateHistogram interval origin bounds =>
    .buckets ((committed.foldl (fun counts part => counts.add (SortedMap.tally (rowBuckets interval origin part)))
      SortedMap.empty).add (deltaHistogram interval origin bounds delta))

/-- The query a fast path stands for, over a set of rows. -/
def FastPath.answer (path : FastPath) (rows : List CountedRow) : FastPathAnswer :=
  match path with
  | .negationCount predicate => .count (rows.countP fun row => row.key.any predicate.matchesKey)
  | .windowedCount _ lo hi => .count (rows.countP (TimeRange.mk (some lo) (some hi)).contains)
  | .countDistinct => .count (rows.filterMap CountedRow.key).dedup.length
  | .groupCount bounds _ => .groups (groupCounts (rowKeys (rows.filter bounds.contains)))
  | .dateHistogram interval origin bounds =>
    .buckets (SortedMap.tally (rowBuckets interval origin (rows.filter bounds.contains)))

/-! ## One request beside the drain and the cache -/

/-- A request: its delta is being loaded, by the scan of the log; or its committed rows are being read; or it is answered. With the
segments sealed when it began. -/
inductive CountRequest where
  | idle
  | loading (path : FastPath)
  | reading (path : FastPath) (begun delta : List Text) (parts : List TimeRange) (committed : List (List CountedRow))
  | answered (path : FastPath) (begun : List Text) (answer : FastPathAnswer)
  deriving DecidableEq

/-- The log and the table, the snapshot the table cache serves, and a request; the scan of the log is the request's. -/
structure CountState where
  log : BufferState
  cached : List Text
  request : CountRequest

def CountState.init : CountState := ⟨.init, [], .idle⟩

inductive CountAction where
  | log (action : BufferAction)
  | refresh
  /-- `load_buffer_delta`, with the verdict of the budget gate. -/
  | loadDelta (path : FastPath) (withinBudget : Bool)
  | loaded
  | readPart
  | respond
  deriving DecidableEq

variable (rowsOf : Text → List CountedRow)

def segmentRows (names : List Text) : List CountedRow := names.flatMap rowsOf

/-- The segments sealed so far. -/
def BufferState.sealedNames (log : BufferState) : List Text := log.mtime.keysWith fun _ => true

def countStep (s : CountState) : CountAction → Option CountState
  | .log .takeCurrent => none
  | .log (.takeSuperseded _) => none
  | .log action => (bufferStep s.log action).map fun log => { s with log := log }
  | .refresh => some { s with cached := s.log.consumed }
  | .loadDelta path withinBudget =>
    if s.request = .idle ∧ path.WellFormed then
      if withinBudget then some { s with log := s.log.begin s.cached, request := .loading path }
      -- Past the budget the buffer is not read at all.
      else some { s with request := .reading path s.log.sealedNames [] path.parts [] }
    else none
  | .loaded => match s.request, s.log.scan with
    | .loading path, .reading _ begun [] out => some { s with request := .reading path begun out path.parts [] }
    | _, _ => none
  | .readPart => match s.request with
    | .reading path begun delta (part :: rest) committed =>
      let rows := (segmentRows rowsOf s.cached).filter part.contains
      some { s with request := .reading path begun delta rest (committed ++ [rows]) }
    | _ => none
  | .respond => match s.request with
    | .reading path begun delta [] committed =>
      some { s with request := .answered path begun (path.respond committed (segmentRows rowsOf delta)) }
    | _ => none

/-- The snapshots of the table so far. -/
def BufferState.snapshots (log : BufferState) : List (List Text) := log.consumed :: log.history.map Prod.snd

/-- Segments that a snapshot lacks, each once, and of those sealed when the request began all of them. -/
structure Buffered (log : BufferState) (snapshot begun names : List Text) : Prop where
  nodup : names.Nodup
  fresh : ∀ n ∈ names, n ∉ snapshot
  wasSealed : ∀ n ∈ names, (log.mtime.get? n).isSome
  complete : ∀ n ∈ begun, n ∉ snapshot → n ∈ names

/-- The answer is the query's over the rows of one snapshot and of the buffered segments that are not in that snapshot. -/
def AnswersFromOneSnapshot (s : CountState) : Prop :=
  ∀ path begun answer, s.request = .answered path begun answer → ∃ snapshot ∈ s.log.snapshots, ∃ names,
    Buffered s.log snapshot begun names ∧ answer = path.answer (segmentRows rowsOf snapshot ++ segmentRows rowsOf names)

end LogLake
