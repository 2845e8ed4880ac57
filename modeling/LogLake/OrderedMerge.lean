import LogLake.Lib.TopN

/-! # Lazy admission of merge inputs -/

namespace LogLake.OrderedMerge

/-- The order of a scan on its timestamps: NULLs come first when it descends and last when it ascends. -/
def Before (descending : Bool) : Option Int → Option Int → Prop
  | some a, some b => if descending then b ≤ a else a ≤ b
  | none, some _ => descending = true
  | some _, none => descending = false
  | none, none => True

instance (descending : Bool) : DecidableRel (Before descending) := fun a b => by
  unfold Before
  split <;> infer_instance

/-- The timestamps of a batch, and whether the column is one of microseconds. -/
structure Batch where
  micros : Bool
  values : List (Option Int)

structure OrderedMergeInput where
  stream : List Batch
  frontierBound : Option Int

def OrderedMergeInput.rows (input : OrderedMergeInput) : List (Option Int) := input.stream.flatMap Batch.values

def timestampBoundValues (batch : Batch) : Option (List Int) :=
  if batch.micros && batch.values.all Option.isSome then some batch.values.reduceOption else none

/-- The rows of an input that are buffered, from so many on; `none` where a batch has no bound values. -/
def buffered (limit : Nat) : Nat → List Batch → Option (List Int)
  | _, [] => some []
  | rows, batch :: rest =>
    if rows < limit then
      let take := min (limit - rows) batch.values.length
      if take = 0 then buffered limit rows rest
      else (timestampBoundValues ⟨batch.micros, batch.values.take take⟩).bind fun values =>
        (buffered limit (rows + take) rest).map (values ++ ·)
    else some []

/-- `nth_ordered_value`; without a limit or with too few values it panics. -/
def nthOrderedValue (values : List Int) (limit : Nat) (descending : Bool) : Option Int :=
  if limit = 0 then none else (values.insertionSort fun a b => Before descending (some a) (some b))[limit - 1]?

def boundIsStrictlyBehind (nth : Int) (bound : Option Int) (descending : Bool) : Bool :=
  bound.any fun bound => if descending then bound < nth else nth < bound

/-- The loop of `frontier_pruned_merge_inputs`, with the values seen so far: the rows of the streams to merge. -/
def frontierPrunedMergeInputs (limit : Nat) (descending : Bool) :
    List Int → List OrderedMergeInput → Option (List (List (Option Int)))
  | _, [] => some []
  | seen, input :: rest =>
    match buffered limit 0 input.stream with
    | none => some (input.rows :: rest.map OrderedMergeInput.rows)
    | some values =>
      let more := (frontierPrunedMergeInputs limit descending (seen ++ values) rest).map (values.map some :: ·)
      if (seen ++ values).length < limit then more
      else (nthOrderedValue (seen ++ values) limit descending).bind fun nth =>
        if boundIsStrictlyBehind nth (rest.head?.bind OrderedMergeInput.frontierBound) descending then
          some [values.map some]
        else more

/-- The parts of the scan that the merge reads: its direction, the limit hint of the session, whether pushed filters leave the
source's rows alone, and `ordered_single_partition_max_limit`. -/
structure Scan where
  sortDescending : Bool
  limitHint : Option Nat
  sourceLimitSafe : Bool
  maxLimit : Nat

/-- `ordered_limit`, as `merge_record_streams` uses it. -/
def Scan.limit (scan : Scan) : Option Nat :=
  (scan.limitHint.filter (0 < ·)).filter fun limit => scan.sourceLimitSafe && 0 < scan.maxLimit && limit ≤ scan.maxLimit

/-- The rows of the streams that `merge_record_streams` merges. -/
def mergedStreams (scan : Scan) (inputs : List OrderedMergeInput) : Option (List (List (Option Int))) :=
  match scan.limit with
  | none => some (inputs.map OrderedMergeInput.rows)
  | some limit =>
    if inputs.any fun input => input.frontierBound.isNone then some (inputs.map OrderedMergeInput.rows)
    else frontierPrunedMergeInputs limit scan.sortDescending []
      (inputs.insertionSort fun a b => Before scan.sortDescending a.frontierBound b.frontierBound)

/-- What the merge of sorted streams makes of their rows. -/
structure IsMerge (descending : Bool) (rows out : List (Option Int)) : Prop where
  perm : out.Perm rows
  sorted : out.Pairwise (Before descending)

/-- The input is sorted, and its bound is before its first value. -/
structure OrderedMergeInput.Bounded (descending : Bool) (input : OrderedMergeInput) : Prop where
  sorted : input.rows.Pairwise (Before descending)
  bound : ∀ bound ∈ input.frontierBound, ∀ first ∈ input.rows.head?, Before descending (some bound) first

end LogLake.OrderedMerge
