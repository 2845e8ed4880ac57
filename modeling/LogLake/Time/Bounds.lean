import LogLake.Time.Chrono

/-!
# Exact time bounds

A `WHERE` clause that is a conjunction of comparisons of a timestamp column with instants, and of conditions that are
constantly true, is replaced by a half-open interval of time.
-/

namespace LogLake

/-- What the query planner provides: the cast of a constant, the type of an expression under the schema of the scan, and
the type in which two types are compared. -/
structure Planner where
  castTo : DataType → ScalarValue → Option ScalarValue
  typeOf : Expr → Option DataType
  comparisonCoercion : DataType → DataType → Option DataType

namespace Cost

section

variable (C : Chrono) (P : Planner) (now : Instant)

def castInstant (t : Instant) (dataType : DataType) : Option Instant :=
  if h : IntType.int64.Fits t then (P.castTo dataType (.timestamp .nanosecond none ⟨t, h⟩)).bind C.literalTimestamp
  else none

/-- `extract_timestamp_at`, with `extract_function_timestamp`: the instant of a constant expression. -/
def extractTimestampAt : Expr → Option Instant
  | .literal v => C.literalTimestamp v
  | .cast (.literal v) t => (P.castTo t v).bind C.literalTimestamp
  | .cast e t => (extractTimestampAt e).bind fun instant => castInstant C P instant t
  | .alias e _ => extractTimestampAt e
  | .scalarFunction name [] => if isCurrentTimestampFunction name [] then some now else none
  | .scalarFunction name [.literal v] =>
    (functionUnit name).bind fun unit => (C.literalTimestamp v).or (C.literalEpoch unit v)
  | .scalarFunction name [.cast e _] => (functionUnit name).bind fun _ => extractTimestampAt e
  | .binary l .plus r =>
    match extractTimestampAt l, extractIntervalValue r with
    | some t, some interval => C.applyInterval t interval false
    | _, _ => match extractIntervalValue l, extractTimestampAt r with
      | some interval, some t => C.applyInterval t interval false
      | _, _ => none
  | .binary l .minus r =>
    match extractTimestampAt l, extractIntervalValue r with
    | some t, some interval => C.applyInterval t interval true
    | _, _ => none
  | _ => none

/-! ## One comparison -/

def timestampStep : DataType → Option Int
  | .timestamp unit _ => some unit.nanos
  | _ => none

/-- `timestamp_column`: the column under aliases and casts to an equal or finer unit, with the step of the column. -/
def timestampColumn : Expr → Option (Text × Int)
  | .column name => (P.typeOf (.column name)).bind fun t => (timestampStep t).map fun step => (name, step)
  | .alias e _ => timestampColumn e
  | .cast e t => (timestampColumn e).bind fun source => (timestampStep t).bind fun target =>
    if target ≤ source.2 then some source else none
  | _ => none

/-- `timestamp_comparison`: the column, its step and the instant it is compared with, in the type of the comparison. -/
def timestampComparison (column literal : Expr) : Option (Text × Int × Instant) :=
  (timestampColumn P column).bind fun source =>
    (P.typeOf column).bind fun columnType => (P.typeOf literal).bind fun literalType =>
      (P.comparisonCoercion columnType literalType).bind fun comparisonType =>
        (timestampStep comparisonType).bind fun comparisonStep =>
          if source.2 < comparisonStep then none
          else (extractTimestampAt C P now literal).bind fun value =>
            (castInstant C P value comparisonType).map fun coerced => (source.1, source.2, coerced)

def isTimeColumn (col : Text) : Bool :=
  ["timestamp", "started_at", "ended_at", "bucket_start", "added_at"].any fun t =>
    toAsciiLowercase t.toList == toAsciiLowercase col

/-- `quantize_bound`: the first multiple of the step at or above the instant, or above it; checked in 64 bits. -/
def quantizeBound (ts : Instant) (step : Int) (roundUp : Bool) : Option Instant :=
  (timestampNanosOpt ts).bind fun nanos => (IntType.int64.checked (nanos / step * step)).bind fun floor =>
    if roundUp && nanos % step == 0 then some floor else IntType.int64.checked (floor + step)

variable (bounds : TimeRange)

def updateStart : Option Instant → TimeRange
  | some candidate => { bounds with lo := some (bounds.lo.elim candidate (max · candidate)) }
  | none => bounds

def updateEnd : Option Instant → TimeRange
  | some candidate => { bounds with hi := some (bounds.hi.elim candidate (min · candidate)) }
  | none => bounds

def flipOp : Operator → Operator
  | .gt => .lt
  | .gtEq => .ltEq
  | .lt => .gt
  | .ltEq => .gtEq
  | op => op

/-- The bound a comparison `column op lit` sets. -/
def applyComparison (step : Int) (op : Operator) (lit : Instant) : TimeRange :=
  match op with
  | .gt => updateStart bounds (quantizeBound lit step false)
  | .gtEq => updateStart bounds (quantizeBound lit step true)
  | .lt => updateEnd bounds (quantizeBound lit step true)
  | .ltEq => updateEnd bounds (quantizeBound lit step false)
  | _ => bounds

/-! ## The walk over the clause -/

/-- `literal_scalar_value`: the literal under casts and aliases. -/
def literalScalarValue : Expr → Option ScalarValue
  | .literal v => some v
  | .cast e _ => literalScalarValue e
  | .alias e _ => literalScalarValue e
  | _ => none

def constantTrueExpr : Expr → Option Bool
  | .literal (.boolean b) => some b
  | .literal (.null .boolean) => some false
  | .cast e _ => constantTrueExpr e
  | .alias e _ => constantTrueExpr e
  | .binary l op r => (literalScalarValue l).bind fun left => (literalScalarValue r).bind fun right =>
    match op with
    | .eq => some (left == right)
    | .notEq => some (left != right)
    | _ => none
  | _ => none

/-- The four comparisons the walk reads as bounds. -/
def isRangeOp : Operator → Bool
  | .gt | .gtEq | .lt | .ltEq => true
  | _ => false

/-- The comparison of the walk, in either order of its operands: column, step, operator and instant. -/
def rangeComparison (l : Expr) (op : Operator) (r : Expr) : Option (Text × Int × Operator × Instant) :=
  ((timestampComparison C P now l r).map fun c => (c.1, c.2.1, op, c.2.2)).or
    ((timestampComparison C P now r l).map fun c => (c.1, c.2.1, flipOp op, c.2.2))

/-- `walk_exact_time_predicate`: the narrowed bounds, `none` where the source returns `false`. -/
def walkExactTimePredicate (bounds : TimeRange) : Expr → Option TimeRange
  | .binary l .and r => (walkExactTimePredicate bounds l).bind fun bounds => walkExactTimePredicate bounds r
  | .binary l op r =>
    if isRangeOp op then match rangeComparison C P now l op r with
      | some (col, step, op, lit) => if isTimeColumn col then some (applyComparison bounds step op lit) else none
      | none => if (constantTrueExpr (.binary l op r)).getD false then some bounds else none
    else if (constantTrueExpr (.binary l op r)).getD false then some bounds else none
  | .between e false low high => (timestampComparison C P now e low).bind fun lo =>
    if isTimeColumn lo.1 then (timestampComparison C P now e high).bind fun hi =>
      if hi.1 ≠ lo.1 ∨ hi.2.1 ≠ lo.2.1 then none
      else some (updateEnd (updateStart bounds (quantizeBound lo.2.2 lo.2.1 true)) (quantizeBound hi.2.2 lo.2.1 false))
    else none
  | e => if (constantTrueExpr e).getD false then some bounds else none

/-- `extract_exact_time_bounds_from_expr`: no interval when it is empty or has no bound. -/
def extractExactTimeBoundsFromExpr (expr : Expr) : Option TimeRange :=
  (walkExactTimePredicate C P now ⟨none, none⟩ expr).bind fun bounds =>
    match bounds.lo, bounds.hi with
    | some s, some e => if e ≤ s then none else some bounds
    | none, none => none
    | _, _ => some bounds

end

end Cost

end LogLake
