import LogLake.Time.Chrono

/-!
# Predicate pushdown

The converter that turns a filter of the query into a predicate of the table format, and the test
that decides which filters the scan answers for alone.
-/

namespace LogLake.Pushdown

/-! ## Predicates of the table format -/

inductive Datum where
  | bool (b : Bool)
  | int (v : Int)
  | long (v : Int)
  | double (bits : UInt64)
  | string (s : Text)
  | binary (b : List UInt8)
  | date (days : Int)
  | timestampMicros (zoned : Bool) (micros : Int)
  | timestampNanos (zoned : Bool) (nanos : Int)
  deriving DecidableEq

inductive PredicateOperator where
  | eq | notEq | lessThan | lessThanOrEq | greaterThan | greaterThanOrEq | startsWith | notStartsWith
  deriving DecidableEq

inductive Predicate where
  | and (l r : Predicate)
  | or (l r : Predicate)
  | not (p : Predicate)
  | isNull (column : Text)
  | notNull (column : Text)
  | binary (op : PredicateOperator) (column : Text) (d : Datum)
  | isIn (column : Text) (ds : List Datum)
  deriving DecidableEq

/-! ## Literals -/

section

variable (C : Chrono) (now : Instant)

/-- `timestamp_datum_for_type`: nanoseconds for a nanosecond column, else the microsecond at or before the instant. -/
def timestampDatumForType (ts : Instant) (targetType : DataType) : Option Datum :=
  (timestampNanosOpt ts).bind fun nanos => match targetType with
    | .timestamp .nanosecond tz => some (.timestampNanos tz.isSome nanos)
    | .timestamp _ tz => some (.timestampMicros tz.isSome (ts / 1000))
    | _ => none

def timestampFromRaw (raw : Int) (unit : TimeUnit) (targetType : Option DataType) : Option Datum :=
  (C.ofUnits unit raw).bind fun ts => targetType.bind (timestampDatumForType ts)

def scalarValueToDatum (value : ScalarValue) (targetType : Option DataType) : Option Datum :=
  match value with
  | .boolean b => some (.bool b)
  | .int ⟨.int8, v, _⟩ | .int ⟨.int16, v, _⟩ | .int ⟨.int32, v, _⟩ => some (.int v)
  | .int i => (IntType.int64.checked i.val).map .long
  | .float32 bits | .float64 bits => some (.double bits)
  | .text .utf8 s | .text .largeUtf8 s => some (.string s)
  | .binary b | .largeBinary b => some (.binary b)
  | .date32 days => some (.date days.val)
  -- whole days toward zero, wrapped to 32 bits
  | .date64 millis => some (.date ((millis.val.tdiv 86400000).bmod 4294967296))
  | .timestamp unit _ v => timestampFromRaw C v.val unit targetType
  | _ => none

/-- `extract_scalar`: the literal under casts and aliases, and the clock. -/
def extractScalar : Expr → Option ScalarValue
  | .literal v => some v
  | .cast e _ => extractScalar e
  | .alias e _ => extractScalar e
  | .scalarFunction name args =>
    if isCurrentTimestampFunction name args then
      if h : IntType.int64.Fits now then some (.timestamp .nanosecond (some "+00:00".toList) ⟨now, h⟩) else none
    else none
  | _ => none

/-- `extract_epoch_seconds` and its siblings, by unit. -/
def extractEpoch (unit : TimeUnit) (e : Expr) : Option Instant :=
  (extractScalar now e).bind fun scalar => match scalar with
    | .int i => C.literalEpoch unit (.int i)
    | scalar => C.literalTimestamp scalar

/-- `extract_timestamp_at`, with `extract_function_timestamp`. -/
def extractTimestampAt : Expr → Option Instant
  | .literal v => C.literalTimestamp v
  | .cast e _ => extractTimestampAt e
  | .alias e _ => extractTimestampAt e
  | .scalarFunction name args =>
    if isCurrentTimestampFunction name args then some now
    else match args with
      | [] => none
      | value :: _ => (functionUnit name).bind fun unit => extractEpoch C now unit value
  | .binary l .plus r =>
    match extractTimestampAt l, extractIntervalValue r with
    | some t, some interval => C.applyInterval t interval false
    | _, _ => match extractIntervalValue l, extractTimestampAt r with
      | some interval, some t => C.applyInterval t interval false
      | _, _ => none
  | .binary l .minus r =>
    match extractTimestampAt l, extractIntervalValue r with
    | some t, some interval => C.applyInterval t interval true
    | _, _ => none
  | _ => none

/-! ## The converter -/

/-- `PredicateConverter::extract_column`: the column under casts and aliases, with its type in the schema. -/
def extractColumn (schema : Text → Option DataType) : Expr → Option (Text × DataType)
  | .column name => (schema name).map fun t => (name, t)
  | .cast e _ => extractColumn schema e
  | .alias e _ => extractColumn schema e
  | _ => none

/-- The datum of the instant read from an expression, or the datum it has otherwise. -/
def instantDatumOr (e : Expr) (targetType : DataType) (otherwise : Option Datum) : Option Datum :=
  match extractTimestampAt C now e with
  | some ts => timestampDatumForType ts targetType
  | none => otherwise

/-- `PredicateConverter::const_datum_for_expr`: an instant wherever one can be read, else the literal under casts and
aliases. -/
def constDatumForExpr (targetType : DataType) : Expr → Option Datum
  | .literal v => instantDatumOr C now (.literal v) targetType (scalarValueToDatum C v (some targetType))
  | .cast e t => instantDatumOr C now (.cast e t) targetType (constDatumForExpr targetType e)
  | .alias e n => instantDatumOr C now (.alias e n) targetType (constDatumForExpr targetType e)
  | e => instantDatumOr C now e targetType none

def genericDatumForExpr : Expr → Option Datum
  | .literal v => scalarValueToDatum C v none
  | .cast e _ => genericDatumForExpr e
  | .alias e _ => genericDatumForExpr e
  | _ => none

/-- `combine_and`: one side alone when the other is not converted. -/
def combineAnd : Option Predicate → Option Predicate → Option Predicate
  | some l, some r => some (.and l r)
  | some l, none => some l
  | none, r => r

def combineOr : Option Predicate → Option Predicate → Option Predicate
  | some l, some r => some (.or l r)
  | _, _ => none

def toPredicateOp : Operator → Option PredicateOperator
  | .eq => some .eq
  | .notEq => some .notEq
  | .lt => some .lessThan
  | .ltEq => some .lessThanOrEq
  | .gt => some .greaterThan
  | .gtEq => some .greaterThanOrEq
  | _ => none

def reversePredicateOp : PredicateOperator → PredicateOperator
  | .greaterThan => .lessThan
  | .greaterThanOrEq => .lessThanOrEq
  | .lessThan => .greaterThan
  | .lessThanOrEq => .greaterThanOrEq
  | op => op

variable (schema : Text → Option DataType)

def convertComparison (left right : Expr) (op : PredicateOperator) : Option Predicate :=
  match extractColumn schema left with
  | some (name, t) => (constDatumForExpr C now t right).map (.binary op name)
  | none => match extractColumn schema right with
    | some (name, t) => (constDatumForExpr C now t left).map (.binary (reversePredicateOp op) name)
    | none => none

/-- The literal prefix of a `LIKE` pattern that is one followed by a single percent sign. -/
def likePrefix (pattern : Text) : Option Text :=
  if pattern.getLast? = some '%' && !(pattern.dropLast.contains '%' || pattern.dropLast.contains '_') then
    some pattern.dropLast
  else none

def convertFilter : Expr → Option Predicate
  | .binary l .and r => combineAnd (convertFilter l) (convertFilter r)
  | .binary l .or r => combineOr (convertFilter l) (convertFilter r)
  | .binary l op r => (toPredicateOp op).bind (convertComparison C now schema l r)
  | .between e false low high => (extractColumn schema e).bind fun col =>
    (constDatumForExpr C now col.2 low).bind fun low => (constDatumForExpr C now col.2 high).map fun high =>
      .and (.binary .greaterThanOrEq col.1 low) (.binary .lessThanOrEq col.1 high)
  | .not e => (convertFilter e).map .not
  | .isNull e => (extractColumn schema e).map fun col => .isNull col.1
  | .isNotNull e => (extractColumn schema e).map fun col => .notNull col.1
  | .inList e list false => (extractColumn schema e).bind fun col =>
    (list.mapM (constDatumForExpr C now col.2)).map (.isIn col.1)
  | .like negated e pattern none false => (extractColumn schema e).bind fun col =>
    (genericDatumForExpr C pattern).bind fun datum => match datum with
      | .string pattern => (likePrefix pattern).map fun p =>
        .binary (if negated then .notStartsWith else .startsWith) col.1 (.string p)
      | _ => none
  | _ => none

def convertFilters (filters : List Expr) : Option Predicate :=
  match filters.filterMap (convertFilter C now schema) with
  | [] => none
  | p :: ps => some (ps.foldl .and p)

/-! ## The test for exact filters -/

def isMaterializedScalarType : DataType → Bool
  | .null | .nested _ => false
  | _ => true

def exactScalarColumn (e : Expr) : Option DataType :=
  (extractColumn schema e).bind fun col => if isMaterializedScalarType col.2 then some col.2 else none

def comparisonPushdownEligible (left right : Expr) : Bool :=
  (exactScalarColumn schema left).any (fun t => (constDatumForExpr C now t right).isSome) ||
    (exactScalarColumn schema right).any fun t => (constDatumForExpr C now t left).isSome

def exactPushdownEligible : Expr → Bool
  | .binary l .and r => exactPushdownEligible l && exactPushdownEligible r
  | .binary l .or r => exactPushdownEligible l && exactPushdownEligible r
  | .binary l op r => (toPredicateOp op).isSome && comparisonPushdownEligible C now schema l r
  | .not e => exactPushdownEligible e
  | .isNull e => (exactScalarColumn schema e).isSome
  | .isNotNull e => (exactScalarColumn schema e).isSome
  | .inList e list false => (exactScalarColumn schema e).any fun t =>
    list.all fun item => (constDatumForExpr C now t item).isSome
  | _ => false

end

/-! ## The meaning of a predicate -/

/-- What a reader of the table format decides about a value and a datum of different kinds. -/
structure Reader where
  compareOther : Value → Datum → Option Ordering
  startsWithOther : Value → Datum → Option Bool

def compareBytes (a b : List UInt8) : Ordering := cmp (a.map UInt8.toNat) (b.map UInt8.toNat)

/-- Comparison of a column's value with a datum; timestamps are compared as instants. -/
def Reader.compare (R : Reader) : Value → Datum → Option Ordering
  | .null, _ => none
  | .bool a, .bool b => some (cmp a b)
  | .int a, .int b | .int a, .long b => some (cmp a b)
  | .float a, .double b => some (cmp (floatRank a) (floatRank b))
  | .text a, .string b => some (cmp a b)
  | .binary a, .binary b => some (compareBytes a b)
  | .date a, .date b => some (cmp a b)
  | .timestamp u v, .timestampMicros _ m => some (cmp (v * u.nanos) (m * 1000))
  | .timestamp u v, .timestampNanos _ n => some (cmp (v * u.nanos) n)
  | v, d => R.compareOther v d

def Reader.startsWith (R : Reader) : Value → Datum → Option Bool
  | .null, _ => none
  | .text s, .string p => some (p.isPrefixOf s)
  | v, d => R.startsWithOther v d

def PredicateOperator.accepts : PredicateOperator → Option (Ordering → Bool)
  | .eq => some Ordering.isEq
  | .notEq => some Ordering.isNe
  | .lessThan => some Ordering.isLT
  | .lessThanOrEq => some Ordering.isLE
  | .greaterThan => some Ordering.isGT
  | .greaterThanOrEq => some Ordering.isGE
  | .startsWith | .notStartsWith => none

def Reader.binary (R : Reader) (op : PredicateOperator) (v : Value) (d : Datum) : Option Bool :=
  match op with
  | .startsWith => R.startsWith v d
  | .notStartsWith => Kleene.not (R.startsWith v d)
  | op => op.accepts.bind fun accepts => (R.compare v d).map accepts

def Predicate.eval (R : Reader) (row : Row) : Predicate → Option Bool
  | .and l r => Kleene.and (l.eval R row) (r.eval R row)
  | .or l r => Kleene.or (l.eval R row) (r.eval R row)
  | .not p => Kleene.not (p.eval R row)
  | .isNull c => some (row c = .null)
  | .notNull c => some (row c ≠ .null)
  | .binary op c d => R.binary op (row c) d
  | .isIn c ds => Kleene.any (ds.map fun d => (R.compare (row c) d).map Ordering.isEq)

end LogLake.Pushdown
