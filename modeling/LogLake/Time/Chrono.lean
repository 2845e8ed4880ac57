import LogLake.Sql.Eval

/-!
# Instants

The time library the source uses, as far as it is used: an instant is a number of nanoseconds since
the epoch.
-/

namespace LogLake

abbrev Instant : Type := Int

/-- What the time library decides. -/
structure Chrono where
  /-- The instants a `DateTime` can hold. -/
  inRange : Instant → Bool
  /-- The formats `literal_timestamp` tries, in order. -/
  parse : Text → Option Instant
  /-- `checked_add_months` and `checked_sub_months`, by a signed number of months. -/
  addMonths : Instant → Int → Option Instant

/-- A calendar that holds every instant, reads no string and counts no months. -/
def Chrono.unbounded : Chrono where
  inRange _ := true
  parse _ := none
  addMonths _ _ := none

/-- A half-open range of time, open where a bound is missing. -/
structure TimeRange where
  lo : Option Int
  hi : Option Int
  deriving DecidableEq

def TimeRange.Covers (range : TimeRange) (t : Instant) : Prop := (∀ lo ∈ range.lo, lo ≤ t) ∧ ∀ hi ∈ range.hi, t < hi

/-- `timestamp_nanos_opt`: the nanoseconds when they fit 64 bits. -/
def timestampNanosOpt (t : Instant) : Option Int := IntType.int64.checked t

variable (C : Chrono)

/-- The instant of a number of units since the epoch, when a `DateTime` can hold it; nanoseconds always can. -/
def Chrono.ofUnits (unit : TimeUnit) (v : Int) : Option Instant :=
  match unit with
  | .nanosecond => some v
  | unit => if C.inRange (v * unit.nanos) then some (v * unit.nanos) else none

def Chrono.literalTimestamp : ScalarValue → Option Instant
  | .timestamp unit _ v => C.ofUnits unit v.val
  | .text .utf8 s | .text .largeUtf8 s => C.parse s
  | _ => none

/-- `literal_epoch_seconds` and its siblings, by unit. -/
def Chrono.literalEpoch (unit : TimeUnit) : ScalarValue → Option Instant
  | .int i => (IntType.int64.checked i.val).bind (C.ofUnits unit)
  | _ => none

def isCurrentTimestampFunction (name : Text) (args : List Expr) : Bool :=
  args.isEmpty && ["now".toList, "current_timestamp".toList, "current_timestamp()".toList].contains (toAsciiLowercase name)

/-- The unit a `to_timestamp` function reads an integer in. -/
def functionUnit (name : Text) : Option TimeUnit :=
  let lower := toAsciiLowercase name
  if lower = "to_timestamp".toList then some .second
  else if lower = "to_timestamp_millis".toList then some .millisecond
  else if lower = "to_timestamp_micros".toList then some .microsecond
  else if lower = "to_timestamp_nanos".toList then some .nanosecond
  else if lower = "to_timestamp_seconds".toList then some .second
  else none

/-! ## Intervals -/

structure IntervalValue where
  months : Int
  days : Int
  nanos : Int
  deriving DecidableEq

def IntervalScalar.parts : IntervalScalar → IntervalValue
  | .monthDayNano months days nanos => ⟨months.val, days.val, nanos.val⟩
  | .dayTime days millis => ⟨0, days.val, millis.val * 1000000⟩
  | .yearMonth months => ⟨months.val, 0, 0⟩

def extractIntervalValue : Expr → Option IntervalValue
  | .literal (.interval v) => some v.parts
  | .cast e _ => extractIntervalValue e
  | .alias e _ => extractIntervalValue e
  | _ => none

def dayNanos : Int := 86400000000000

/-- An instant moved by a number of nanoseconds, when a `DateTime` can hold the result. -/
def Chrono.shift (t : Instant) (nanos : Int) : Option Instant :=
  if C.inRange (t + nanos) then some (t + nanos) else none

/-- `apply_interval`: months, then days, then nanoseconds; a part that is zero is skipped. -/
def Chrono.applyInterval (t : Instant) (interval : IntervalValue) (subtract : Bool) : Option Instant :=
  let sign : Int := if subtract then -1 else 1
  (if interval.months = 0 then some t else C.addMonths t (sign * interval.months)).bind fun t =>
    (if interval.days = 0 then some t else C.shift t (sign * interval.days * dayNanos)).bind fun t =>
      if interval.nanos = 0 then some t else C.shift t (sign * interval.nanos)

end LogLake
