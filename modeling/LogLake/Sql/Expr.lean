import LogLake.Text

/-!
# SQL expressions

The expression trees the query layer inspects, with the types and literals they carry.
-/

namespace LogLake

inductive TimeUnit where
  | second | millisecond | microsecond | nanosecond
  deriving DecidableEq, Repr

def TimeUnit.nanos : TimeUnit → Int
  | .second => 1000000000
  | .millisecond => 1000000
  | .microsecond => 1000
  | .nanosecond => 1

inductive IntType where
  | int8 | int16 | int32 | int64 | uint8 | uint16 | uint32 | uint64
  deriving DecidableEq, Repr

def IntType.min : IntType → Int
  | .int8 => -128
  | .int16 => -32768
  | .int32 => -2147483648
  | .int64 => -9223372036854775808
  | _ => 0

def IntType.max : IntType → Int
  | .int8 => 127
  | .int16 => 32767
  | .int32 => 2147483647
  | .int64 => 9223372036854775807
  | .uint8 => 255
  | .uint16 => 65535
  | .uint32 => 4294967295
  | .uint64 => 18446744073709551615

variable (t : IntType) (v : Int)

def IntType.Fits : Prop := t.min ≤ v ∧ v ≤ t.max

instance IntType.decidableFits : Decidable (t.Fits v) := inferInstanceAs (Decidable (_ ∧ _))

/-- The value when it fits the type, as the checked conversions and checked arithmetic of the source return it. -/
def IntType.checked : Option Int := if t.Fits v then some v else none

theorem IntType.checked_eq_some {t : IntType} {v w : Int} (h : t.checked v = some w) : w = v ∧ t.Fits v := by
  unfold IntType.checked at h
  split at h
  · rename_i hfits
    exact ⟨(Option.some.inj h).symm, hfits⟩
  · cases h

structure MachineInt where
  ty : IntType
  val : Int
  fits : ty.Fits val
  deriving DecidableEq

/-- A signed 64-bit value, the payload of timestamps. -/
abbrev I64 : Type := {v : Int // IntType.int64.Fits v}

abbrev I32 : Type := {v : Int // IntType.int32.Fits v}

inductive TextType where
  | utf8 | largeUtf8 | utf8View
  deriving DecidableEq, Repr

/-- The nested types, which hold other values. -/
inductive NestedType where
  | list | largeList | fixedSizeList | listView | largeListView | struct | union | map
  deriving DecidableEq, Repr

inductive DataType where
  | null
  | boolean
  | int (t : IntType)
  | float32
  | float64
  | text (t : TextType)
  | binary
  | largeBinary
  | date32
  | date64
  | timestamp (unit : TimeUnit) (timezone : Option Text)
  | interval
  | nested (t : NestedType)
  | other (id : Nat)
  deriving DecidableEq

/-- The payload of an interval literal. -/
inductive IntervalScalar where
  | monthDayNano (months days : I32) (nanos : I64)
  | dayTime (days millis : I32)
  | yearMonth (months : I32)
  deriving DecidableEq

inductive ScalarValue where
  | null (t : DataType)
  | boolean (b : Bool)
  | int (i : MachineInt)
  | float32 (bits : UInt64)
  | float64 (bits : UInt64)
  | text (t : TextType) (s : Text)
  | binary (b : List UInt8)
  | largeBinary (b : List UInt8)
  | date32 (days : I32)
  | date64 (millis : I64)
  | timestamp (unit : TimeUnit) (timezone : Option Text) (v : I64)
  | interval (v : IntervalScalar)
  | other (t id : Nat)
  deriving DecidableEq

def ScalarValue.dataType : ScalarValue → DataType
  | .null t => t
  | .boolean _ => .boolean
  | .int i => .int i.ty
  | .float32 _ => .float32
  | .float64 _ => .float64
  | .text t _ => .text t
  | .binary _ => .binary
  | .largeBinary _ => .largeBinary
  | .date32 _ => .date32
  | .date64 _ => .date64
  | .timestamp u tz _ => .timestamp u tz
  | .interval _ => .interval
  | .other t _ => .other t

inductive Operator where
  | and | or | eq | notEq | lt | ltEq | gt | gtEq | plus | minus
  | other (id : Nat)
  deriving DecidableEq

inductive Expr where
  | column (name : Text)
  | alias (e : Expr) (name : Text)
  | literal (v : ScalarValue)
  | binary (left : Expr) (op : Operator) (right : Expr)
  | not (e : Expr)
  | negative (e : Expr)
  | isNull (e : Expr)
  | isNotNull (e : Expr)
  | between (e : Expr) (negated : Bool) (low high : Expr)
  | inList (e : Expr) (list : List Expr) (negated : Bool)
  | like (negated : Bool) (e pattern : Expr) (escapeChar : Option Char) (caseInsensitive : Bool)
  | cast (e : Expr) (dataType : DataType)
  | scalarFunction (name : Text) (args : List Expr)
  | other (id : Nat)

end LogLake
