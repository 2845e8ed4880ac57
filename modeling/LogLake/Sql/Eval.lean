import LogLake.Lib.Kleene
import LogLake.Sql.Expr

/-!
# The meaning of SQL expressions

Values, comparison, `LIKE` and the three-valued evaluation of an expression on a row.
-/

namespace LogLake

def renderInt (i : Int) : Text := (toString i).toList

/-- A value of a row or of an expression. -/
inductive Value where
  | null
  | bool (b : Bool)
  | int (i : Int)
  | float (bits : UInt64)
  | text (s : Text)
  | binary (b : List UInt8)
  | date (days : Int)
  | date64 (millis : Int)
  | timestamp (unit : TimeUnit) (v : Int)
  | interval (v : IntervalScalar)
  | other (t id : Nat)
  deriving DecidableEq

/-- The value a literal stands for. -/
def Value.ofScalar : ScalarValue → Value
  | .null _ => .null
  | .boolean b => .bool b
  | .int i => .int i.val
  | .float32 b | .float64 b => .float b
  | .text _ s => .text s
  | .binary b | .largeBinary b => .binary b
  | .date32 d => .date d.val
  | .date64 m => .date64 m.val
  | .timestamp u _ v => .timestamp u v.val
  | .interval v => .interval v
  | .other t id => .other t id

/-- The truth value of a value: only booleans have one. -/
def Value.truth : Value → Option Bool
  | .bool b => some b
  | _ => none

def Value.ofTruth : Option Bool → Value
  | some b => .bool b
  | none => .null

@[simp] theorem Value.truth_ofTruth (b : Option Bool) : (Value.ofTruth b).truth = b := by
  cases b <;> rfl

abbrev Row : Type := Text → Value

/-! ## Comparison -/

/-- The rank of a double in the total order of IEEE 754, from its bits. -/
def floatRank (bits : UInt64) : Int := if bits < 0x8000000000000000 then bits.toNat else 0x7fffffffffffffff - bits.toNat

def TimeUnit.coarser (a b : TimeUnit) : TimeUnit := if a.nanos < b.nanos then b else a

/-- A timestamp in another unit: a finer one multiplies, a coarser one divides and truncates toward zero. -/
def TimeUnit.convert (source target : TimeUnit) (v : Int) : Int :=
  if target.nanos ≤ source.nanos then v * (source.nanos / target.nanos) else v.tdiv (target.nanos / source.nanos)

/-- Timestamps are compared in the coarser of their units. -/
def compareTimestamps (u : TimeUnit) (v : Int) (u' : TimeUnit) (v' : Int) : Ordering :=
  cmp (u.convert (u.coarser u') v) (u'.convert (u.coarser u') v')

/-- What the query engine defines and the repository only uses. -/
structure Engine where
  /-- `CAST`, NULL where the cast fails. -/
  cast : DataType → Value → Value
  /-- Scalar functions, by name, argument expressions and argument values. -/
  call : Text → List Expr → List Value → Value
  /-- The operators other than comparison and the logical ones. -/
  arith : Operator → Value → Value → Value
  negate : Value → Value
  /-- Comparison of values of different kinds, after the coercion the engine applies. -/
  mixed : Value → Value → Option Ordering
  /-- `LIKE` that ignores case. -/
  ilike : Option Char → Text → Text → Bool
  other : Nat → Row → Value

variable (E : Engine)

/-- Comparison of two values, `none` when it is NULL. -/
def Engine.compare : Value → Value → Option Ordering
  | .null, _ => none
  | _, .null => none
  | .bool a, .bool b => some (cmp a b)
  | .int a, .int b => some (cmp a b)
  | .float a, .float b => some (cmp (floatRank a) (floatRank b))
  | .text a, .text b => some (cmp a b)
  | .text a, .int b => some (cmp a (renderInt b))
  | .int a, .text b => some (cmp (renderInt a) b)
  | .date a, .date b => some (cmp a b)
  | .date64 a, .date64 b => some (cmp a b)
  | .timestamp u a, .timestamp u' b => some (compareTimestamps u a u' b)
  | a, b => E.mixed a b

/-- The orderings a comparison operator accepts, `none` for another operator. -/
def Operator.holds : Operator → Option (Ordering → Bool)
  | .eq => some Ordering.isEq
  | .notEq => some Ordering.isNe
  | .lt => some Ordering.isLT
  | .ltEq => some Ordering.isLE
  | .gt => some Ordering.isGT
  | .gtEq => some Ordering.isGE
  | _ => none

/-! ## LIKE -/

inductive LikeToken where
  | any
  | one
  | lit (c : Char)
  deriving DecidableEq

def parseLike (escape : Char) : Text → List LikeToken
  | [] => []
  | [c] => [if c = escape then .lit c else if c = '%' then .any else if c = '_' then .one else .lit c]
  | c :: d :: rest =>
    if c = escape then .lit d :: parseLike escape rest
    else (if c = '%' then .any else if c = '_' then .one else .lit c) :: parseLike escape (d :: rest)

def likeMatch : List LikeToken → Text → Bool
  | [], t => t.isEmpty
  | .any :: p, t => t.tails.any (likeMatch p)
  | .one :: p, t => match t with
    | [] => false
    | _ :: t => likeMatch p t
  | .lit c :: p, t => match t with
    | [] => false
    | d :: t => c == d && likeMatch p t

/-- `LIKE` on two values; the default escape character is the backslash. -/
def Engine.like (escapeChar : Option Char) (caseInsensitive : Bool) : Value → Value → Option Bool
  | .text s, .text pattern =>
    if caseInsensitive then some (E.ilike escapeChar pattern s)
    else some (likeMatch (parseLike (escapeChar.getD '\\') pattern) s)
  | _, _ => none

/-! ## Evaluation -/

def Engine.compareOp (accepts : Ordering → Bool) (a b : Value) : Option Bool := (E.compare a b).map accepts

def Engine.between (v low high : Value) : Option Bool :=
  Kleene.and (E.compareOp Ordering.isGE v low) (E.compareOp Ordering.isLE v high)

def Engine.inList (v : Value) (list : List Value) : Option Bool :=
  Kleene.any (list.map (E.compareOp Ordering.isEq v))

def Engine.binary (op : Operator) (a b : Value) : Value :=
  match op with
  | .and => .ofTruth (Kleene.and a.truth b.truth)
  | .or => .ofTruth (Kleene.or a.truth b.truth)
  | op => match op.holds with
    | some accepts => .ofTruth (E.compareOp accepts a b)
    | none => E.arith op a b

/-- Negate a truth value when the expression carries its NOT. -/
def negateIf (negated : Bool) (b : Option Bool) : Option Bool := if negated then Kleene.not b else b

mutual

def Engine.eval (E : Engine) (row : Row) : Expr → Value
  | .column name => row name
  | .alias e _ => E.eval row e
  | .literal v => .ofScalar v
  | .binary l op r => E.binary op (E.eval row l) (E.eval row r)
  | .not e => .ofTruth (Kleene.not (E.eval row e).truth)
  | .negative e => E.negate (E.eval row e)
  | .isNull e => .bool (E.eval row e = .null)
  | .isNotNull e => .bool (E.eval row e ≠ .null)
  | .between e negated low high =>
    .ofTruth (negateIf negated (E.between (E.eval row e) (E.eval row low) (E.eval row high)))
  | .inList e list negated => .ofTruth (negateIf negated (E.inList (E.eval row e) (E.evalList row list)))
  | .like negated e pattern escapeChar caseInsensitive =>
    .ofTruth (negateIf negated (E.like escapeChar caseInsensitive (E.eval row e) (E.eval row pattern)))
  | .cast e t => E.cast t (E.eval row e)
  | .scalarFunction name args => E.call name args (E.evalList row args)
  | .other id => E.other id row

def Engine.evalList (E : Engine) (row : Row) : List Expr → List Value
  | [] => []
  | e :: es => E.eval row e :: E.evalList row es

end

def Engine.IsTrue (row : Row) (filter : Expr) : Prop := (E.eval row filter).truth = some true

@[simp] theorem Engine.evalList_eq_map (row : Row) (es : List Expr) : E.evalList row es = es.map (E.eval row) := by
  induction es with
  | nil => rw [Engine.evalList, List.map_nil]
  | cons e es ih => rw [Engine.evalList, ih, List.map_cons]

end LogLake
