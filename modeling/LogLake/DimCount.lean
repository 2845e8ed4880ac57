import LogLake.GroupCounts
import LogLake.Lib.Decimal

/-!
# Dimensional counts from footers

`count(*)` under a predicate on one column is answered from the column's group-count footer: the predicate is turned into
a test of footer keys, and the counts of the keys that pass it are added up.
-/

namespace LogLake

inductive DimCountPredicate where
  | set (values : List Text) (negated : Bool)
  | intRange (lo hi : Option Int)
  deriving DecidableEq

def parseI64 (s : Text) : Option Int := (Decimal.parse s).bind IntType.int64.checked

def withinBounds (lo hi : Option Int) (v : Int) : Bool := lo.all (fun l => v ≥ l) && hi.all (fun h => v ≤ h)

def DimCountPredicate.matchesKey : DimCountPredicate → Text → Bool
  | .set values negated, key => values.any (fun v => v == key) != negated
  | .intRange lo hi, key => (parseI64 key).any (withinBounds lo hi)

/-! ## Reading a predicate -/

def unwrapAliasToColumn : Expr → Option Text
  | .column name => some name
  | .alias e _ => unwrapAliasToColumn e
  | .cast e (.text _) => unwrapAliasToColumn e
  | _ => none

def stringLiteral : Expr → Option Text
  | .alias e _ => stringLiteral e
  | .literal (.text _ s) => some s
  | _ => none

def intLiteral : Expr → Option Int
  | .alias e _ => intLiteral e
  | .negative e => (intLiteral e).bind fun v => IntType.int64.checked (-v)
  | .literal (.int i) => match i.ty with
    | .int64 | .int32 | .int16 | .int8 | .uint32 => some i.val
    | .uint64 => IntType.int64.checked i.val
    | _ => none
  | _ => none

/-- The boolean arm of `footer_key_literal`. -/
def boolLiteral : Expr → Option Bool
  | .alias e _ => boolLiteral e
  | .literal (.boolean b) => some b
  | _ => none

def footerKeyLiteral (e : Expr) : Option Text :=
  match stringLiteral e with
  | some s => some s
  | none => match intLiteral e with
    | some i => some (renderInt i)
    | none => (boolLiteral e).map renderBool

def flipComparison : Operator → Operator
  | .gt => .lt
  | .gtEq => .ltEq
  | .lt => .gt
  | .ltEq => .gtEq
  | op => op

/-- The inclusive bounds of `column op value`. -/
def comparisonBounds (op : Operator) (value : Int) : Option (Option Int × Option Int) :=
  match op with
  | .gtEq => some (some value, none)
  | .gt => (IntType.int64.checked (value + 1)).map fun lo => (some lo, none)
  | .ltEq => some (none, some value)
  | .lt => (IntType.int64.checked (value - 1)).map fun hi => (none, some hi)
  | _ => none

def intRangeTerm (left : Expr) (op : Operator) (right : Expr) : Option (Text × Option Int × Option Int) :=
  match unwrapAliasToColumn left, intLiteral right with
  | some col, some value => (comparisonBounds op value).map fun b => (col, b)
  | _, _ => match intLiteral left, unwrapAliasToColumn right with
    | some value, some col => (comparisonBounds (flipComparison op) value).map fun b => (col, b)
    | _, _ => none

def flattenAndExprs : Expr → List Expr
  | .binary left .and right => flattenAndExprs left ++ flattenAndExprs right
  | e => [e]

def mergeLo : Option Int → Option Int → Option Int
  | some a, some b => some (max a b)
  | a, b => a.or b

def mergeHi : Option Int → Option Int → Option Int
  | some a, some b => some (min a b)
  | a, b => a.or b

/-- The loop over the conjuncts: comparisons of one column with integers, merged to one pair of bounds. -/
def mergeConjuncts (column : Option Text) (lo hi : Option Int) : List Expr → Option (Text × Option Int × Option Int)
  | [] => column.map fun col => (col, lo, hi)
  | .binary left op right :: rest =>
    if op = .gt ∨ op = .gtEq ∨ op = .lt ∨ op = .ltEq then
      (intRangeTerm left op right).bind fun (col, termLo, termHi) =>
        if column.any (fun existing => existing ≠ col) then none
        else mergeConjuncts (some col) (mergeLo lo termLo) (mergeHi hi termHi) rest
    else none
  | _ :: _ => none

/-- An equality or inequality of a column with a literal, in either order. -/
def setPredicate (left right : Expr) (negated : Bool) : Option (Text × DimCountPredicate) :=
  match unwrapAliasToColumn left, footerKeyLiteral right with
  | some col, some v => some (col, .set [v] negated)
  | _, _ => match footerKeyLiteral left, unwrapAliasToColumn right with
    | some v, some col => some (col, .set [v] negated)
    | _, _ => none

def extractDimensionalPredicate : Expr → Option (Text × DimCountPredicate)
  | .binary left .eq right => setPredicate left right false
  | .binary left .notEq right => setPredicate left right true
  | .binary left .and right =>
    (mergeConjuncts none none none (flattenAndExprs left ++ flattenAndExprs right)).map fun (col, lo, hi) =>
      (col, .intRange lo hi)
  | .binary left op right =>
    if op = .gt ∨ op = .gtEq ∨ op = .lt ∨ op = .ltEq then
      (intRangeTerm left op right).map fun (col, lo, hi) => (col, .intRange lo hi)
    else none
  | .between e false low high =>
    (unwrapAliasToColumn e).bind fun col => (intLiteral low).bind fun lo => (intLiteral high).map fun hi =>
      (col, .intRange (some lo) (some hi))
  | .inList e list negated =>
    (unwrapAliasToColumn e).bind fun col => (list.mapM footerKeyLiteral).bind fun values =>
      if values.isEmpty then none else some (col, .set values negated)
  | _ => none

def dimCountKeyRenderingIsExact : DataType → Bool
  | .text _ | .boolean | .int _ => true
  | _ => false

/-- The part of `detect_negation_count_fast_path` that looks at the filter: the column and the test of its keys. -/
def detectNegationCount (schema : Text → Option DataType) (filter : Expr) : Option (Text × DimCountPredicate) :=
  (extractDimensionalPredicate filter).bind fun (column, predicate) =>
    if column = "timestamp".toList ∨ column = "attributes".toList then none
    else (schema column).bind fun t => if dimCountKeyRenderingIsExact t then some (column, predicate) else none

/-- `try_negation_count_fast_path_records` on the counts of a column: only non-NULL groups are summed. -/
def negationCount (predicate : DimCountPredicate) (counts : GroupCounts) : Nat :=
  counts.values.sumWith predicate.matchesKey

/-- The sum counts the rows whose key passes the test. -/
theorem negationCount_groupCounts (predicate : DimCountPredicate) (keys : List (Option Text)) :
    negationCount predicate (groupCounts keys) = keys.countP fun key => key.any predicate.matchesKey := by
  unfold negationCount groupCounts
  rw [SortedMap.sumWith_tally]
  induction keys with
  | nil => rfl
  | cons key keys ih =>
    cases key with
    | none =>
      rw [List.filterMap_cons_none rfl, List.countP_cons_of_neg (by simp)]
      exact ih
    | some key =>
      rw [List.filterMap_cons_some (f := id) (b := key) rfl]
      by_cases hmatch : predicate.matchesKey key = true
      · rw [List.countP_cons_of_pos hmatch, List.countP_cons_of_pos (by simpa using hmatch), ih]
      · rw [List.countP_cons_of_neg hmatch, List.countP_cons_of_neg (by simpa using hmatch), ih]

end LogLake
