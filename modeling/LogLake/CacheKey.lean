import LogLake.Sql.Eval

/-!
# The query in the key of the result cache

A query is parsed, conjuncts of its WHERE clauses that are TRUE whatever the row are dropped, and what is left is printed.
The parts of a statement that are kept as they are stand by their text.
-/

namespace LogLake.CacheKey

/-- A literal; the kinds that are treated alike stand by a number and a text. -/
inductive SqlValue where
  | number (text : Text) (long : Bool)
  | singleQuotedString (text : Text)
  | boolean (b : Bool)
  | null
  | placeholder (name : Text)
  | other (kind : Nat) (text : Text)
  deriving DecidableEq

inductive SqlAstExpr where
  | value (v : SqlValue)
  | nested (e : SqlAstExpr)
  | binaryOp (left : SqlAstExpr) (op : Operator) (right : SqlAstExpr)
  | other (id : Nat)

/-- A query or its body. A query is its body and the rest (ORDER BY, LIMIT), with a `cte` in front for each of its CTEs. -/
inductive SetExpr where
  | select (selection : Option SqlAstExpr) (rest : Text)
  | query (body : SetExpr) (rest : Text)
  | cte (name : Text) (cte query : SetExpr)
  | setOperation (left : SetExpr) (op : Text) (right : SetExpr)
  | other (text : Text)

inductive Statement where
  | query (query : SetExpr)
  | explain (options : Text) (statement : Statement)
  | insert (source : Option SetExpr) (rest : Text)
  | other (text : Text)

def sqlAstLiteral : SqlAstExpr → Option SqlValue
  | .value (.placeholder _) => none
  | .value v => some v
  | .nested e => sqlAstLiteral e
  | _ => none

def sqlAstExprIsConstantTrue : SqlAstExpr → Bool
  | .value v => v = .boolean true
  | .nested e => sqlAstExprIsConstantTrue e
  | .binaryOp left op right =>
    match sqlAstLiteral left, sqlAstLiteral right with
    | some left, some right =>
      match op, left, right with
      | .eq, left, right => left ≠ .null ∧ left = right
      | .notEq, .boolean left, .boolean right => left ≠ right
      | .notEq, .singleQuotedString left, .singleQuotedString right => left ≠ right
      | _, _, _ => false
    | _, _ => false
  | .other _ => false

/-- What is left of a WHERE clause, `none` when nothing is. -/
def simplifyCacheSqlPredicate : SqlAstExpr → Option SqlAstExpr
  | .binaryOp left .and right =>
    match simplifyCacheSqlPredicate left, simplifyCacheSqlPredicate right with
    | some left, some right => some (.binaryOp left .and right)
    | some left, none => some left
    | none, right => right
  | .nested e => (simplifyCacheSqlPredicate e).map .nested
  | e => if sqlAstExprIsConstantTrue e then none else some e

/-- `normalize_query_ast_for_cache` and `normalize_set_expr_ast_for_cache`. -/
def normalizeSetExpr : SetExpr → SetExpr
  | .select selection rest => .select (selection.bind simplifyCacheSqlPredicate) rest
  | .query body rest => .query (normalizeSetExpr body) rest
  | .cte name cte query => .cte name (normalizeSetExpr cte) (normalizeSetExpr query)
  | .setOperation left op right => .setOperation (normalizeSetExpr left) op (normalizeSetExpr right)
  | .other text => .other text

def normalizeStatement : Statement → Statement
  | .query query => .query (normalizeSetExpr query)
  | .explain options statement => .explain options (normalizeStatement statement)
  | .insert source rest => .insert (source.map normalizeSetExpr) rest
  | .other text => .other text

/-- The parser and the printer of statements, and the white space of texts. -/
structure Dialect where
  parseSql : Text → Option (List Statement)
  display : Statement → Text
  isWhitespace : Char → Bool

def Dialect.displayAll (d : Dialect) (stmts : List Statement) : Text := "; ".toList.intercalate (stmts.map d.display)

def normalizeQueryForCache (d : Dialect) (query : Text) : Text :=
  match d.parseSql query with
  | some (stmt :: stmts) => d.displayAll ((stmt :: stmts).map normalizeStatement)
  | _ => " ".toList.intercalate ((query.splitOnP d.isWhitespace).filter (· ≠ []))

/-! ## Answers -/

/-- What answers queries. A plan of a SELECT depends on its WHERE clause through the rows for which that is TRUE. What is answered
from a sketch instead (`approximate_top_group_counts`), and what an EXPLAIN shows, depends on the query as it is written. -/
structure Answers where
  {Env Table : Type}
  engine : Env → Engine
  literal : SqlValue → Value
  select : Text → Env → (Row → Bool) → Table
  setExpr : Text → Env → Table
  setOperation : Text → Table → Table → Table
  bind : Text → (Env → Table) → Env → Env
  finish : Text → Env → Table → Table
  approximateTopGroupCounts : SetExpr → Env → Option Table
  explain : Text → Statement → Env → Table
  literal_boolean : ∀ b, literal (.boolean b) = .bool b
  literal_string : ∀ s, literal (.singleQuotedString s) = .text s
  compare_self : ∀ env v, v ≠ .null → (∀ name, v ≠ .placeholder name) →
    (engine env).compare (literal v) (literal v) = some .eq

namespace Answers

variable (A : Answers)

def eval (env : A.Env) (row : Row) : SqlAstExpr → Value
  | .value v => A.literal v
  | .nested e => eval env row e
  | .binaryOp left op right => (A.engine env).binary op (eval env row left) (eval env row right)
  | .other id => (A.engine env).other id row

def Keeps (env : A.Env) : Option SqlAstExpr → Row → Prop
  | none, _ => True
  | some e, row => (A.eval env row e).truth = some true

instance decidableKeeps (env : A.Env) : ∀ selection row, Decidable (A.Keeps env selection row)
  | none, _ => isTrue trivial
  | some e, row => inferInstanceAs (Decidable ((A.eval env row e).truth = some true))

/-- What the plan of a query computes. -/
def table (env : A.Env) : SetExpr → A.Table
  | .select selection rest => A.select rest env fun row => A.Keeps env selection row
  | .query body rest => A.finish rest env (table env body)
  | .cte name cte query => table (A.bind name (fun env => table env cte) env) query
  | .setOperation left op right => A.setOperation op (table env left) (table env right)
  | .other text => A.setExpr text env

/-- The answer to a statement, `none` when it is refused because it does more than read. -/
def answer (env : A.Env) : Statement → Option A.Table
  | .query query => some ((A.approximateTopGroupCounts query env).getD (A.table env query))
  | .explain options statement => some (A.explain options statement env)
  | .insert _ _ => none
  | .other _ => none

/-- The statement is not answered from a sketch, and is no EXPLAIN. -/
def Planned (env : A.Env) : Statement → Prop
  | .query query => A.approximateTopGroupCounts query env = none
  | .explain _ _ => False
  | .insert _ _ => True
  | .other _ => True

end Answers

end LogLake.CacheKey
