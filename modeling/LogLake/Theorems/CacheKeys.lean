import LogLake.Aggregates.Sketch
import LogLake.CacheKey

/-! # Equal cache keys, equal answers -/

namespace LogLake.CacheKey

open Answers

variable {A : Answers} {env : A.Env} {row : Row} {e : SqlAstExpr}

theorem eval_of_sqlAstLiteral {v : SqlValue} (h : sqlAstLiteral e = some v) :
    A.eval env row e = A.literal v ∧ ∀ name, v ≠ .placeholder name := by
  fun_induction sqlAstLiteral e with
  | case2 v' hv =>
    obtain rfl := Option.some.inj h
    exact ⟨rfl, hv⟩
  | case3 e ih => exact ih h
  | _ => nomatch h

theorem truth_notEq {E : Engine} {a b : Value} {c : Ordering} (h : E.compare a b = some c) (hc : c.isEq ≠ true) :
    (E.binary .notEq a b).truth = some true := by
  show (Value.ofTruth ((E.compare a b).map Ordering.isNe)).truth = _
  rw [Value.truth_ofTruth, h, Option.map_some]
  cases c with
  | eq => exact absurd rfl hc
  | lt | gt => rfl

theorem truth_of_isConstantTrue (h : sqlAstExprIsConstantTrue e = true) : (A.eval env row e).truth = some true := by
  fun_induction sqlAstExprIsConstantTrue e with
  | case1 v =>
    obtain rfl := of_decide_eq_true h
    rw [eval, A.literal_boolean]
    rfl
  | case2 e ih => exact ih h
  | case3 left right l r hl hr =>
    obtain ⟨hnull, rfl⟩ := of_decide_eq_true h
    obtain ⟨hleft, hplaceholder⟩ : A.eval env row left = _ ∧ _ := eval_of_sqlAstLiteral hl
    rw [eval, hleft, (eval_of_sqlAstLiteral hr).1]
    show (Value.ofTruth (Option.map _ _)).truth = _
    rw [A.compare_self env l hnull hplaceholder]
    rfl
  | case4 left right a b hl hr =>
    rw [eval, (eval_of_sqlAstLiteral hl).1, (eval_of_sqlAstLiteral hr).1, A.literal_boolean, A.literal_boolean]
    exact truth_notEq rfl (mt Comparison.isEq_cmp.mp (of_decide_eq_true h))
  | case5 left right s t hl hr =>
    rw [eval, (eval_of_sqlAstLiteral hl).1, (eval_of_sqlAstLiteral hr).1, A.literal_string, A.literal_string]
    exact truth_notEq rfl (mt Comparison.isEq_cmp.mp (of_decide_eq_true h))
  | _ => nomatch h

theorem keeps_and {left right : SqlAstExpr} : A.Keeps env (some (.binaryOp left .and right)) row ↔
    A.Keeps env (some left) row ∧ A.Keeps env (some right) row := by
  show (Value.ofTruth (Kleene.and _ _)).truth = some true ↔ _
  rw [Value.truth_ofTruth, Kleene.and_eq_true]
  rfl

theorem keeps_simplify (e : SqlAstExpr) : A.Keeps env (simplifyCacheSqlPredicate e) row ↔ A.Keeps env (some e) row := by
  fun_induction simplifyCacheSqlPredicate e with
  | case1 left right l r hr hl ihl ihr => rw [keeps_and, keeps_and, ← ihl, ← ihr, hl, hr]
  | case2 left right l hr hl ihl ihr =>
    rw [keeps_and, ← ihl, ← ihr, hl, hr]
    exact (and_iff_left trivial).symm
  | case3 left right hl ihl ihr =>
    rw [keeps_and, ← ihl, ← ihr, hl]
    exact (and_iff_right trivial).symm
  | case4 e ih =>
    refine Iff.trans ?_ ih
    cases simplifyCacheSqlPredicate e <;> rfl
  | case5 e _ _ hconst => exact iff_of_true trivial (truth_of_isConstantTrue hconst)
  | case6 => rfl

theorem table_normalizeSetExpr (q : SetExpr) : A.table env (normalizeSetExpr q) = A.table env q := by
  induction q generalizing env with
  | select selection rest =>
    cases selection with
    | none => rfl
    | some e => exact congrArg (A.select rest env) (funext fun _ => decide_eq_decide.mpr (keeps_simplify e))
  | query body rest ih => rw [normalizeSetExpr, table, table, ih]
  | cte name cte query ihcte ih =>
    rw [normalizeSetExpr, table, table, ih]
    simp only [ihcte]
  | setOperation left op right ihl ihr => rw [normalizeSetExpr, table, table, ihl, ihr]
  | other text => rfl

/-- What the plan of a statement answers. -/
def Answers.planAnswer (A : Answers) (env : A.Env) : Statement → Option A.Table
  | .query query => some (A.table env query)
  | _ => none

theorem planAnswer_normalizeStatement {s : Statement} (h : A.Planned env s) :
    A.planAnswer env (normalizeStatement s) = A.answer env s := by
  cases s with
  | query query =>
    rw [normalizeStatement, planAnswer, answer, show A.approximateTopGroupCounts query env = none from h, Option.getD_none,
      table_normalizeSetExpr]
  | explain options statement => exact absurd h id
  | insert source rest | other text => rfl

/-- Events by host: a plan counts them exactly, and a query without WHERE is answered from a sketch of one counter. -/
def hostCounts : Answers where
  Env := List Text
  Table := List (Text × Nat)
  engine _ := ⟨fun _ v => v, fun _ _ _ => .null, fun _ _ _ => .null, id, fun _ _ => none, fun _ _ _ => false,
    fun _ row => row "host".toList⟩
  literal
    | .number text _ | .singleQuotedString text | .other _ text => .text text
    | .boolean b => .bool b
    | .null | .placeholder _ => .null
  select _ hosts keeps := (SortedMap.tally (hosts.filter fun host => keeps fun _ => .text host)).entries
  setExpr _ _ := []
  setOperation _ a b := a ++ b
  bind _ _ hosts := hosts
  finish _ _ table := table
  approximateTopGroupCounts
    | .query (.select none _) _, hosts => some (ColumnSketch.fromExact 1 (SortedMap.tally hosts) hosts.length).counters.entries
    | _, _ => none
  explain _ _ _ := []
  literal_boolean _ := rfl
  literal_string _ := rfl
  compare_self _ v hnull hplaceholder := by
    cases v with
    | null => exact absurd rfl hnull
    | placeholder name => exact absurd rfl (hplaceholder name)
    | boolean b => cases b <;> rfl
    | number text | singleQuotedString text | other _ text => simp [Engine.compare, cmp, cmpUsing]

def topHosts : Text := "SELECT host, count(*) AS n FROM events GROUP BY host ORDER BY n DESC LIMIT 10".toList

/-- Texts that are WHERE clauses of one query, the empty one included. -/
def topHostsWhere : Dialect where
  parseSql text :=
    let host : SqlAstExpr := .binaryOp (.other 0) .eq (.value (.singleQuotedString "h1".toList))
    let always : SqlAstExpr := .value (.boolean true)
    let selection := if text = "TRUE AND host = 'h1'".toList then some (.binaryOp always .and host)
      else if text = "host = 'h1'".toList then some host else if text = "TRUE".toList then some always else none
    some [.query (.query (.select selection topHosts) [])]
  display
    | .query (.query (.select none rest) _) => rest
    | .query (.query (.select (some (.binaryOp _ .and _)) rest) _) => rest ++ "TRUE AND host = 'h1'".toList
    | .query (.query (.select (some (.binaryOp _ _ _)) rest) _) => rest ++ "host = 'h1'".toList
    | _ => []
  isWhitespace := Char.isWhitespace

end LogLake.CacheKey
