import LogLake.AttrGet
import LogLake.RawPrune

/-!
# Promoted columns

The lookup of an attribute in a parsed object, the string column a promotion adds to a row, the hints a scan takes from
`attr_get` predicates, and the rewrite of `attr_get` calls to promoted columns.
-/

namespace LogLake

open JsonText

/-- `serde_json::Map::get`: of repeated members the last one is kept. -/
def mapGet (members : List (Text × Json)) (key : Text) : Option Json := members.reverse.lookup key

/-- The walk of `attr_lookup` into nested objects. -/
def walkSegments : Json → List Text → Option Json
  | cur, [] => some cur
  | .object members, seg :: rest => (mapGet members seg).bind fun cur => walkSegments cur rest
  | _, _ :: _ => none

def attrLookup (members : List (Text × Json)) (key : Text) : Option Json :=
  (mapGet members key).or ((splitOnce '.' key).bind fun parts =>
    (mapGet members parts.1).bind fun cur => walkSegments cur (parts.2.splitOn '.'))

/-- The cell `promote_attributes` writes to a string column: of a row without attributes, or whose attributes are no
object, it is NULL. -/
def Serde.promotedCell (S : Serde) (attributes : Option Text) (key : Text) : Option Text :=
  attributes.bind fun text => match S.fromStr text with
    | some (.object members) => (attrLookup members key).bind S.cellText
    | _ => none

/-- The declared string promotions of a table: attribute key and column. -/
abbrev PromotedColumns := List (Text × Text)

/-! ## Hints -/

/-- A promoted column and the values a row must hold one of. -/
structure PromotedPruneSpec where
  column : Text
  values : List Text

def attrGetKey : Expr → Option Text
  | .scalarFunction name [.column column, .literal (.text .utf8 key)] =>
    if name = "attr_get".toList ∧ column = "attributes".toList then some key else none
  | _ => none

def equalitySpec (promoted : PromotedColumns) (l r : Expr) : Option PromotedPruneSpec :=
  let side := match attrGetKey l, attrGetKey r with
    | some key, none => some (key, r)
    | none, some key => some (key, l)
    | _, _ => none
  side.bind fun s => (promoted.lookup s.1).bind fun column => (litStr s.2).map fun value => ⟨column, [value]⟩

/-- The hint of a list of values. -/
def inListSpec (promoted : PromotedColumns) (e : Expr) (list : List Expr) : Option PromotedPruneSpec :=
  (attrGetKey e).bind fun key => (promoted.lookup key).bind fun column => (list.mapM litStr).bind fun values =>
    if values.isEmpty then none else some ⟨column, values⟩

/-- The walk of `extract_promoted_prune` over a filter. -/
def promotedSpecs (promoted : PromotedColumns) : Expr → List PromotedPruneSpec
  | .binary l .and r => promotedSpecs promoted l ++ promotedSpecs promoted r
  | .binary l .eq r => (equalitySpec promoted l r).toList
  | .inList e list false => (inListSpec promoted e list).toList
  | _ => []

def extractPromotedPrune (filters : List Expr) (promoted : PromotedColumns) : List PromotedPruneSpec :=
  if promoted.isEmpty then [] else filters.flatMap (promotedSpecs promoted)

/-- A row that may match the hints: each promoted column holds one of the values. -/
def PromotedPruneSpec.Admits (spec : PromotedPruneSpec) (row : Row) : Prop := ∃ v ∈ spec.values, row spec.column = .text v

/-- A file the hint does not rule out: statistics of the column can show that no row holds one of the values. -/
def PromotedPruneSpec.MightMatch (spec : PromotedPruneSpec) (rows : List Row) : Prop := ∃ row ∈ rows, spec.Admits row

/-! ## The rewrite -/

mutual

/-- `rewrite_remaining_attr_get` on an expression, for string promotions. -/
def rewriteAttrGet (promoted : PromotedColumns) : Expr → Expr
  | .column name => .column name
  | .alias e name => .alias (rewriteAttrGet promoted e) name
  | .literal v => .literal v
  | .binary l op r => .binary (rewriteAttrGet promoted l) op (rewriteAttrGet promoted r)
  | .not e => .not (rewriteAttrGet promoted e)
  | .negative e => .negative (rewriteAttrGet promoted e)
  | .isNull e => .isNull (rewriteAttrGet promoted e)
  | .isNotNull e => .isNotNull (rewriteAttrGet promoted e)
  | .between e negated low high =>
    .between (rewriteAttrGet promoted e) negated (rewriteAttrGet promoted low) (rewriteAttrGet promoted high)
  | .inList e list negated => .inList (rewriteAttrGet promoted e) (rewriteAttrGets promoted list) negated
  | .like negated e pattern escapeChar caseInsensitive =>
    .like negated (rewriteAttrGet promoted e) (rewriteAttrGet promoted pattern) escapeChar caseInsensitive
  | .cast e t => .cast (rewriteAttrGet promoted e) t
  | .scalarFunction name args =>
    match (attrGetKey (.scalarFunction name args)).bind fun key => promoted.lookup key with
    | some column => .column column
    | none => .scalarFunction name (rewriteAttrGets promoted args)
  | .other id => .other id

def rewriteAttrGets (promoted : PromotedColumns) : List Expr → List Expr
  | [] => []
  | e :: es => rewriteAttrGet promoted e :: rewriteAttrGets promoted es

end

end LogLake
