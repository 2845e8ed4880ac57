import LogLake.Bloom
import LogLake.Sql.Eval

/-!
# The full-text match functions

`match_terms`, `match_any`, `match_phrase` and `match_prefix` compare the tokens of a text column
with the tokens of a query.
-/

namespace LogLake

inductive MatchMode where
  | allTerms | anyTerm | phrase | prefixed
  deriving DecidableEq, Repr

/-- The mode of the function registered under a name; names are resolved without regard to case. -/
def matchMode (name : Text) : Option MatchMode :=
  let lower := toAsciiLowercase name
  if lower = "match_terms".toList ∨ lower = "match".toList then some .allTerms
  else if lower = "match_any".toList then some .anyTerm
  else if lower = "match_phrase".toList then some .phrase
  else if lower = "match_prefix".toList then some .prefixed
  else none

/-- `phrase_matches`: the query tokens stand next to each other, in order, among the tokens of the cell. -/
def phraseMatches (cellTokens queryTokens : List Text) : Bool :=
  if cellTokens.length < queryTokens.length then false
  else (cellTokens.windows queryTokens.length).any fun window => window == queryTokens

def matchRaw (mode : MatchMode) (tokenizer : Tokenizer) (raw : Text) (queryTokens : List Text) : Bool :=
  let cellTokens := tokenizer.tokenize raw
  match mode with
  | .allTerms => queryTokens.all fun term => cellTokens.contains term
  | .anyTerm => queryTokens.any fun term => cellTokens.contains term
  | .phrase => phraseMatches cellTokens queryTokens
  | .prefixed => cellTokens.any fun cell => queryTokens.any fun start => start.isPrefixOf cell

def matchUdf (mode : MatchMode) (tokenizer : Tokenizer) : List Value → Value
  | [cell, .text query] =>
    let queryTokens := tokenizer.tokenize query
    if queryTokens = [] then .null
    else match cell with
      | .null => .bool false
      | .text raw => .bool (matchRaw mode tokenizer raw queryTokens)
      | _ => .null
  | _ => .null

variable {mode : MatchMode}

theorem matchUdf_null {tokenizer : Tokenizer} {query : Text} (h : tokenizer.tokenize query ≠ []) :
    matchUdf mode tokenizer [.null, .text query] = .bool false := by
  simp only [matchUdf, if_neg h]

theorem matchUdf_text {tokenizer : Tokenizer} {query : Text} (h : tokenizer.tokenize query ≠ [])
    (raw : Text) : matchUdf mode tokenizer [.text raw, .text query] =
      .bool (matchRaw mode tokenizer raw (tokenizer.tokenize query)) := by
  simp only [matchUdf, if_neg h]

/-- `col_name`: the column an expression reads, through casts and aliases. -/
def colName : Expr → Option Text
  | .column name => some name
  | .cast e _ => colName e
  | .alias e _ => colName e
  | _ => none

/-- The tokenizer of the column a call's first argument reads, from the field's metadata. -/
def argTokenizer (textTokenizers : Text → Option Tokenizer) (args : List Expr) : Tokenizer :=
  ((args.head?.bind colName).bind textTokenizers).getD .default

def Engine.withMatchUdfs (E : Engine) (textTokenizers : Text → Option Tokenizer) : Engine where
  cast := E.cast
  call name args values :=
    match matchMode name with
    | some mode => matchUdf mode (argTokenizer textTokenizers args) values
    | none => E.call name args values
  arith := E.arith
  negate := E.negate
  mixed := E.mixed
  ilike := E.ilike
  other := E.other

theorem Engine.withMatchUdfs_call {E : Engine} {tok : Text → Option Tokenizer} {name : Text}
    (h : matchMode name = some mode) (args : List Expr) (values : List Value) :
    (E.withMatchUdfs tok).call name args values = matchUdf mode (argTokenizer tok args) values := by
  simp only [Engine.withMatchUdfs, h]

end LogLake
