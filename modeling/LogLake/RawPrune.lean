import LogLake.Lib.Ordered
import LogLake.MatchUdf

/-!
# Pruning by the content of the raw text

The hints read off the pushed filters (terms that must all occur, terms of which one must occur, substrings) and the
test that decides from a file's or row group's trigram filter whether it has to be read.
-/

namespace LogLake

/-- The column that carries the trigram blooms. -/
def rawColumn : Text := "raw".toList

/-- `RawPruneSpec`, less the two fields that steer the inverted index. -/
structure RawPruneSpec where
  column : Text := rawColumn
  allTerms : List Text := []
  anyTerms : List Text := []
  substrings : List Text := []
  indexSubstrings : List Text := []
  ftsUdf : Bool := false
  deriving DecidableEq

variable (spec : RawPruneSpec)

def RawPruneSpec.isEmpty : Bool :=
  spec.allTerms.isEmpty && spec.anyTerms.isEmpty && spec.substrings.isEmpty && spec.indexSubstrings.isEmpty

def litStr : Expr → Option Text
  | .literal (.text _ s) => some s
  | _ => none

/-- `normalize_raw_prune_spec`: sorted distinct hints, `none` when there are none. -/
def normalizeRawPruneSpec : Option RawPruneSpec :=
  let spec := { spec with
    allTerms := spec.allTerms.sortDedup
    anyTerms := spec.anyTerms.sortDedup
    substrings := spec.substrings.sortDedup
    indexSubstrings := spec.indexSubstrings.sortDedup }
  if spec.isEmpty then none else some spec

/-- `spec_accepts_column`: the spec, bound to the column when it was bound to none, and whether it is that column's. -/
def specAcceptsColumn (column : Text) : RawPruneSpec × Bool :=
  if spec.column = [] then ({ spec with column := column }, true) else (spec, spec.column == column)

def tokenizeMatchQuery (name : Text) (tokenizer : Tokenizer) (query : Text) : Except Text (List Text) :=
  if tokenizer.tokenize query = [] then .error (name ++ ": query must contain at least one indexed token".toList)
  else .ok (tokenizer.tokenize query)

/-- The hints a call of the function adds, by its lower-cased name. -/
def addMatchTokens (lower : Text) (tokens : List Text) : Option RawPruneSpec :=
  if lower = "match_terms".toList ∨ lower = "match".toList then
    some { spec with allTerms := spec.allTerms ++ tokens, ftsUdf := true }
  else if lower = "match_any".toList then some { spec with anyTerms := spec.anyTerms ++ tokens, ftsUdf := true }
  else if lower = "match_phrase".toList then some { spec with allTerms := spec.allTerms ++ tokens, ftsUdf := true }
  else if lower = "match_prefix".toList then some { spec with substrings := spec.substrings ++ tokens, ftsUdf := true }
  else none

/-- `extract_match_udf_prune`: the spec with the hints of a match call, and whether the filter was one. -/
def extractMatchUdfPrune (filter : Expr) (spec : RawPruneSpec) (textTokenizers : Text → Option Tokenizer) :
    Except Text (RawPruneSpec × Bool) :=
  match filter with
  | .scalarFunction name [arg0, arg1] =>
    match colName arg0 with
    | none => .ok (spec, false)
    | some column => match textTokenizers column with
      | none => .ok (spec, false)
      | some tokenizer => match specAcceptsColumn spec column with
        | (spec, false) => .ok (spec, false)
        | (spec, true) => match litStr arg1 with
          | none => .ok (spec, false)
          | some query => match tokenizeMatchQuery name tokenizer query with
            | .error e => .error e
            | .ok tokens => match addMatchTokens spec (toAsciiLowercase name) tokens with
              | some spec => .ok (spec, true)
              | none => .ok (spec, false)
  | _ => .ok (spec, false)

/-- The inner part of a pattern of the form `%inner%` without further wildcards. -/
def likeInner (pattern : Text) : Option Text :=
  match (stripPrefix ['%'] pattern).bind (stripSuffix ['%']) with
  | none => none
  | some inner => if '%' ∈ inner ∨ '_' ∈ inner then none else some inner

/-- The `LIKE` part of the loop of `extract_raw_prune_spec`. -/
def extractLikePrune (filter : Expr) (spec : RawPruneSpec) (textTokenizers : Text → Option Tokenizer) : RawPruneSpec :=
  match filter with
  | .like negated e pattern escapeChar caseInsensitive =>
    match colName e with
    | none => spec
    | some column =>
      if negated || caseInsensitive || escapeChar.isSome then spec
      else match textTokenizers column with
        | none => spec
        | some tokenizer =>
          if tokenizer ≠ .default then spec
          else match specAcceptsColumn spec column with
            | (spec, false) => spec
            | (spec, true) => match (litStr pattern).bind likeInner with
              | none => spec
              | some inner =>
                if trigramLen ≤ inner.length then
                  { spec with substrings := spec.substrings ++ [inner],
                              indexSubstrings := spec.indexSubstrings ++ [inner] }
                else spec
  | _ => spec

def extractRawPruneLoop (textTokenizers : Text → Option Tokenizer) : List Expr → RawPruneSpec → Except Text RawPruneSpec
  | [], spec => .ok spec
  | filter :: filters, spec =>
    match extractMatchUdfPrune filter spec textTokenizers with
    | .error e => .error e
    | .ok (spec, true) => extractRawPruneLoop textTokenizers filters spec
    | .ok (spec, false) => extractRawPruneLoop textTokenizers filters (extractLikePrune filter spec textTokenizers)

def extractRawPruneSpec (filters : List Expr) (textTokenizers : Text → Option Tokenizer) :
    Except Text (Option RawPruneSpec) :=
  (extractRawPruneLoop textTokenizers filters {}).map normalizeRawPruneSpec

/-! ## The test -/

/-- `bloom_might_contain_substring`, given the filter's membership test. -/
def bloomMightContainSubstring (maybeContains : Text → Bool) (substring : Text) : Option Bool :=
  (queryTrigrams substring).map fun grams => grams.all maybeContains

/-- Whether a value may occur; without a filter, or for a value without trigrams, it may. -/
def mightMatch (bloom : Option (Text → Bool)) (value : Text) : Bool :=
  (bloom.bind fun maybeContains => bloomMightContainSubstring maybeContains value).getD true

/-- `file_might_match_prune_spec`, given the membership test of the file's trigram bloom if the file has one. -/
def fileMightMatchPruneSpec (fileBloom : Option (Text → Bool)) (spec : RawPruneSpec) : Bool :=
  let bloom := if spec.column = rawColumn then fileBloom else none
  spec.allTerms.all (mightMatch bloom) && (spec.anyTerms.isEmpty || spec.anyTerms.any (mightMatch bloom)) &&
    spec.substrings.all (mightMatch bloom)

/-- The row-group test of `rowgroup_bloom_survivors_for_spec`. -/
def rowgroupMightMatch (maybeContains : Text → Bool) : Bool :=
  (spec.allTerms ++ spec.substrings).all (mightMatch (some maybeContains)) &&
    (spec.anyTerms.isEmpty || spec.anyTerms.any (mightMatch (some maybeContains)))

/-- `rowgroup_bloom_survivors_for_spec`: the row groups to read, `none` when blooms cannot decide. -/
def rowgroupBloomSurvivorsForSpec (blooms : List (Text → Bool)) (numRowGroups : Nat) (spec : RawPruneSpec) :
    Option (List Nat) :=
  if spec.column ≠ rawColumn then none
  else if blooms.length ≠ numRowGroups then none
  else some (blooms.zipIdx.filterMap fun (bloom, index) => if rowgroupMightMatch spec bloom then some index else none)

end LogLake
