import LogLake.Bloom
import LogLake.Lib.Ordered

/-!
# The inverted index

A dictionary from tokens to the ordinals of the rows that hold them, built row by row in the file's physical
order, and the queries that turn it into a row selection.
-/

namespace LogLake

/-- Row ordinals are `u32` in the source; they are compared as numbers. -/
instance ordinalOrder : LinearOrder UInt32 where
  le_refl := UInt32.le_refl
  le_trans _ _ _ := UInt32.le_trans
  le_antisymm _ _ := UInt32.le_antisymm
  le_total := UInt32.le_total
  lt_iff_le_not_ge a b := by rw [UInt32.lt_iff_toNat_lt, UInt32.le_iff_toNat_le, UInt32.le_iff_toNat_le]; omega
  toDecidableLE := inferInstance

structure IndexBuilder where
  postings : SortedMap Text (List UInt32)
  /-- The ordinal of the next row; the counter wraps around. -/
  nRows : UInt32
  tokenizer : Tokenizer

structure InvertedIndex where
  postings : SortedMap Text (List UInt32)
  nRows : UInt32

def IndexBuilder.withTokenizer (tokenizer : Tokenizer) : IndexBuilder := ⟨SortedMap.empty, 0, tokenizer⟩

/-- `postings.entry(token).or_default().push(ordinal)`. -/
def pushPosting (ordinal : UInt32) (postings : SortedMap Text (List UInt32)) (token : Text) : SortedMap Text (List UInt32) :=
  postings.upsert token fun rows => rows.getD [] ++ [ordinal]

/-- `IndexBuilder::push_row`: one posting per distinct token, then the next ordinal. -/
def IndexBuilder.pushRow (b : IndexBuilder) (raw : Text) : IndexBuilder :=
  let seen := (b.tokenizer.tokenize raw).sortDedup
  { b with postings := seen.foldl (pushPosting b.nRows) b.postings, nRows := b.nRows + 1 }

def IndexBuilder.build (b : IndexBuilder) : InvertedIndex := ⟨b.postings, b.nRows⟩

def InvertedIndex.fromRowsWithTokenizer (rows : List Text) (tokenizer : Tokenizer) : InvertedIndex :=
  (rows.foldl IndexBuilder.pushRow (IndexBuilder.withTokenizer tokenizer)).build

def InvertedIndex.fromRows (rows : List Text) : InvertedIndex := fromRowsWithTokenizer rows .default

/-- One step of the dictionary walk of `rows_containing`. -/
def unionIfContains (norm : Text) (acc : List UInt32) (entry : Text × List UInt32) : List UInt32 :=
  if containsText entry.1 norm then acc.unionSorted entry.2 else acc

/-- `InvertedIndex::rows_containing`: the union of the postings of every term that contains the normalized
substring, `none` when the substring is not indexable. -/
def InvertedIndex.rowsContaining (index : InvertedIndex) (substr : Text) : Option (List UInt32) :=
  (normalizeQueryTerm substr).map fun norm => index.postings.entries.foldl (unionIfContains norm) []

/-- A skip (`false`) or a selection (`true`), and how many rows it takes. -/
abbrev Run := Bool × UInt32

/-- `push`: a run of the last one's kind is added to that one. -/
def pushRun (runs : List Run) (kind : Bool) (len : UInt32) : List Run :=
  if len = 0 then runs
  else match runs.getLast? with
    | some (k, l) => if k = kind then runs.dropLast ++ [(k, l + len)] else runs ++ [(kind, len)]
    | none => [(kind, len)]

/-- One turn of the loop, on the runs and the next ordinal. -/
def selectRow (nRows : UInt32) (s : List Run × UInt32) (ord : UInt32) : List Run × UInt32 :=
  if nRows ≤ ord ∨ ord < s.2 then s else (pushRun (pushRun s.1 false (ord - s.2)) true 1, ord + 1)

def rowSelectionRuns (selected : List UInt32) (nRows : UInt32) : List Run :=
  let s := selected.foldl (selectRow nRows) ([], 0)
  pushRun s.1 false (if s.2 ≤ nRows then nRows - s.2 else 0)

end LogLake
