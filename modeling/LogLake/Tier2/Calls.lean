import LogLake.Lib.Histogram
import LogLake.Lib.Transition
import LogLake.Tier2.Windowed

/-!
# Windowed counts beside commits and cache refreshes

`windowed_count` and `windowed_group_counts_from_aggregate` take the whole buckets of a window from
an aggregate of the snapshot, and the slices left at its ends from the files.
-/

namespace LogLake.Tier2

/-- What is counted: the answers, an aggregate's share of them, and how a slice is answered. -/
structure Measure (σ α : Type) where
  zero : α
  add : α → α → α
  width : σ → Int
  total : σ → Nat
  Counts : σ → List Row → Prop
  decidableCounts : ∀ agg rows, Decidable (Counts agg rows)
  /-- The buckets of a width that are computed for the files are in the 64-bit range. -/
  Fits : Int → List DataFile → Prop
  decidableFits : ∀ width files, Decidable (Fits width files)
  core : σ → Int → Int → α
  /-- A slice from an aggregate of the snapshot with this record count, cut by a width. -/
  coarse : σ → Nat → Int → Int → Int → Option α
  perFile : Int → List DataFile → Int → Int → Option α

def rowsIn (files : List DataFile) : List Row := files.flatMap DataFile.rows

/-! ## What is counted -/

/-- The aggregate of a snapshot by time and by the values of one column; rows without an event time are not in it. -/
structure TimeGroupCounts where
  widthNs : Int
  buckets : SortedMap Int GroupCounts

def bucketedKeys (width : Int) (column : Text) (rows : List Row) : List (Int × Option Text) :=
  rows.filterMap fun r => r.timestamp.map fun t => (Bucket.start 0 width t, r.value column)

def TimeGroupCounts.Counts (column : Text) (agg : TimeGroupCounts) (rows : List Row) : Prop :=
  0 < agg.widthNs ∧ agg.buckets = (SortedMap.gather (bucketedKeys agg.widthNs column rows)).mapValues groupCounts

def span (lo hi : Int) : Window := ⟨some lo, some hi⟩

/-- `windowed_count`, whose slices are date histograms by the aggregate's width. -/
def windowedCount : Measure TimeBucketCounts Nat where
  zero := 0
  add := (· + ·)
  width := TimeBucketCounts.widthNs
  total agg := agg.buckets.total
  Counts agg rows := agg.Counts rows ∧ ∀ t ∈ eventTimes rows, Bucket.Fits 0 agg.widthNs t
  decidableCounts agg rows :=
    have : Decidable (agg.Counts rows) := decidable_of_iff
      (0 < agg.widthNs ∧ agg.buckets = SortedMap.tally ((eventTimes rows).map (Bucket.start 0 agg.widthNs)))
      ⟨fun h => ⟨h.1, h.2⟩, fun h => ⟨h.width_pos, h.buckets_eq⟩⟩
    inferInstanceAs (Decidable (_ ∧ _))
  Fits width files := ∀ f ∈ files, f.Fits width 0
  decidableFits _ _ := inferInstanceAs (Decidable (∀ f ∈ _, _))
  core agg lo hi := agg.buckets.sumWith fun s => (span lo hi).Holds s
  coarse agg recordCount width lo hi :=
    if width ≤ 0 then none
    else (dateHistogramFromSnapshotAgg recordCount agg width 0 (span lo hi)).map SortedMap.total
  perFile width files lo hi := if width ≤ 0 then none else some (fileHistogram width 0 none (span lo hi) files).total

def windowedGroupCounts (utf8 : Bool) (column : Text) : Measure TimeGroupCounts GroupCounts where
  zero := ⟨.empty, 0⟩
  add := GroupCounts.fold
  width := TimeGroupCounts.widthNs
  total agg := (agg.buckets.entries.map fun e => e.2.values.total + e.2.nulls).sum
  Counts := TimeGroupCounts.Counts column
  decidableCounts _ _ := inferInstanceAs (Decidable (_ ∧ _))
  Fits _ _ := True
  decidableFits _ _ := isTrue trivial
  core agg lo hi := ((agg.buckets.entries.filter fun e => (span lo hi).Holds e.1).map Prod.snd).foldl GroupCounts.fold ⟨.empty, 0⟩
  coarse _ _ _ _ _ := none
  perFile _ files lo hi := groupedCountsWindowed none utf8 column (span lo hi) files

/-! ## Calls -/

/-- A call: the snapshot it has found first, and what is left to do. -/
structure Job (α : Type) where
  base : Nat
  glued : Bool
  width : Int
  lo : Int
  hi : Int
  acc : α
  slices : List (Int × Int)

inductive Phase (α : Type) where
  | idle
  | cutting (job : Job α)
  | missed (job : Job α) (keyed : Nat)
  | listed (job : Job α) (keyed source : Nat)
  | done (job : Job α) (answer : Option α)

/-- The window and the answer of a finished windowed count. -/
def Phase.answer? {α : Type} : Phase α → Option (Int × Int × Option α)
  | .done job answer => if job.glued then some (job.lo, job.hi, answer) else none
  | _ => none

/-- The snapshots of the table, each with its live files, the last one current; the snapshot of the cached entry; the file lists
and the results that are kept; and the calls. -/
structure WindowState (α : Type) where
  snapshots : List (List DataFile)
  entry : Option Nat
  lists : List (Nat × Nat)
  results : List ((Nat × Int × Int × Int) × α)
  calls : List (Phase α)

namespace WindowState

variable {α : Type} (s : WindowState α)

def current : Nat := s.snapshots.length - 1

def files (i : Nat) : List DataFile := s.snapshots.getD i []

/-- `cached_table_entry`: the entry, or the table loaded now. -/
def lookup : Nat := s.entry.getD s.current

def looked : WindowState α := { s with entry := some s.lookup }

def start (first : List DataFile) : WindowState α := ⟨[first], none, [], [], []⟩

end WindowState

inductive WindowAction (σ : Type) where
  | commit (files : List DataFile)
  | refresh (i : Nat)
  /-- `invalidate_cached_table`. -/
  | invalidate
  | dropList (i : Nat)
  | dropResults (i : Nat)
  | count (lo hi : Int) (agg : Option σ)
  | range (width lo hi : Int)
  | look (c : Nat) (agg : Option σ)
  | list (c : Nat)
  | scan (c : Nat)
  | finish (c : Nat)

section Steps

variable {σ α : Type} (m : Measure σ α)

/-- `lo_core`: the first bucket start at or after `lo`. -/
def loCore (width lo : Int) : Int :=
  let floor := wrap64 (lo / width * width)
  if floor = lo then lo else wrap64 (floor + width)

/-- `hi_core`: the last bucket start at or before `hi`. -/
def hiCore (width hi : Int) : Int := wrap64 (hi / width * width)

/-- The bucket starts next to the ends of a window are in the 64-bit range. -/
def Aligned (width lo hi : Int) : Prop :=
  InI64 (lo / width * width) ∧ (lo / width * width ≠ lo → InI64 (lo / width * width + width)) ∧ InI64 (hi / width * width)

instance decidableAligned (width lo hi : Int) : Decidable (Aligned width lo hi) :=
  inferInstanceAs (Decidable (_ ∧ (_ → _) ∧ _))

/-- The core of a window, and the slices left at its ends; the whole window when it holds no whole bucket. -/
def plan (agg : σ) (lo hi : Int) : α × List (Int × Int) :=
  if hiCore (m.width agg) hi ≤ loCore (m.width agg) lo then (m.zero, [(lo, hi)])
  else
    (m.core agg (loCore (m.width agg) lo) (hiCore (m.width agg) hi),
      (if lo < loCore (m.width agg) lo then [(lo, loCore (m.width agg) lo)] else []) ++
        if hiCore (m.width agg) hi < hi then [(hiCore (m.width agg) hi, hi)] else [])

/-- An offered aggregate counts the snapshot's rows if its total is the record count. -/
def Offered (agg : Option σ) (files : List DataFile) : Prop :=
  ∀ a ∈ agg, m.total a = (rowsIn files).length → m.Counts a (rowsIn files)

instance decidableOffered (agg : Option σ) (files : List DataFile) : Decidable (Offered m agg files) :=
  have (a : σ) : Decidable (m.Counts a (rowsIn files)) := m.decidableCounts a (rowsIn files)
  inferInstanceAs (Decidable (∀ a ∈ agg, _))

/-- The first part of a windowed count. -/
def beginCount (base : Nat) (files : List DataFile) (lo hi : Int) (agg : Option σ) : Phase α :=
  if hi ≤ lo then .done ⟨base, true, 0, lo, hi, m.zero, []⟩ (some m.zero)
  else
    match agg with
    | none => .done ⟨base, true, 0, lo, hi, m.zero, []⟩ none
    | some a =>
      if m.total a ≠ (rowsIn files).length then .done ⟨base, true, 0, lo, hi, m.zero, []⟩ none
      else .cutting ⟨base, true, m.width a, lo, hi, (plan m a lo hi).1, (plan m a lo hi).2⟩

def Job.answered (m : Measure σ α) (job : Job α) (v : α) (rest : List (Int × Int)) : Phase α :=
  .cutting { job with acc := m.add job.acc v, slices := rest }

variable (s : WindowState α)

/-- The look at the table and the results for the next slice. -/
def lookStep (agg : Option σ) : Phase α → Option (WindowState α × Phase α)
  | .cutting job =>
    match job.slices with
    | [] => none
    | (a, b) :: rest =>
      let keyed := s.lookup
      match s.results.lookup (keyed, job.width, a, b) with
      | some v => some (s.looked, job.answered m v rest)
      | none =>
        match agg.bind fun a' => m.coarse a' (rowsIn (s.files keyed)).length job.width a b with
        | some v =>
          some ({ s.looked with results := ((keyed, job.width, a, b), v) :: s.results }, job.answered m v rest)
        | none => some (s.looked, .missed job keyed)
  | _ => none

def listStep : Phase α → Option (WindowState α × Phase α)
  | .missed job keyed =>
    match s.lists.lookup s.lookup with
    | some source => some (s.looked, .listed job keyed source)
    | none => some ({ s.looked with lists := (s.lookup, s.current) :: s.lists }, .listed job keyed s.current)
  | _ => none

/-- The per-file answer of the slice, which is kept. -/
def scanStep : Phase α → Option (WindowState α × Phase α)
  | .listed job keyed source =>
    match job.slices with
    | [] => none
    | (a, b) :: rest =>
      match m.perFile job.width (s.files source) a b with
      | none => some (s, .done job none)
      | some v => some ({ s with results := ((keyed, job.width, a, b), v) :: s.results }, job.answered m v rest)
  | _ => none

/-- Every slice has been answered. -/
def finishStep : Phase α → Option (WindowState α × Phase α)
  | .cutting job => if job.slices = [] then some (s, .done job (some job.acc)) else none
  | _ => none

def onCall (c : Nat) (f : Phase α → Option (WindowState α × Phase α)) : Option (WindowState α) :=
  (s.calls[c]?).bind fun phase => (f phase).map fun next => { next.1 with calls := s.calls.set c next.2 }

def windowStep : WindowAction σ → Option (WindowState α)
  | .commit files => some { s with snapshots := s.snapshots ++ [files] }
  | .refresh i => if i < s.snapshots.length then some { s with entry := some i } else none
  | .invalidate => some { s with entry := none, lists := [], results := [] }
  | .dropList i => some { s with lists := s.lists.filter fun e => e.1 ≠ i }
  | .dropResults i => some { s with results := s.results.filter fun e => e.1.1 ≠ i }
  | .count lo hi agg =>
    some { (if hi ≤ lo then s else s.looked) with
      calls := s.calls ++ [beginCount m s.lookup (s.files s.lookup) lo hi agg] }
  | .range width lo hi =>
    some { s with calls := s.calls ++ [.cutting ⟨s.lookup, false, width, lo, hi, m.zero, [(lo, hi)]⟩] }
  | .look c agg => onCall s c (lookStep m s agg)
  | .list c => onCall s c (listStep s)
  | .scan c => onCall s c (scanStep m s)
  | .finish c => onCall s c (finishStep s)

end Steps

section Condition

variable {σ α : Type} (m : Measure σ α) (s : WindowState α)

/-- The next look of a windowed count finds the snapshot that it has found first. -/
def Phase.FindsBase : Phase α → Prop
  | .cutting job => job.glued = true → s.lookup = job.base
  | _ => True

/-- The look for the live files finds the snapshot that the slice was looked up under, and if the list has to be loaded, the
catalog's snapshot is that one. -/
def Phase.FindsKeyed : Phase α → Prop
  | .missed _ keyed => s.lookup = keyed ∧ (s.lists.lookup s.lookup = none → s.current = s.lookup)
  | _ => True

instance decidableFindsBase : (p : Phase α) → Decidable (p.FindsBase s)
  | .cutting _ => inferInstanceAs (Decidable (_ → _))
  | .idle => isTrue trivial
  | .missed _ _ => isTrue trivial
  | .listed _ _ _ => isTrue trivial
  | .done _ _ => isTrue trivial

instance decidableFindsKeyed : (p : Phase α) → Decidable (p.FindsKeyed s)
  | .missed _ _ => inferInstanceAs (Decidable (_ ∧ _))
  | .idle => isTrue trivial
  | .cutting _ => isTrue trivial
  | .listed _ _ _ => isTrue trivial
  | .done _ _ => isTrue trivial

/-- The buckets of the slice that is looked up or scanned next are in the 64-bit range. -/
def Phase.FitsNext : Phase α → Prop
  | .cutting job => m.Fits job.width (s.files s.lookup)
  | .listed job _ source => m.Fits job.width (s.files source)
  | _ => True

instance decidableFitsNext : (p : Phase α) → Decidable (p.FitsNext m s)
  | .cutting _ | .listed _ _ _ => m.decidableFits _ _
  | .idle | .missed _ _ | .done _ _ => isTrue trivial

/-- An aggregate whose total is the record count counts the rows; whenever a call looks the table up again, it finds the snapshot
that it has found first; whenever it loads the list of live files from the catalog, the catalog's snapshot is the one it has found;
and the buckets it computes are in the 64-bit range. -/
def Coherent : WindowAction σ → Prop
  | .count lo hi agg => Offered m agg (s.files s.lookup) ∧ ∀ a ∈ agg, Aligned (m.width a) lo hi
  | .look c agg => Offered m agg (s.files s.lookup) ∧ ∀ p ∈ s.calls[c]?, p.FindsBase s ∧ p.FitsNext m s
  | .list c => ∀ p ∈ s.calls[c]?, p.FindsKeyed s
  | .scan c => ∀ p ∈ s.calls[c]?, p.FitsNext m s
  | _ => True

instance decidableCoherent : (a : WindowAction σ) → Decidable (Coherent m s a)
  | .count _ _ _ => inferInstanceAs (Decidable (_ ∧ ∀ a ∈ _, _))
  | .look _ _ => inferInstanceAs (Decidable (_ ∧ ∀ p ∈ _, _))
  | .list _ => inferInstanceAs (Decidable (∀ p ∈ _, _))
  | .scan _ => inferInstanceAs (Decidable (∀ p ∈ _, _))
  | .commit _ => isTrue trivial
  | .refresh _ => isTrue trivial
  | .invalidate => isTrue trivial
  | .dropList _ => isTrue trivial
  | .dropResults _ => isTrue trivial
  | .range _ _ _ => isTrue trivial
  | .finish _ => isTrue trivial

end Condition

end LogLake.Tier2
