import LogLake.FastPath
import LogLake.Lib.Partition

/-! # A fast path that reads one snapshot answers the query -/

namespace LogLake

open List SortedMap FastPath TimeRange
open CountedRow (key)

/-! ## The parts of a window -/

theorem TimeRange.contains_some (lo hi : Int) (row : CountedRow) :
    (mk (some lo) (some hi)).contains row = row.time.any fun t => decide (lo ≤ t) && decide (t < hi) := by
  simp [contains]

@[simp] theorem TimeRange.contains_none (row : CountedRow) : (TimeRange.mk none none).contains row = true := rfl

/-- A row of the window lies in exactly one of its parts. -/
theorem countP_windowParts {width : Int} (hw : 0 < width) (lo hi : Int) (row : CountedRow) :
    ((windowParts width lo hi).countP fun part => part.contains row) =
      if (mk (some lo) (some hi)).contains row then 1 else 0 := by
  have hlo := Int.ediv_mul_le lo hw.ne'
  have hlo' := Int.lt_ediv_add_one_mul_self lo hw
  have hhi := Int.ediv_mul_le hi hw.ne'
  rw [Int.add_mul, Int.one_mul] at hlo'
  unfold windowParts
  dsimp only
  generalize lo / width * width = loFloor at *
  generalize hi / width * width = hiCore at *
  have hcore : lo ≤ if loFloor = lo then lo else loFloor + width := by split <;> omega
  generalize (if loFloor = lo then lo else loFloor + width) = loCore at *
  cases htime : row.time with
  | none => split_ifs <;> simp_all [contains_some]
  | some t =>
    have hcontains : ∀ a b : Int, (mk (some a) (some b)).contains row = true ↔ a ≤ t ∧ t < b := by
      intro a b
      simp [contains_some, htime]
    by_cases hin : lo ≤ t ∧ t < hi
    · rw [if_pos ((hcontains lo hi).mpr hin)]
      split_ifs <;> simp only [countP_cons, countP_nil, cons_append, nil_append, hcontains] <;>
        (try split_ifs) <;> omega
    · rw [if_neg (mt (hcontains lo hi).mp hin)]
      split_ifs <;> simp only [countP_cons, countP_nil, cons_append, nil_append, hcontains] <;>
        (try split_ifs) <;> omega

theorem parts_perm_windowedCount {width : Int} (hw : 0 < width) (lo hi : Int) (rows : List CountedRow) :
    ((windowParts width lo hi).map fun part => rows.filter part.contains).flatten.Perm
      (rows.filter (mk (some lo) (some hi)).contains) := by
  rw [← flatMap_def]
  exact perm_flatMap_filter rows (countP_windowParts hw lo hi)

theorem parts_perm_groupCount (bounds : TimeRange) {width : Option Int} (hw : ∀ w ∈ width, 0 < w) (rows : List CountedRow) :
    ((groupCount bounds width).parts.map fun part => rows.filter part.contains).flatten.Perm
      (rows.filter bounds.contains) := by
  obtain ⟨lo, hi⟩ := bounds
  rcases lo with _ | lo <;> rcases hi with _ | hi <;> rcases width with _ | w
  case some.some.some => exact parts_perm_windowedCount (hw w rfl) lo hi rows
  all_goals simp [parts]

/-! ## Sums over parts -/

theorem foldl_fold_groupCounts (keys : List (Option Text)) (parts : List (List CountedRow)) :
    parts.foldl (fun counts part => counts.fold (groupCounts (rowKeys part))) (groupCounts keys) =
      groupCounts (keys ++ rowKeys parts.flatten) := by
  induction parts generalizing keys with
  | nil => simp [rowKeys]
  | cons part parts ih =>
    rw [foldl_cons, fold_groupCounts, ih, append_assoc, flatten_cons]
    simp [rowKeys]

theorem foldl_add_tally (interval origin : Int) (buckets : List Int) (parts : List (List CountedRow)) :
    parts.foldl (fun counts part => counts.add (tally (rowBuckets interval origin part))) (tally buckets) =
      tally (buckets ++ rowBuckets interval origin parts.flatten) := by
  induction parts generalizing buckets with
  | nil => simp [rowBuckets]
  | cons part parts ih =>
    rw [foldl_cons, add_tally, ih, append_assoc, flatten_cons]
    simp [rowBuckets]

theorem filterMap_rowKeys (rows : List CountedRow) : (rowKeys rows).filterMap id = rows.filterMap key := by
  rw [rowKeys, filterMap_map]
  rfl

/-! ## The answer -/

/-- The response from the parts and the delta is the answer over all rows. -/
theorem FastPath.respond_eq_answer {path : FastPath} (hpath : path.WellFormed) (rows delta : List CountedRow) :
    path.respond (path.parts.map fun part => rows.filter part.contains) delta = path.answer (rows ++ delta) := by
  have hall : ∀ l : List CountedRow, l.filter (mk none none).contains = l := fun l => by simp
  cases path with
  | negationCount predicate =>
    have hsum : (negationCount predicate).parts.map (fun part => rows.filter part.contains) = [rows] := by
      simp [parts]
    unfold respond answer deltaGroupCounts
    simp only [hsum, hall, map_cons, map_nil, sum_cons, sum_nil, negationCount_groupCounts, rowKeys,
      countP_map, countP_append, Nat.add_zero]
    rfl
  | windowedCount width lo hi =>
    have hperm := parts_perm_windowedCount hpath lo hi rows
    unfold respond answer deltaRows
    dsimp only [parts]
    rw [← length_flatten, hperm.length_eq, countP_append, ← countP_eq_length_filter]
  | countDistinct =>
    have hparts : countDistinct.parts.map (fun part => rows.filter part.contains) = [rows] := by
      simp [parts]
    unfold respond answer deltaGroupCounts
    simp only [hparts, hall, flatten_singleton, groupCounts, filterMap_rowKeys]
    have hnew : ∀ e : Text × Nat, ((tally (rows.filterMap key)).get? e.1).isNone =
        decide (e.1 ∉ rows.filterMap key) := by
      intro e
      rw [SortedMap.get?_tally]
      split
      · next hmem => simpa using hmem
      · next hmem => simpa using hmem
    simp only [hnew]
    rw [length_entries_tally, length_filter_entries_tally _ (fun k => decide (k ∉ rows.filterMap key)), filterMap_append]
    have hlength := length_dedup_append (rows.filterMap key) (delta.filterMap key)
    convert congrArg FastPathAnswer.count hlength.symm
  | groupCount bounds width =>
    have hperm := parts_perm_groupCount bounds hpath rows
    have hstart := foldl_fold_groupCounts []
    unfold respond answer deltaGroupCounts
    dsimp only
    rw [hstart, fold_groupCounts, nil_append, filter_append]
    refine congrArg _ (groupCounts_perm ?_)
    rw [rowKeys, rowKeys, rowKeys, ← map_append]
    exact (hperm.append_right _).map _
  | dateHistogram interval origin bounds =>
    have hstart := foldl_add_tally interval origin []
    unfold respond answer deltaHistogram
    dsimp only [parts]
    have hempty : tally ([] : List Int) = empty := rfl
    rw [← hempty, hstart, add_tally, nil_append]
    simp [rowBuckets]

end LogLake
