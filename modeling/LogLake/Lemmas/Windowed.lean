import LogLake.Lemmas.ColumnSides
import LogLake.Lib.AssocList
import LogLake.Lib.Histogram
import LogLake.Tier2.Windowed

/-! # What each file contributes to a window -/

/-! ## Lists in parts -/

namespace List

variable {α β : Type*}

theorem filterMap_eq_map_filter {f : α → Option β} {g : α → β} {l : List α} (h : ∀ a ∈ l, ∀ b ∈ f a, b = g a) :
    l.filterMap f = (l.filter fun a => (f a).isSome).map g := by
  induction l with
  | nil => rfl
  | cons a l ih =>
    have hrest := ih fun a' ha' => h a' (mem_cons_of_mem _ ha')
    cases hfa : f a with
    | none => simp [hfa, hrest]
    | some b => simp [hfa, hrest, h a mem_cons_self b hfa]

theorem flatMap_filter_of_nil {f : α → List β} {p : α → Bool} {l : List α} (h : ∀ a ∈ l, p a = false → f a = []) :
    (l.filter p).flatMap f = l.flatMap f := by
  induction l with
  | nil => rfl
  | cons a l ih =>
    have hrest := ih fun a' ha' => h a' (mem_cons_of_mem _ ha')
    cases hp : p a with
    | true => simp [hp, hrest]
    | false => simp [hp, hrest, h a mem_cons_self hp]

theorem flatMap_filter_append_perm {f : α → List β} {p q : α → Bool} (hq : ∀ a, q a = !p a) (l : List α) :
    ((l.filter p).flatMap f ++ (l.filter q).flatMap f).Perm (l.flatMap f) := by
  rw [← flatMap_append, funext hq]
  exact (filter_append_perm p l).flatMap_right f

end List

namespace LogLake.Tier2

open Option SortedMap List

variable {w : Window} {f : DataFile} {files : List DataFile} {column : Text} {rows : List Row}

/-! ## Rows -/

theorem length_eventTimes_add_nulls (rows : List Row) :
    (eventTimes rows).length + (rows.map Row.timestamp).count none = rows.length := by
  induction rows with
  | nil => rfl
  | cons r rows ih =>
    unfold eventTimes at ih ⊢
    cases ht : r.timestamp with
    | none => simp [ht, ← ih, Nat.add_assoc]
    | some t => simp [ht, ← ih]; omega

theorem length_untimed (f : DataFile) : f.untimed.length = (f.rows.map Row.timestamp).count none := by
  rw [DataFile.untimed, ← countP_eq_length_filter, count, countP_map]
  congr 1
  funext r
  rw [Function.comp_apply]
  cases r.timestamp <;> rfl

theorem untimed_eq_nil_of_mem (h : ((files.flatMap DataFile.rows).map Row.timestamp).count none = 0) (hf : f ∈ files) :
    f.untimed = [] := by
  refine filter_eq_nil_iff.mpr fun r hr hnone => ?_
  refine count_eq_zero.mp h (mem_map.mpr ⟨r, mem_flatMap.mpr ⟨f, hf, hr⟩, ?_⟩)
  exact isNone_iff_eq_none.mp hnone

/-! ## Scans -/

theorem not_within_of_not_selected {g : RowGroup} (h : g.selected w = false) {r : Row} (hr : r ∈ g.rows) : ¬r.Within w := by
  rintro ⟨t, ht, hlo, hhi⟩
  unfold RowGroup.selected at h
  split at h
  · next min max hmin hmax =>
    refine of_decide_eq_false h ⟨fun hi hmem => ?_, fun lo hmem => ?_⟩
    · exact lt_of_le_of_lt (g.bounded.lower_le min hmin r hr t ht) (hhi hi hmem)
    · exact le_trans (hlo lo hmem) (g.bounded.le_upper max hmax r hr t ht)
  · cases h

/-- The scan of a file gives its rows of the window: no row group with one is skipped. -/
theorem scan_eq (w : Window) (f : DataFile) : f.scan w = f.rows.filter fun r => r.Within w := by
  rw [DataFile.scan, DataFile.rows, filter_flatMap, filter_flatMap]
  refine flatMap_filter_of_nil fun g _ hg => ?_
  exact filter_eq_nil_iff.mpr fun r hr => by simpa using not_within_of_not_selected hg hr

/-- A pruned file has no row of the window. -/
theorem filter_within_of_pruned (h : f.Pruned w) : (f.rows.filter fun r => r.Within w) = [] := by
  refine filter_eq_nil_iff.mpr fun r hr => ?_
  rw [decide_eq_true_eq]
  rintro ⟨t, ht, hlo, hhi⟩
  rcases h with ⟨upper, hupper, lo, hmem, hlt⟩ | ⟨lower, hlower, hi, hmem, hle⟩
  · exact absurd (lt_of_le_of_lt (f.bounded.le_upper upper hupper r hr t ht) hlt) (not_lt.mpr (hlo lo hmem))
  · exact absurd (lt_of_lt_of_le (hhi hi hmem) hle) (not_lt.mpr (f.bounded.lower_le lower hlower r hr t ht))

theorem filter_owned_none (files : List DataFile) : (files.filter fun f => f.Owned none) = files :=
  filter_eq_self.mpr fun _ _ => decide_eq_true fun owns howns => (not_mem_none owns howns).elim

theorem filter_within_candidates (shard : Option (Text → Bool)) (w : Window) (files : List DataFile) :
    ((files.filter fun f => f.Owned shard).flatMap DataFile.rows).filter (fun r => r.Within w) =
      (DataFile.candidates shard w files).flatMap fun f => f.rows.filter fun r => r.Within w := by
  have hcandidates : DataFile.candidates shard w files =
      (files.filter fun f => f.Owned shard).filter fun f => ¬f.Pruned w := by
    rw [DataFile.candidates, List.filter_filter]
    refine filter_congr fun f _ => ?_
    rw [Bool.decide_and, Bool.and_comm]
  rw [filter_flatMap, hcandidates]
  refine (flatMap_filter_of_nil fun f _ hf => ?_).symm
  exact filter_within_of_pruned (not_not.mp (of_decide_eq_false hf))

theorem flatMap_candidates_eq_nil {β : Type} {shard : Option (Text → Bool)} {p : DataFile → Prop} {surplus : DataFile → List β}
    (hsurplus : ∀ f, surplus f = [] ↔ (p f → f.untimed = [])) : (DataFile.candidates shard w files).flatMap surplus = [] ↔
      ∀ f ∈ files, f.Owned shard → ¬f.Pruned w → p f → f.untimed = [] := by
  simp only [DataFile.candidates, flatMap_eq_nil_iff, mem_filter, decide_eq_true_eq, and_imp, hsurplus]

/-! ## Footers -/

variable {counts : GroupCounts}

/-- A file's group counts are there exactly when its values fit the cap. -/
theorem fileGroupCounts_spec (cap : Nat) (keys : List (Option Text)) :
    fileGroupCounts cap keys = if (present keys).dedup.length ≤ cap then some (groupCounts keys) else none := by
  -- By the last row: the counts before it are all that the loop knows when it decides.
  induction keys using List.reverseRecOn with
  | nil => exact (if_pos (Nat.zero_le cap)).symm
  | append_singleton keys k ih =>
    have hlast : fileGroupCounts cap (keys ++ [k]) = (fileGroupCounts cap keys).bind fun c => countWithin cap c k := by
      simp only [fileGroupCounts, foldlM_append, foldlM_cons, foldlM_nil, bind_pure]
      rfl
    rw [hlast, ih, present_append]
    cases k with
    | none =>
      rw [show present [none] = [] from rfl, append_nil]
      split
      · simp [countWithin, groupCounts, count_append]
      · rfl
    | some v =>
      rw [show present [some v] = [v] from rfl]
      split
      · next hle =>
        have hfits := fits_iff hle v
        by_cases hfit : (present keys ++ [v]).dedup.length ≤ cap
        · rw [if_pos hfit, Option.bind_some, countWithin]
          exact (if_pos (hfits.mpr hfit)).trans (by simp [groupCounts, tally, count_append])
        · rw [if_neg hfit]
          exact if_neg (mt hfits.mp hfit)
      · next hover =>
        have hgrows := length_dedup_concat (present keys) v
        rw [if_neg (by omega)]
        rfl

theorem fileGroupCounts_eq {cap : Nat} {keys : List (Option Text)}
    (h : fileGroupCounts cap keys = some counts) : counts = groupCounts keys := by
  rw [fileGroupCounts_spec, ite_none_right_eq_some] at h
  exact (some.inj h.2).symm

theorem total_add_nulls_groupCounts (keys : List (Option Text)) :
    (groupCounts keys).values.total + (groupCounts keys).nulls = keys.length := by
  have htotal : (groupCounts keys).values.total = (keys.filterMap id).length := total_tally _
  rw [htotal]
  exact length_filterMap_add_count_none keys

theorem readGroupCounts_eq (h : f.readGroupCounts column = some counts) :
    counts = groupCounts (f.rows.map fun r => r.value column) := by
  obtain ⟨hfooter, htotal⟩ := filter_eq_some_iff.mp h
  obtain ⟨written, hsub, -, hwritten⟩ := f.footers
  have hcounts := fileGroupCounts_eq (hwritten column counts hfooter)
  have hlength : f.rows.length = written.length := by
    have hsum := of_decide_eq_true htotal
    rw [hcounts, total_add_nulls_groupCounts, length_map] at hsum
    exact hsum.symm
  have hrows : f.rows = written := hsub.eq_of_length hlength
  rw [hcounts, hrows]

/-- A footer that accounts for all rows has their minutes. -/
theorem readTimeBuckets_eq {buckets : SortedMap Int Nat} (h : f.readTimeBuckets = some buckets) :
    buckets = tally ((eventTimes f.rows).map (Bucket.start64 0 timeBucketBaseNs)) ∧ f.untimed = [] := by
  obtain ⟨footer, hfilter, rfl⟩ := map_eq_some_iff.mp h
  obtain ⟨hfooter, hguard⟩ := filter_eq_some_iff.mp hfilter
  obtain ⟨hnulls, htotal⟩ := of_decide_eq_true hguard
  obtain ⟨written, hsub, htime, -⟩ := f.footers
  obtain rfl := htime footer hfooter
  have hnone : (written.map Row.timestamp).count none = 0 := hnulls
  have hwritten := length_eventTimes_add_nulls written
  have hlength : f.rows.length = written.length := by
    have hsum : (eventTimes written).length = f.rows.length := by
      rw [← htotal]
      exact (((total_tally _).trans (length_map _))).symm
    omega
  have hrows : f.rows = written := hsub.eq_of_length hlength
  refine ⟨by rw [hrows]; rfl, eq_nil_of_length_eq_zero ?_⟩
  rw [length_untimed, hrows, hnone]

end LogLake.Tier2
