import LogLake.Lemmas.WindowCalls
import LogLake.Theorems.DateHistogram
import LogLake.Theorems.WindowedGroups

/-! # Windowed counts of one snapshot -/

namespace LogLake.Tier2

open List SortedMap
open Transition (run)
open Phase (answer?)

variable {rows : List Row} {column : Text}

/-! ## Counting rows -/

theorem length_filter_eventTime (p : Int → Prop) [DecidablePred p] (rows : List Row) :
    (rows.filter fun r => decide (∃ t ∈ r.timestamp, p t)).length = ((eventTimes rows).filter fun t => p t).length := by
  rw [← eventTimes_filter]
  refine (filterMap_length_eq_length.mpr fun r hr => ?_).symm
  obtain ⟨t, ht, -⟩ := of_decide_eq_true (mem_filter.mp hr).2
  exact Option.isSome_of_mem ht

theorem length_filter_within (w : Window) (rows : List Row) :
    (rows.filter fun r => r.Within w).length = (eventTimes (rows.filter fun r => r.Within w)).length := by
  rw [eventTimes_filter_within]
  exact length_filter_eventTime w.Holds rows

theorem windowedCount_lawful : windowedCount.Lawful List.length where
  zero := rfl
  add _ _ := length_append.symm
  perm _ _ h := h.length_eq
  width_pos _ _ h := h.1.width_pos
  total a rows h := by
    have htotal : a.buckets.total = ((eventTimes rows).map (Bucket.start 0 a.widthNs)).length := by
      rw [h.1.buckets_eq, total_tally]
    exact htotal.trans (length_map _)
  core a rows lo hi h := by
    have hcore : windowedCount.core a lo hi =
        ((eventTimes rows).map (Bucket.start 0 a.widthNs)).countP fun s => (span lo hi).Holds s := by
      rw [← sumWith_tally, ← h.1.buckets_eq]
      rfl
    rw [hcore, countP_map, countP_eq_length_filter]
    exact (length_filter_eventTime (fun t => (span lo hi).Holds (Bucket.start 0 a.widthNs t)) rows).symm
  coarse a files width lo hi v hfits hcounts h := by
    obtain ⟨hwidth, h⟩ := Option.ite_none_left_eq_some.mp h
    obtain ⟨r, hr, rfl⟩ := Option.map_eq_some_iff.mp h
    obtain ⟨hagg, hwidths⟩ := hcounts (total_of_snapshotAgg hr)
    have htimes : ∀ t ∈ eventTimes (rowsIn files), Bucket.Fits 0 width t ∧ Bucket.Fits 0 a.widthNs t := by
      intro t ht
      obtain ⟨row, hrow, htime⟩ := mem_eventTimes.mp ht
      obtain ⟨f, hf, hrow⟩ := mem_flatMap.mp hrow
      exact ⟨((hfits f hf).times t (mem_eventTimes.mpr ⟨row, hrow, htime⟩)).1, hwidths t ht⟩
    obtain ⟨rfl, -⟩ := dateHistogramFromSnapshotAgg_eq (not_le.mp hwidth) hagg htimes hr
    rw [total_tally, bucketsOf, length_map, countIn, length_filter_within]
  perFile files width lo hi v hfits htimed h := by
    obtain ⟨hwidth, h⟩ := Option.ite_none_left_eq_some.mp h
    have hexact : fileHistogram width 0 none (span lo hi) files = referenceHistogram width 0 none (span lo hi) files :=
      (fileHistogram_eq_iff (not_le.mp hwidth) none (span lo hi) files hfits).mpr fun f hf _ _ _ => htimed f hf
    rw [← Option.some.inj h, hexact, referenceHistogram, filter_owned_none, total_tally, length_map, countIn,
      length_filter_within]
    rfl

/-! ## Counting values -/

def keyCounts (column : Text) (rows : List Row) : GroupCounts := groupCounts (rows.map fun r => r.value column)

theorem countIn_keyCounts (column : Text) (files : List DataFile) (lo hi : Int) :
    countIn (keyCounts column) files lo hi = referenceGroupCounts none column (span lo hi) files := by
  rw [referenceGroupCounts, filter_owned_none]
  rfl

theorem length_bucketedKeys (width : Int) (column : Text) (rows : List Row) :
    (bucketedKeys width column rows).length = (eventTimes rows).length := by
  induction rows with
  | nil => rfl
  | cons r rows ih =>
    unfold bucketedKeys eventTimes at ih ⊢
    cases ht : r.timestamp with
    | none | some t => simpa [ht] using ih

theorem map_snd_filter_bucketedKeys (width : Int) (column : Text) (p : Int → Prop) [DecidablePred p] (rows : List Row) :
    ((bucketedKeys width column rows).filter fun e => p e.1).map Prod.snd =
      (rows.filter fun r => decide (∃ t ∈ r.timestamp, p (Bucket.start 0 width t))).map fun r => r.value column := by
  induction rows with
  | nil => rfl
  | cons r rows ih =>
    simp only [bucketedKeys, Option.mem_def] at ih ⊢
    cases ht : r.timestamp with
    | none => simpa [ht] using ih
    | some t => by_cases hp : p (Bucket.start 0 width t) <;> simpa [ht, hp] using ih

theorem windowedGroupCounts_lawful (utf8 : Bool) (column : Text) :
    (windowedGroupCounts utf8 column).Lawful (keyCounts column) where
  zero := rfl
  add rows rows' := by
    rw [keyCounts, keyCounts, keyCounts, map_append]
    exact fold_groupCounts _ _
  perm _ _ h := groupCounts_perm (h.map _)
  width_pos _ _ h := h.1
  total a rows h := by
    have hentries : (windowedGroupCounts utf8 column).total a =
        ((gather (bucketedKeys a.widthNs column rows)).entries.map fun e => e.2.length).sum := by
      have htotals : ((gather (bucketedKeys a.widthNs column rows)).entries.map
          fun e => (groupCounts e.2).values.total + (groupCounts e.2).nulls) = _ :=
        map_congr_left fun e _ => total_add_nulls_groupCounts e.2
      rw [← htotals]
      change (a.buckets.entries.map fun e => e.2.values.total + e.2.nulls).sum = _
      rw [h.2, mapValues, map_map]
      rfl
    have hperm := flatMap_filter_gather_perm (bucketedKeys a.widthNs column rows) fun _ => true
    have hlength := hperm.length_eq
    rw [filter_true, filter_true, length_flatMap, length_map, length_bucketedKeys] at hlength
    exact hentries.trans hlength
  core a rows lo hi h := by
    have hperm := flatMap_filter_gather_perm (bucketedKeys a.widthNs column rows)
      fun s => decide ((span lo hi).Holds s)
    have hkeys := map_snd_filter_bucketedKeys a.widthNs column (fun s => (span lo hi).Holds s) rows
    have hfold := foldl_fold_groupCounts
      (((gather (bucketedKeys a.widthNs column rows)).entries.filter fun e => (span lo hi).Holds e.1).map Prod.snd) []
    rw [nil_append, ← flatMap_def, groupCounts_perm hperm, hkeys, map_map] at hfold
    refine Eq.trans ?_ hfold
    change ((a.buckets.entries.filter fun e => (span lo hi).Holds e.1).map Prod.snd).foldl GroupCounts.fold ⟨.empty, 0⟩ = _
    rw [h.2, mapValues, filter_map, map_map]
    rfl
  coarse _ _ _ _ _ _ _ _ h := by cases h
  perFile files width lo hi v _ htimed h := by
    have hsurplus : (DataFile.candidates none (span lo hi) files).flatMap (DataFile.surplus column (span lo hi)) = [] := by
      refine flatMap_eq_nil_iff.mpr fun f hf => ?_
      unfold DataFile.surplus
      split
      · exact htimed f (mem_filter.mp hf).1
      · rfl
    rw [countIn_keyCounts, groupedCountsWindowed_eq_append h, hsurplus, append_nil]
    rfl

/-! ## Runs -/

/-- In every run whose steps are coherent, an answer of `windowed_count` is the number of rows of its window in one snapshot, and an
answer of `windowed_group_counts_from_aggregate` has the counts of its column's values in one snapshot. The core and the slices are
parts of the window whenever the starts next to its ends are in the 64-bit range. -/
theorem coherent_calls_count_one_snapshot (first : List DataFile) (utf8 : Bool) (column : Text) :
    (∀ actions s, Transition.Meets (windowStep windowedCount) (Coherent windowedCount) (.start first) actions →
      run (windowStep windowedCount) (.start first) actions = some s →
      ∀ (c : Nat) lo hi v, (s.calls[c]?).bind answer? = some (lo, hi, some v) →
        ∃ i < s.snapshots.length, v = ((rowsIn (s.files i)).filter fun r => r.Within (span lo hi)).length) ∧
    (∀ actions s, Transition.Meets (windowStep (windowedGroupCounts utf8 column)) (Coherent (windowedGroupCounts utf8 column))
        (.start first) actions →
      run (windowStep (windowedGroupCounts utf8 column)) (.start first) actions = some s →
      ∀ (c : Nat) lo hi v, (s.calls[c]?).bind answer? = some (lo, hi, some v) →
        ∃ i < s.snapshots.length, v = referenceGroupCounts none column (span lo hi) (s.files i)) ∧
    ∀ (σ α : Type) (m : Measure σ α) (agg : σ) (lo hi t : Int), 0 < m.width agg → Aligned (m.width agg) lo hi →
      ((if hiCore (m.width agg) hi ≤ loCore (m.width agg) lo then []
        else [(loCore (m.width agg) lo, hiCore (m.width agg) hi)]) ++ (plan m agg lo hi).2).countP
          (fun part => part.1 ≤ t ∧ t < part.2) = if lo ≤ t ∧ t < hi then 1 else 0 := by
  refine ⟨?_, ?_, fun σ α m agg lo hi t hwidth haligned => countP_parts m agg hwidth haligned t⟩
  · intro actions s hmeets hrun c lo hi v hanswer
    exact answer_of_run windowedCount_lawful hmeets hrun hanswer
  · intro actions s hmeets hrun c lo hi v hanswer
    obtain ⟨i, hi', hv⟩ := answer_of_run (windowedGroupCounts_lawful utf8 column) hmeets hrun hanswer
    exact ⟨i, hi', hv.trans (countIn_keyCounts column _ lo hi)⟩

/-- The file of one row, at an instant. -/
def instantFile (name : String) (t : Int) : DataFile :=
  .ofRows name.toList [leveled (some t) "INFO"] (some t) (some t) ⟨by simp, by simp⟩ (by simp)

def filesBefore : List DataFile := [instantFile "a.parquet" 10]

def filesAfter : List DataFile := filesBefore ++ [instantFile "b.parquet" 7, instantFile "c.parquet" 15]

def beforeBuckets : TimeBucketCounts := ⟨10, SortedMap.tally [10]⟩

def beforeGroups : TimeGroupCounts :=
  ⟨10, (gather (bucketedKeys 10 "level".toList (rowsIn filesBefore))).mapValues groupCounts⟩

/-- A windowed count with one slice at its left end; what another process does comes between its first look and the next. -/
def countBeside {σ : Type} (agg : σ) (others : List (WindowAction σ)) : List (WindowAction σ) :=
  .count 5 20 (some agg) :: others ++ [.look 0 none, .list 0, .scan 0, .finish 0]

/-- Without a commit, both counts find the row. -/
theorem one_row_counted :
    (∃ s, run (windowStep windowedCount) (.start filesBefore) (countBeside beforeBuckets []) = some s ∧
      (s.calls[0]?).bind answer? = some (5, 20, some 1) ∧
      ∃ i < s.snapshots.length, 1 = ((rowsIn (s.files i)).filter fun r => r.Within (span 5 20)).length) ∧
    ∃ s, run (windowStep (windowedGroupCounts true "level".toList)) (.start filesBefore)
        (countBeside beforeGroups []) = some s ∧
      (s.calls[0]?).bind answer? = some (5, 20, some (groupCounts [some "INFO".toList])) ∧
      ∃ i < s.snapshots.length,
        groupCounts [some "INFO".toList] = referenceGroupCounts none "level".toList (span 5 20) (s.files i) := by
  have hboth := coherent_calls_count_one_snapshot filesBefore true "level".toList
  have hcount : (run (windowStep windowedCount) (.start filesBefore) (countBeside beforeBuckets [])).map
      (fun s => (s.calls[0]?).bind answer?) = some (some (5, 20, some 1)) := by decide +kernel
  have hgroups : (run (windowStep (windowedGroupCounts true "level".toList)) (.start filesBefore)
      (countBeside beforeGroups [])).map (fun s => (s.calls[0]?).bind answer?) =
        some (some (5, 20, some (groupCounts [some "INFO".toList]))) := by decide +kernel
  obtain ⟨s, hs, hanswer⟩ := Option.map_eq_some_iff.mp hcount
  obtain ⟨s', hs', hanswer'⟩ := Option.map_eq_some_iff.mp hgroups
  exact ⟨⟨s, hs, hanswer, hboth.1 _ s (by decide +kernel) hs 0 5 20 1 hanswer⟩,
    s', hs', hanswer', hboth.2.1 _ s' (by decide +kernel) hs' 0 5 20 _ hanswer'⟩

/-- A commit and a refresh come after the core is taken: the answer is two, and the snapshots have one and three rows in the window.
The same for the rows of one level. -/
theorem two_rows_of_no_snapshot :
    (run (windowStep windowedCount) (.start filesBefore)
        (countBeside beforeBuckets [.commit filesAfter, .refresh 1])).map
      (fun s => ((s.calls[0]?).bind answer?,
        s.snapshots.map fun files => ((rowsIn files).filter fun r => r.Within (span 5 20)).length)) =
      some (some (5, 20, some 2), [1, 3]) ∧
    (run (windowStep (windowedGroupCounts true "level".toList)) (.start filesBefore)
        (countBeside beforeGroups [.commit filesAfter, .refresh 1])).map
      (fun s => ((s.calls[0]?).bind answer?,
        s.snapshots.map fun files => referenceGroupCounts none "level".toList (span 5 20) files)) =
      some (some (5, 20, some (groupCounts (List.replicate 2 (some "INFO".toList)))),
        [groupCounts [some "INFO".toList], groupCounts (List.replicate 3 (some "INFO".toList))]) ∧
    groupCounts (List.replicate 2 (some "INFO".toList)) ∉
      [groupCounts [some "INFO".toList], groupCounts (List.replicate 3 (some "INFO".toList))] :=
  ⟨by decide +kernel, by decide +kernel, by decide +kernel⟩

end LogLake.Tier2
