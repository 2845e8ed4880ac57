import LogLake.Lemmas.Windowed

/-! # Grouped counts of a window -/

namespace LogLake.Tier2

open List DataFile
open SortedMap (tally)

variable {shard : Option (Text → Bool)} {utf8 : Bool} {column : Text} {w : Window} {files : List DataFile} {f : DataFile}

/-- The file is answered from its footer: its bounds lie within the window, and the footer's counts are accepted. -/
def DataFile.Served (column : Text) (w : Window) (f : DataFile) : Prop :=
  f.Contained w ∧ (f.readGroupCounts column).isSome

instance decidableServed (column : Text) (w : Window) (f : DataFile) : Decidable (f.Served column w) :=
  inferInstanceAs (Decidable (_ ∧ _))

def DataFile.contributed (column : Text) (w : Window) (f : DataFile) : List Row :=
  if f.Served column w then f.rows else f.scan w

/-- The rows that it contributes beyond those of the window. -/
def DataFile.surplus (column : Text) (w : Window) (f : DataFile) : List Row := if f.Served column w then f.untimed else []

theorem within_iff_of_contained (h : f.Contained w) {r : Row} (hr : r ∈ f.rows) : r.Within w ↔ r.timestamp.isSome = true := by
  obtain ⟨lower, hlower, upper, hupper, hlo, hhi⟩ := h
  constructor
  · rintro ⟨t, ht, -⟩
    rw [Option.mem_def.mp ht]
    rfl
  · intro hsome
    obtain ⟨t, ht⟩ := Option.isSome_iff_exists.mp hsome
    refine ⟨t, ht, fun lo hmem => ?_, fun hi hmem => ?_⟩
    · exact le_trans (hlo lo hmem) (f.bounded.lower_le lower hlower r hr t ht)
    · exact lt_of_le_of_lt (f.bounded.le_upper upper hupper r hr t ht) (hhi hi hmem)

theorem contributed_perm (column : Text) (w : Window) (f : DataFile) :
    (f.contributed column w).Perm ((f.rows.filter fun r => r.Within w) ++ f.surplus column w) := by
  unfold contributed surplus
  split
  · next hserved =>
    have htimed : (f.rows.filter fun r => r.Within w) = f.rows.filter fun r => r.timestamp.isSome := by
      refine filter_congr fun r hr => ?_
      rw [Bool.eq_iff_iff, decide_eq_true_eq]
      exact within_iff_of_contained hserved.1 hr
    have huntimed : f.untimed = f.rows.filter fun r => !r.timestamp.isSome := by
      refine filter_congr fun r _ => ?_
      cases r.timestamp <;> rfl
    rw [htimed, huntimed]
    exact (filter_append_perm _ _).symm
  · rw [scan_eq, append_nil]

theorem foldl_fold_groupCounts (parts : List (List (Option Text))) (keys : List (Option Text)) :
    (parts.map groupCounts).foldl GroupCounts.fold (groupCounts keys) = groupCounts (keys ++ parts.flatten) := by
  induction parts generalizing keys with
  | nil => simp
  | cons part parts ih => rw [map_cons, foldl_cons, fold_groupCounts, ih, flatten_cons, append_assoc]

theorem contributed_parts_perm (column : Text) (w : Window) (overlapping : List DataFile) :
    ((((overlapping.filter fun f => f.Contained w).filter fun f => (f.readGroupCounts column).isSome).flatMap rows) ++
      ((overlapping.filter fun f => ¬f.Contained w) ++
        (overlapping.filter fun f => f.Contained w).filter fun f => (f.readGroupCounts column).isNone).flatMap
          (scan w)).Perm (overlapping.flatMap (contributed column w)) := by
  have hserved : (((overlapping.filter fun f => f.Contained w).filter fun f =>
      (f.readGroupCounts column).isSome).flatMap rows) = _ :=
    flatMap_congr (g := contributed column w) fun f hf => by
      obtain ⟨hcontained, hsome⟩ := mem_filter.mp hf
      exact (if_pos ⟨of_decide_eq_true (mem_filter.mp hcontained).2, hsome⟩).symm
  have hscanned : (((overlapping.filter fun f => ¬f.Contained w) ++
      (overlapping.filter fun f => f.Contained w).filter fun f => (f.readGroupCounts column).isNone).flatMap
        (scan w)) = _ :=
    flatMap_congr (g := contributed column w) fun f hf => by
      refine (if_neg fun hserved => ?_).symm
      rcases mem_append.mp hf with hf | hf
      · exact of_decide_eq_true (mem_filter.mp hf).2 hserved.1
      · have hnone := (mem_filter.mp hf).2
        have hsome := hserved.2
        rw [Option.isNone_iff_eq_none.mp hnone] at hsome
        cases hsome
  rw [hserved, hscanned, flatMap_append]
  have hinner := flatMap_filter_append_perm (f := contributed column w)
    (fun f => (Option.not_isSome (f.readGroupCounts column)).symm) (overlapping.filter fun f => f.Contained w)
  have houter := flatMap_filter_append_perm (f := contributed column w)
    (p := fun f => f.Contained w) (fun f => decide_not) overlapping
  refine List.Perm.trans ?_ houter
  refine List.Perm.trans ?_ (hinner.append_right _)
  rw [append_assoc]
  exact perm_append_comm.append_left _

theorem scanGroupCounts_eq {f : DataFile} {counts : GroupCounts} (h : f.scanGroupCounts utf8 column w = some counts) :
    counts = groupCounts ((f.scan w).map fun row => row.value column) :=
  (Option.ite_some_none_eq_some.mp h).2.symm

theorem groupedCountsWindowed_eq {r : GroupCounts} (h : groupedCountsWindowed shard utf8 column w files = some r) :
    r = groupCounts (((candidates shard w files).flatMap (contributed column w)).map fun row => row.value column) := by
  unfold groupedCountsWindowed at h
  split at h
  · cases h
  obtain ⟨scans, hscans, rfl⟩ := Option.map_eq_some_iff.mp h
  generalize candidates shard w files = overlapping at hscans ⊢
  have hscanned : scans = _ := AssocList.mapM_eq_map (fun _ _ hf => scanGroupCounts_eq hf) hscans
  have hserved : (overlapping.filter fun f => f.Contained w).filterMap (readGroupCounts column) = _ :=
    filterMap_eq_map_filter (g := fun f => groupCounts (f.rows.map fun row => row.value column))
      fun f _ counts hcounts => readGroupCounts_eq hcounts
  have hparts := (contributed_parts_perm column w overlapping).map fun row => row.value column
  rw [map_append, map_flatMap, map_flatMap] at hparts
  have hfold := foldl_fold_groupCounts
    (((((overlapping.filter fun f => f.Contained w).filter fun f => (f.readGroupCounts column).isSome).map
        fun f => f.rows.map fun row => row.value column)) ++
      ((overlapping.filter fun f => ¬f.Contained w) ++
        (overlapping.filter fun f => f.Contained w).filter fun f => (f.readGroupCounts column).isNone).map
          fun f => (f.scan w).map fun row => row.value column) []
  rw [map_append, map_map, map_map, flatten_append, nil_append] at hfold
  rw [hserved, hscanned, ← groupCounts_perm hparts, flatMap_def, flatMap_def]
  exact hfold

theorem groupedCountsWindowed_eq_append {r : GroupCounts} (h : groupedCountsWindowed shard utf8 column w files = some r) :
    r = groupCounts (((((files.filter fun f => f.Owned shard).flatMap rows).filter fun row => row.Within w) ++
      (candidates shard w files).flatMap (surplus column w)).map fun row => row.value column) := by
  rw [groupedCountsWindowed_eq h, filter_within_candidates]
  refine groupCounts_perm (List.Perm.map _ ?_)
  refine (List.Perm.flatMap_left _ fun f _ => contributed_perm column w f).trans ?_
  exact (flatMap_append_perm _ _ _).symm

theorem groupCounts_append_eq_iff (keys keys' : List (Option Text)) :
    groupCounts (keys ++ keys') = groupCounts keys ↔ keys' = [] := by
  constructor
  · intro h
    have htotal := total_add_nulls_groupCounts (keys ++ keys')
    rw [h, total_add_nulls_groupCounts, length_append] at htotal
    exact eq_nil_of_length_eq_zero (by omega)
  · rintro rfl
    rw [append_nil]

def leveled (timestamp : Option Int) (level : String) : Row :=
  ⟨timestamp, fun column => if column = "level".toList then some level.toList else none⟩

@[simp] theorem timestamp_leveled (t : Option Int) (level : String) : (leveled t level).timestamp = t := rfl

def timedFile : DataFile :=
  .ofRows "a.parquet".toList [leveled (some 5) "INFO", leveled (some 9) "WARN"] (some 5) (some 9)
    ⟨by simp, by simp⟩ (by simp)

def untimedFile : DataFile :=
  .ofRows "b.parquet".toList [leveled (some 5) "INFO", leveled none "INFO"] (some 5) (some 5)
    ⟨by simp, by simp⟩ (by simp)

end LogLake.Tier2
