import LogLake.Lemmas.Sketch

/-! # One column of the aggregates -/

namespace LogLake

open List SortedMap
open ColumnScan (scan)

structure ColumnSide where
  exact : Option GroupCounts
  sketch : Option ColumnSketch

namespace ColumnSide

variable {x d : ColumnSide} {cap m : Nat}

def empty : ColumnSide := ⟨none, none⟩

def merge (x d : ColumnSide) : ColumnSide :=
  ⟨(d.exact.map fun counts => (x.exact.getD ⟨.empty, 0⟩).fold counts).or x.exact,
    (d.sketch.map fun sketch => (x.sketch.map (·.merge sketch)).getD sketch).or x.sketch⟩

/-- The exact counts go to the summary, NULLs as rows. -/
def demoted (m : Nat) (x : ColumnSide) : ColumnSide :=
  match x.exact with
  | none => x
  | some counts =>
    let demoted := ColumnSketch.fromExact m counts.values (counts.values.total + counts.nulls)
    ⟨none, some ((x.sketch.map (·.merge demoted)).getD demoted)⟩

def demote (cap m : Nat) (x : ColumnSide) : ColumnSide :=
  if ∃ counts ∈ x.exact, cap < counts.values.entries.length then x.demoted m else x

variable (m : Nat) (x : ColumnSide)

/-- The exact counts go to the summary that is there, NULLs left out. -/
def reconciled : ColumnSide :=
  match x.exact with
  | none => x
  | some counts => ⟨none, x.sketch.map (·.merge (ColumnSketch.fromExact m counts.values counts.values.total))⟩

def reconcile : ColumnSide :=
  if x.sketch.isSome ∧ x.exact.isSome then x.reconciled m else x

/-- The rows that are not NULL on the exact side, and the rows of the summary. -/
def valued : Nat := ((x.exact.map (·.values.total)).getD 0) + ((x.sketch.map (·.rows)).getD 0)

def nulls : Nat := (x.exact.map (·.nulls)).getD 0

theorem valued_merge (x d : ColumnSide) : (x.merge d).valued = x.valued + d.valued := by
  obtain ⟨xe, xs⟩ := x
  obtain ⟨de, ds⟩ := d
  cases xe <;> cases de <;> cases xs <;> cases ds <;> simp [merge, valued, GroupCounts.fold, total_add] <;> omega

theorem nulls_merge (x d : ColumnSide) : (x.merge d).nulls = x.nulls + d.nulls := by
  obtain ⟨xe, xs⟩ := x
  obtain ⟨de, ds⟩ := d
  cases xe <;> cases de <;> simp [merge, nulls, GroupCounts.fold]

theorem valued_demoted : (x.demoted m).valued = x.valued + x.nulls := by
  obtain ⟨_ | counts, _ | sketch⟩ := x <;> simp [demoted, valued, nulls]
  omega

theorem nulls_demoted : (x.demoted m).nulls = 0 := by
  obtain ⟨_ | counts, _ | sketch⟩ := x <;> rfl

theorem valued_reconcile : (x.reconcile m).valued = x.valued := by
  obtain ⟨_ | counts, _ | sketch⟩ := x <;> simp [reconcile, reconciled, valued]
  omega

theorem nulls_reconcile_le : (x.reconcile m).nulls ≤ x.nulls := by
  obtain ⟨_ | counts, _ | sketch⟩ := x <;> simp [reconcile, reconciled, nulls]

theorem exclusive_reconcile : (x.reconcile m).exact = none ∨ (x.reconcile m).sketch = none := by
  obtain ⟨_ | counts, _ | sketch⟩ := x
  · exact Or.inl rfl
  · exact Or.inl rfl
  · exact Or.inr rfl
  · exact Or.inl rfl

theorem isSome_sketch_reconcile {x : ColumnSide} (h : x.sketch.isSome) : (x.reconcile m).sketch.isSome := by
  obtain ⟨_ | counts, _ | sketch⟩ := x
  · exact h
  · rfl
  · cases h
  · rfl

variable (cap m : Nat) (x : ColumnSide)

theorem demote_eq_or :
    (x.demote cap m = x ∧ ∀ counts ∈ x.exact, counts.values.entries.length ≤ cap) ∨ x.demote cap m = x.demoted m := by
  unfold demote
  split
  · exact Or.inr rfl
  · next h =>
    refine Or.inl ⟨rfl, fun counts hcounts => ?_⟩
    exact Nat.le_of_not_lt fun hlt => h ⟨counts, hcounts, hlt⟩

/-- A demotion keeps the number of rows. -/
theorem valued_add_nulls_demote : (x.demote cap m).valued + (x.demote cap m).nulls = x.valued + x.nulls := by
  rcases demote_eq_or cap m x with ⟨h, -⟩ | h
  · rw [h]
  · rw [h, valued_demoted, nulls_demoted, Nat.add_zero]

theorem valued_le_demote : x.valued ≤ (x.demote cap m).valued := by
  rcases demote_eq_or cap m x with ⟨h, -⟩ | h
  · rw [h]
  · rw [h, valued_demoted]
    omega

theorem demote_of_le {cap m : Nat} {x : ColumnSide} (h : ∀ counts ∈ x.exact, counts.values.entries.length ≤ cap) :
    x.demote cap m = x := by
  unfold demote
  split
  · next hex =>
    obtain ⟨counts, hcounts, hlt⟩ := hex
    exact absurd (h counts hcounts) (Nat.not_le_of_lt hlt)
  · rfl

theorem demoted_demoted : (x.demoted m).demoted m = x.demoted m := by
  obtain ⟨_ | counts, sketch⟩ := x <;> rfl

theorem reconciled_reconciled : (x.reconciled m).reconciled m = x.reconciled m := by
  obtain ⟨_ | counts, sketch⟩ := x <;> rfl

end ColumnSide

namespace ColumnAggregates

variable {a : ColumnAggregates} {cap m : Nat} {c col : Text}

def side (a : ColumnAggregates) (c : Text) : ColumnSide := ⟨a.exact.columns.get? c, a.sketches.columns.get? c⟩

theorem accountedRows_eq (a : ColumnAggregates) (c : Text) : a.accountedRows c = (a.side c).valued + (a.side c).nulls := by
  simp only [accountedRows, side, ColumnSide.valued, ColumnSide.nulls]
  cases a.exact.columns.get? c <;> simp
  omega

theorem side_foldl {step : ColumnAggregates → Text → ColumnAggregates} {f : ColumnSide → ColumnSide} (c : Text)
    (hself : ∀ a, (step a c).side c = f (a.side c)) (hother : ∀ a col, c ≠ col → (step a col).side c = a.side c)
    (hagain : ∀ x, f (f x) = f x) (l : List Text) (a : ColumnAggregates) :
    (l.foldl step a).side c = if c ∈ l then f (a.side c) else a.side c := by
  induction l generalizing a with
  | nil => rfl
  | cons col l ih =>
    rw [foldl_cons, ih]
    by_cases hcol : c = col
    · subst hcol
      rw [hself, hagain]
      simp
    · rw [hother a col hcol]
      simp [hcol]

theorem side_demoteOverCapColumns (cap m : Nat) (a : ColumnAggregates) (c : Text) :
    (a.demoteOverCapColumns cap m).side c = (a.side c).demote cap m := by
  have hself : ∀ a : ColumnAggregates, (a.demoteColumn m c).side c = (a.side c).demoted m := by
    intro a
    simp only [demoteColumn, side, ColumnSide.demoted]
    cases hexact : a.exact.columns.get? c with
    | none => simp [hexact]
    | some counts => simp [SortedMap.get?_erase, SortedMap.get?_upsert]
  have hother : ∀ (a : ColumnAggregates) (col : Text), c ≠ col → (a.demoteColumn m col).side c = a.side c := by
    intro a col hne
    simp only [demoteColumn, side]
    cases a.exact.columns.get? col <;> simp [SortedMap.get?_erase, SortedMap.get?_upsert, hne]
  rw [demoteOverCapColumns, side_foldl c hself hother (ColumnSide.demoted_demoted m), ColumnSide.demote]
  refine if_congr ?_ rfl rfl
  rw [mem_keysWith]
  simp only [side, Option.mem_def, decide_eq_true_eq]

theorem side_reconcileSplitColumns (m : Nat) (a : ColumnAggregates) (c : Text) :
    (a.reconcileSplitColumns m).side c = (a.side c).reconcile m := by
  have hself : ∀ a : ColumnAggregates, (a.reconcileColumn m c).side c = (a.side c).reconciled m := by
    intro a
    simp only [reconcileColumn, side, ColumnSide.reconciled]
    cases hexact : a.exact.columns.get? c with
    | none => simp [hexact]
    | some counts =>
      cases hsketch : a.sketches.columns.get? c with
      | none => simp [SortedMap.get?_erase, hsketch]
      | some target => simp [SortedMap.get?_erase, SortedMap.get?_upsert]
  have hother : ∀ (a : ColumnAggregates) (col : Text), c ≠ col → (a.reconcileColumn m col).side c = a.side c := by
    intro a col hne
    simp only [reconcileColumn, side]
    cases a.exact.columns.get? col <;> cases a.sketches.columns.get? col <;>
      simp [SortedMap.get?_erase, SortedMap.get?_upsert, hne]
  rw [reconcileSplitColumns, side_foldl c hself hother (ColumnSide.reconciled_reconciled m), ColumnSide.reconcile]
  refine if_congr ?_ rfl rfl
  rw [mem_filter, mem_map_fst_entries]
  rfl

/-- To absorb a delta is to merge, demote and reconcile every column on its own. -/
theorem side_absorb (cap m : Nat) (acc delta : ColumnAggregates) (h : delta.sketches.version = groupCountSketchVersion)
    (c : Text) : (acc.absorb cap m delta).side c = ((acc.side c).merge (delta.side c)).demote cap m := by
  rw [absorb, side_demoteOverCapColumns]
  congr 1
  simp only [side, ColumnSide.merge, FileGroupCounts.mergeUncapped, GroupCountSketches.merge, h, ne_eq, not_true_eq_false,
    if_false, SortedMap.get?_mergeWith]

end ColumnAggregates

/-! ## Counting a batch -/

@[simp] theorem present_append (keys keys' : List (Option Text)) : present (keys ++ keys') = present keys ++ present keys' :=
  filterMap_append

theorem length_eq_present_add_nulls (keys : List (Option Text)) : keys.length = (present keys).length + keys.count none :=
  (length_filterMap_add_count_none keys).symm

theorem length_entries_tally_text (l : List Text) : (SortedMap.tally l).entries.length = l.dedup.length := by
  rw [length_entries_tally]
  congr
  exact Subsingleton.elim _ _

theorem length_dedup_concat (l : List Text) (v : Text) :
    (l ++ [v]).dedup.length = l.dedup.length + if v ∈ l then 0 else 1 := by
  have hperm : (l ++ [v]).dedup.Perm (v :: l).dedup := List.Perm.dedup (perm_append_singleton v l)
  rw [hperm.length_eq]
  split
  · next h => rw [dedup_cons_of_mem h, Nat.add_zero]
  · next h => rw [dedup_cons_of_notMem h, length_cons]

theorem fits_iff {l : List Text} {cap : Nat} (hle : l.dedup.length ≤ cap) (v : Text) :
    ((tally l).get? v).isSome ∨ (tally l).entries.length < cap ↔ (l ++ [v]).dedup.length ≤ cap := by
  rw [length_entries_tally_text, length_dedup_concat, SortedMap.get?_tally]
  split
  · exact iff_of_true (Or.inl rfl) hle
  · exact or_iff_right (by simp)

theorem length_dedup_mono {l l' : List Text} (h : l ⊆ l') : l.dedup.length ≤ l'.dedup.length := by
  refine (subperm_of_subset (nodup_dedup l) fun x hx => ?_).length_le
  rw [mem_dedup] at hx ⊢
  exact h hx

/-- What the loop over a column's rows has made of them: exact counts while the distinct values fit the cap, and else a
summary that accounts for the rows that are not NULL. -/
structure ColumnScan.Counted (cap : Nat) (s : ColumnScan) (keys : List (Option Text)) : Prop where
  nulls : s.nulls = keys.count none
  seen : s.seen = (present keys).length
  either : ((present keys).dedup.length ≤ cap ∧ s.sketch = none ∧ s.values = tally (present keys)) ∨
    (cap < (present keys).dedup.length ∧ ∃ sketch, s.sketch = some sketch ∧ sketch.rows = (present keys).length)

namespace ColumnScan

variable {cap m : Nat} {s : ColumnScan} {keys : List (Option Text)}

theorem Counted.row_none (h : s.Counted cap keys) : (s.row cap m none).Counted cap (keys ++ [none]) := by
  have hpresent : present (keys ++ [none]) = present keys := by simp [present]
  refine ⟨?_, ?_, ?_⟩
  · rw [count_append]
    simp [row, h.nulls]
  · rw [hpresent]
    exact h.seen
  · rw [hpresent]
    exact h.either

theorem Counted.row_some (h : s.Counted cap keys) (v : Text) : (s.row cap m (some v)).Counted cap (keys ++ [some v]) := by
  have hpresent : present (keys ++ [some v]) = present keys ++ [v] := by simp [present]
  have hnulls : (keys ++ [some v]).count none = keys.count none := by simp [count_append]
  have hdistinct := length_dedup_concat (present keys) v
  rcases h.either with ⟨hle, hnone, hvalues⟩ | ⟨hlt, sketch, hsome, hrows⟩
  · have hroom := fits_iff hle v
    rw [← hvalues] at hroom
    by_cases hfits : (s.values.get? v).isSome ∨ s.values.entries.length < cap
    · have hrow : s.row cap m (some v) = ⟨s.values.bump v 1, s.nulls, none, s.seen + 1⟩ := by
        simp only [row, hnone, if_pos hfits]
      have htally : (tally (present keys)).bump v 1 = tally (present keys ++ [v]) := by
        simp [tally]
      rw [hrow]
      refine ⟨by rw [hnulls]; exact h.nulls, by rw [hpresent, length_append, ← h.seen]; rfl, Or.inl ⟨?_, rfl, ?_⟩⟩
      · rw [hpresent]
        exact hroom.mp hfits
      · rw [hpresent, ← htally, hvalues]
    · have hrow : s.row cap m (some v) =
          ⟨.empty, s.nulls, some ((ColumnSketch.fromExact m s.values s.seen).offer v), s.seen + 1⟩ := by
        simp only [row, hnone, if_neg hfits, Nat.add_sub_cancel]
      rw [hrow]
      refine ⟨by rw [hnulls]; exact h.nulls, by rw [hpresent, length_append, ← h.seen]; rfl, Or.inr ⟨?_, _, rfl, ?_⟩⟩
      · rw [hpresent]
        exact not_le.mp (mt hroom.mpr hfits)
      · rw [hpresent, ColumnSketch.offer_rows, ColumnSketch.fromExact_rows, h.seen, length_append]
        rfl
  · have hrow : s.row cap m (some v) = ⟨s.values, s.nulls, some (sketch.offer v), s.seen + 1⟩ := by
      simp only [row, hsome]
    rw [hrow]
    refine ⟨by rw [hnulls]; exact h.nulls, by rw [hpresent, length_append, ← h.seen]; rfl, Or.inr ⟨?_, _, rfl, ?_⟩⟩
    · rw [hpresent, hdistinct]
      omega
    · rw [hpresent, ColumnSketch.offer_rows, hrows, length_append]
      rfl

/-- The scan of a batch has counted its rows, exactly while they fit the cap. -/
theorem counted_scan (cap m : Nat) (keys : List (Option Text)) : (scan cap m keys).Counted cap keys := by
  induction keys using List.reverseRecOn with
  | nil => exact ⟨rfl, rfl, Or.inl ⟨Nat.zero_le _, rfl, rfl⟩⟩
  | append_singleton keys k ih =>
    rw [scan, foldl_append, foldl_cons, foldl_nil]
    cases k with
    | none => exact ih.row_none
    | some v => exact ih.row_some v

end ColumnScan

/-- What a batch contributes to a column under its cap, given the column's rows in the batch. -/
inductive Contributes (cap : Nat) : ColumnSide → List (Option Text) → Prop where
  | absent : Contributes cap .empty []
  | exact {keys : List (Option Text)} (h : (present keys).dedup.length ≤ cap) :
    Contributes cap ⟨some (groupCounts keys), none⟩ keys
  | sketched {keys : List (Option Text)} (h : cap < (present keys).dedup.length) {sketch : ColumnSketch}
    (hrows : sketch.rows = (present keys).length) : Contributes cap ⟨none, some sketch⟩ keys

variable {caps : GroupCountCaps} {declared columns : List Text} {m : Nat} {batch : RecordBatch} {column : Text}

def ColumnSide.count (cap m : Nat) (rows : Option (List (Option Text))) (x : ColumnSide) : ColumnSide :=
  match rows with
  | none => x
  | some keys =>
    match (scan cap m keys).sketch with
    | some s => ⟨x.exact, some s⟩
    | none => ⟨some ⟨(scan cap m keys).values, (scan cap m keys).nulls⟩, x.sketch⟩

theorem side_fileGroupCountsAndSketches (hcolumn : column ∈ columns) :
    (fileGroupCountsAndSketches caps declared columns m batch).side column =
      ColumnSide.empty.count (groupCountCapFor caps declared column) m (batch column) := by
  have hself : ∀ a : ColumnAggregates, (countColumn caps declared m batch a column).side column =
      (a.side column).count (groupCountCapFor caps declared column) m (batch column) := by
    intro a
    unfold countColumn ColumnSide.count
    cases batch column with
    | none => rfl
    | some keys =>
      dsimp only
      cases (scan (groupCountCapFor caps declared column) m keys).sketch <;>
        simp [ColumnAggregates.side, SortedMap.get?_upsert]
  have hother : ∀ (a : ColumnAggregates) (col : Text), column ≠ col →
      (countColumn caps declared m batch a col).side column = a.side column := by
    intro a col hne
    unfold countColumn
    cases batch col with
    | none => rfl
    | some keys =>
      dsimp only
      cases (scan (groupCountCapFor caps declared col) m keys).sketch <;>
        simp [ColumnAggregates.side, SortedMap.get?_upsert, hne]
  have hagain : ∀ x : ColumnSide, (x.count (groupCountCapFor caps declared column) m (batch column)).count
      (groupCountCapFor caps declared column) m (batch column) =
        x.count (groupCountCapFor caps declared column) m (batch column) := by
    intro x
    unfold ColumnSide.count
    cases batch column with
    | none => rfl
    | some keys =>
      dsimp only
      cases (scan (groupCountCapFor caps declared column) m keys).sketch <;> rfl
  rw [fileGroupCountsAndSketches, ColumnAggregates.side_foldl column hself hother hagain, if_pos hcolumn]
  rfl

theorem version_fileGroupCountsAndSketches (caps : GroupCountCaps) (declared columns : List Text) (m : Nat)
    (batch : RecordBatch) :
    (fileGroupCountsAndSketches caps declared columns m batch).sketches.version = groupCountSketchVersion := by
  have hstep : ∀ (l : List Text) (a : ColumnAggregates), a.sketches.version = groupCountSketchVersion →
      (l.foldl (countColumn caps declared m batch) a).sketches.version = groupCountSketchVersion := by
    intro l
    induction l with
    | nil => exact fun a h => h
    | cons col l ih =>
      intro a h
      refine ih _ ?_
      unfold countColumn
      cases batch col with
      | none => exact h
      | some keys =>
        dsimp only
        cases (scan (groupCountCapFor caps declared col) m keys).sketch <;> exact h
  exact hstep columns .empty rfl

theorem contributes_fileGroupCountsAndSketches (hcolumn : column ∈ columns) :
    Contributes (groupCountCapFor caps declared column)
      ((fileGroupCountsAndSketches caps declared columns m batch).side column) (rowsOf column batch) := by
  rw [side_fileGroupCountsAndSketches hcolumn, rowsOf]
  cases batch column with
  | none => exact .absent
  | some keys =>
    have hcounted := ColumnScan.counted_scan (groupCountCapFor caps declared column) m keys
    rcases hcounted.either with ⟨hle, hnone, hvalues⟩ | ⟨hlt, sketch, hsome, hrows⟩
    · have hside : ColumnSide.empty.count (groupCountCapFor caps declared column) m (some keys) =
          ⟨some (groupCounts keys), none⟩ := by
        simp only [ColumnSide.count, hnone, hvalues, hcounted.nulls]
        rfl
      rw [hside]
      exact .exact hle
    · have hside : ColumnSide.empty.count (groupCountCapFor caps declared column) m (some keys) = ⟨none, some sketch⟩ := by
        simp only [ColumnSide.count, hsome]
        rfl
      rw [hside]
      exact .sketched hlt hrows

end LogLake
