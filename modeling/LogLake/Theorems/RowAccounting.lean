import LogLake.Lemmas.ColumnSides

/-! # The rows that a column's aggregate accounts for -/

namespace LogLake

open List Option ColumnSide ColumnAggregates

section Runs

variable {caps : GroupCountCaps} {declared columns : List Text} {m : Nat} {column : Text}

theorem groupCountCapFor_le (caps : GroupCountCaps) (declared : List Text) (column : Text) :
    groupCountCapFor caps declared column ≤ caps.table := by
  unfold groupCountCapFor
  split
  · exact le_rfl
  · exact min_le_left _ _

variable {I : ColumnSide → List (Option Text) → Prop}

theorem side_foldl_absorb {Q : List (Option Text) → Prop} (hcolumn : column ∈ columns)
    (hstep : ∀ x p d keys, I x p → Contributes (groupCountCapFor caps declared column) d keys → Q keys →
      I ((x.merge d).demote caps.table m) (p ++ keys))
    (batches : List RecordBatch) (hbatches : ∀ b ∈ batches, Q (rowsOf column b)) (acc : ColumnAggregates)
    (p : List (Option Text)) (h : I (acc.side column) p) :
    I (((batches.map (fileGroupCountsAndSketches caps declared columns m)).foldl
      (absorb caps.table m) acc).side column) (p ++ batches.flatMap (rowsOf column)) := by
  induction batches generalizing acc p with
  | nil => simpa using h
  | cons b batches ih =>
    have hcontributes : Contributes (groupCountCapFor caps declared column)
        ((fileGroupCountsAndSketches caps declared columns m b).side column) (rowsOf column b) :=
      contributes_fileGroupCountsAndSketches hcolumn
    have hone := hstep _ p _ _ h hcontributes (hbatches b mem_cons_self)
    rw [← side_absorb _ _ _ _ (version_fileGroupCountsAndSketches caps declared columns m b)] at hone
    rw [map_cons, foldl_cons, flatMap_cons, ← append_assoc]
    exact ih (fun b' hb' => hbatches b' (mem_cons_of_mem _ hb')) _ _ hone

theorem side_tableAggregates_concat (cycles : List (List RecordBatch)) (batches : List RecordBatch) :
    (tableAggregates caps declared columns m (cycles ++ [batches])).side column =
      (((batches.map (fileGroupCountsAndSketches caps declared columns m)).foldl (absorb caps.table m)
        (tableAggregates caps declared columns m cycles)).side column).reconcile m := by
  rw [tableAggregates, foldCycles, map_append, foldl_append]
  exact side_reconcileSplitColumns m _ column

theorem side_tableAggregates (hcolumn : column ∈ columns) (hempty : I .empty [])
    (hstep : ∀ x p d keys, I x p → Contributes (groupCountCapFor caps declared column) d keys →
      I ((x.merge d).demote caps.table m) (p ++ keys))
    (hreconcile : ∀ x p, I x p → I (x.reconcile m) p) (cycles : List (List RecordBatch)) :
    I ((tableAggregates caps declared columns m cycles).side column) (cycles.flatten.flatMap (rowsOf column)) := by
  induction cycles using List.reverseRecOn with
  | nil => exact hempty
  | append_singleton cycles batches ih =>
    rw [side_tableAggregates_concat, flatten_append, flatMap_append, flatten_singleton]
    exact hreconcile _ _ (side_foldl_absorb (Q := fun _ => True) hcolumn (fun x p d keys hx hd _ => hstep x p d keys hx hd)
      batches (fun _ _ => trivial) _ _ ih)

theorem exclusive_tableAggregates (cycles : List (List RecordBatch)) :
    ((tableAggregates caps declared columns m cycles).side column).exact = none ∨
      ((tableAggregates caps declared columns m cycles).side column).sketch = none := by
  induction cycles using List.reverseRecOn with
  | nil => exact .inl rfl
  | append_singleton cycles batches _ =>
    rw [side_tableAggregates_concat]
    exact exclusive_reconcile m _

end Runs

/-! ## What the operations preserve -/

section Invariants

variable {cap limit m : Nat} {x d : ColumnSide} {p keys : List (Option Text)}

theorem Contributes.valued_eq (h : Contributes cap d keys) : d.valued = (present keys).length := by
  cases h with
  | absent => rfl
  | exact _ => exact SortedMap.total_tally _
  | sketched _ hrows => exact (Nat.zero_add _).trans hrows

theorem Contributes.nulls_le (h : Contributes cap d keys) : d.nulls ≤ keys.count none := by
  cases h with
  | absent => exact Nat.zero_le _
  | exact _ => exact le_rfl
  | sketched _ _ => exact Nat.zero_le _

/-- Without NULLs, every row is accounted for. -/
def AllCounted (x : ColumnSide) (p : List (Option Text)) : Prop := none ∉ p → x.valued = p.length ∧ x.nulls = 0

theorem AllCounted.absorb (h : AllCounted x p) (hd : Contributes cap d keys) :
    AllCounted ((x.merge d).demote limit m) (p ++ keys) := by
  intro hnone
  rw [mem_append, not_or] at hnone
  obtain ⟨hvalued, hnulls⟩ := h hnone.1
  have hkeys := length_eq_present_add_nulls keys
  have hcount := count_eq_zero_of_not_mem hnone.2
  have hd' := hd.valued_eq
  have hdn := hd.nulls_le
  have hmerged := valued_merge x d
  have hmergedn := nulls_merge x d
  have hkept := valued_add_nulls_demote limit m (x.merge d)
  have hgrown := valued_le_demote limit m (x.merge d)
  rw [length_append]
  omega

theorem AllCounted.reconcile (h : AllCounted x p) : AllCounted (x.reconcile m) p := by
  intro hnone
  obtain ⟨hvalued, hnulls⟩ := h hnone
  have hle := nulls_reconcile_le m x
  exact ⟨(valued_reconcile m x).trans hvalued, by omega⟩

/-- While the distinct values fit the cap, the column is counted exactly. -/
def ExactWithin (cap : Nat) (x : ColumnSide) (p : List (Option Text)) : Prop :=
  (present p).dedup.length ≤ cap → x = ⟨some (groupCounts p), none⟩ ∨ p = [] ∧ x = .empty

theorem length_values_groupCounts (keys : List (Option Text)) :
    (groupCounts keys).values.entries.length = (present keys).dedup.length := length_entries_tally_text _

theorem valued_add_nulls_groupCounts (keys : List (Option Text)) :
    valued ⟨some (groupCounts keys), none⟩ + nulls ⟨some (groupCounts keys), none⟩ = keys.length := by
  have htotal : valued ⟨some (groupCounts keys), none⟩ = (present keys).length := SortedMap.total_tally _
  rw [htotal, length_eq_present_add_nulls]
  rfl

theorem merge_groupCounts (p keys : List (Option Text)) :
    merge ⟨some (groupCounts p), none⟩ ⟨some (groupCounts keys), none⟩ = ⟨some (groupCounts (p ++ keys)), none⟩ := by
  rw [← fold_groupCounts]
  rfl

theorem ExactWithin.absorb (hcap : cap ≤ limit) (h : ExactWithin cap x p) (hd : Contributes cap d keys) :
    ExactWithin cap ((x.merge d).demote limit m) (p ++ keys) := by
  intro hfits
  have hp : (present p).dedup.length ≤ cap := le_trans (length_dedup_mono (by simp)) hfits
  have hexact : ∀ y : ColumnSide, y = ⟨some (groupCounts (p ++ keys)), none⟩ → y.demote limit m = y := by
    rintro y rfl
    refine demote_of_le fun counts hcounts => ?_
    obtain rfl := mem_some.mp hcounts
    rw [length_values_groupCounts]
    omega
  cases hd with
  | absent =>
    rw [append_nil] at hexact ⊢
    rcases h hp with hx | ⟨hnil, hx⟩
    · exact .inl ((hexact x hx).trans hx)
    · refine .inr ⟨hnil, ?_⟩
      rw [hx]
      rfl
  | exact _ =>
    have hmerge : x.merge ⟨some (groupCounts keys), none⟩ = ⟨some (groupCounts (p ++ keys)), none⟩ := by
      rcases h hp with hx | ⟨hnil, hx⟩
      · rw [hx, merge_groupCounts]
      · rw [hx, hnil, ← merge_groupCounts]
        rfl
    exact .inl ((hexact _ hmerge).trans hmerge)
  | sketched hlt _ =>
    have hle : (present keys).dedup.length ≤ (present (p ++ keys)).dedup.length := length_dedup_mono (by simp)
    omega

theorem ExactWithin.reconcile (h : ExactWithin cap x p) : ExactWithin cap (x.reconcile m) p := by
  intro hfits
  rcases h hfits with hx | ⟨hnil, hx⟩
  · exact .inl (by rw [hx]; rfl)
  · exact .inr ⟨hnil, by rw [hx]; rfl⟩

/-- Under a cap of nothing, every value is summarised. -/
structure NeverExact (x : ColumnSide) (p : List (Option Text)) : Prop where
  noValue : ∀ counts ∈ x.exact, counts.values = .empty
  valued : x.valued = (present p).length
  summarised : present p ≠ [] → x.sketch.isSome

theorem present_eq_nil (h : (present keys).dedup.length ≤ 0) : present keys = [] := by
  have hnil := eq_nil_of_length_eq_zero (Nat.le_zero.mp h)
  refine eq_nil_iff_forall_not_mem.mpr fun v hv => ?_
  rw [← mem_dedup, hnil] at hv
  cases hv

theorem NeverExact.merge (h : NeverExact x p) (hd : Contributes 0 d keys) : NeverExact (x.merge d) (p ++ keys) := by
  have hvalued : (x.merge d).valued = (present (p ++ keys)).length := by
    rw [valued_merge, h.valued, hd.valued_eq, present_append, length_append]
  cases hd with
  | absent => exact ⟨h.noValue, hvalued, fun hne => h.summarised (by simpa using hne)⟩
  | exact hfits =>
    have hnil := present_eq_nil hfits
    refine ⟨fun counts hcounts => ?_, hvalued, fun hne => h.summarised (by simpa [hnil] using hne)⟩
    obtain rfl := mem_some.mp hcounts
    have hempty : (groupCounts keys).values = SortedMap.empty := by
      change SortedMap.tally (present keys) = _
      rw [hnil]
      rfl
    cases hx : x.exact with
    | none => simp [GroupCounts.fold, hempty, SortedMap.add, SortedMap.empty]
    | some counts =>
      have hnone := h.noValue counts hx
      simp [GroupCounts.fold, hempty, hnone, SortedMap.add, SortedMap.empty]
  | sketched hlt hrows => exact ⟨h.noValue, hvalued, fun _ => rfl⟩

theorem NeverExact.absorb (h : NeverExact x p) (hd : Contributes 0 d keys) :
    NeverExact ((x.merge d).demote limit m) (p ++ keys) := by
  have hmerged := h.merge hd
  rw [demote_of_le fun counts hcounts => by
    rw [hmerged.noValue counts hcounts]
    exact Nat.zero_le _]
  exact hmerged

theorem NeverExact.reconcile (h : NeverExact x p) : NeverExact (x.reconcile m) p where
  noValue counts hcounts := by
    obtain ⟨_ | exact, _ | sketch⟩ := x
    · cases hcounts
    · cases hcounts
    · exact h.noValue counts hcounts
    · cases hcounts
  valued := (valued_reconcile m x).trans h.valued
  summarised hne := isSome_sketch_reconcile m (h.summarised hne)

/-- The rows were all counted exactly, or one of their NULLs has become a row of a summary. -/
def NullKept (x : ColumnSide) (p : List (Option Text)) : Prop :=
  none ∈ p ∧ (x = ⟨some (groupCounts p), none⟩ ∨ (present p).length + 1 ≤ x.valued)

theorem NullKept.absorb (h : NullKept x p) (hd : Contributes cap d keys) (hfits : (present keys).dedup.length ≤ cap) :
    NullKept ((x.merge d).demote limit m) (p ++ keys) := by
  obtain ⟨hnull, hkept⟩ := h
  refine ⟨mem_append_left _ hnull, ?_⟩
  rcases hkept with rfl | hkept
  · have hmerged : merge ⟨some (groupCounts p), none⟩ d = ⟨some (groupCounts (p ++ keys)), none⟩ := by
      cases hd with
      | absent =>
        rw [append_nil]
        rfl
      | exact _ => exact merge_groupCounts p keys
      | sketched hlt _ => omega
    rw [hmerged]
    rcases demote_eq_or limit m ⟨some (groupCounts (p ++ keys)), none⟩ with ⟨hsame, -⟩ | hdemoted
    · exact .inl hsame
    · refine .inr ?_
      have hpos : 0 < (p ++ keys).count none := count_pos_iff.mpr (mem_append_left _ hnull)
      have htotal : valued ⟨some (groupCounts (p ++ keys)), none⟩ = (present (p ++ keys)).length :=
        SortedMap.total_tally _
      have hnulls : nulls ⟨some (groupCounts (p ++ keys)), none⟩ = (p ++ keys).count none := rfl
      rw [hdemoted, valued_demoted, htotal, hnulls]
      omega
  · refine .inr ?_
    have hgrown := valued_le_demote limit m (x.merge d)
    rw [valued_merge, hd.valued_eq] at hgrown
    rw [present_append, length_append]
    omega

theorem NullKept.first (hd : Contributes cap d [none]) : NullKept ((ColumnSide.empty.merge d).demote limit m) [none] := by
  refine ⟨mem_singleton_self _, Or.inl ?_⟩
  generalize hkeys : ([none] : List (Option Text)) = keys at hd
  cases hd with
  | absent => cases hkeys
  | exact _ =>
    subst hkeys
    refine demote_of_le fun counts hcounts => ?_
    obtain rfl := mem_some.mp hcounts
    exact Nat.zero_le _
  | sketched hlt _ =>
    subst hkeys
    exact absurd hlt (Nat.not_lt_zero _)

theorem NullKept.lt_reconcile (h : NullKept x p) : (present p).length < (x.reconcile m).valued + (x.reconcile m).nulls := by
  obtain ⟨hnull, rfl | hkept⟩ := h
  · have hpos : 0 < p.count none := count_pos_iff.mpr hnull
    have hsame : reconcile m ⟨some (groupCounts p), none⟩ = ⟨some (groupCounts p), none⟩ := rfl
    have hlength := length_eq_present_add_nulls p
    rw [hsame, valued_add_nulls_groupCounts]
    omega
  · rw [valued_reconcile]
    omega

end Invariants

/-! ## Splits of a column -/

section Splits

variable {caps : GroupCountCaps} {declared columns : List Text} {m : Nat} {column : Text} {rows : List (Option Text)}

/-- The rows accounted for do not depend on the batches that hold them, nor on the cycles that fold those. -/
def SplitIndependent (caps : GroupCountCaps) (declared columns : List Text) (m : Nat) (column : Text)
    (rows : List (Option Text)) : Prop :=
  ∃ total, ∀ cycles : List (List RecordBatch), (cycles.flatten.flatMap (rowsOf column)).Perm rows →
    (tableAggregates caps declared columns m cycles).accountedRows column = total

theorem splitIndependent_of_no_null (hcolumn : column ∈ columns) (h : none ∉ rows) :
    SplitIndependent caps declared columns m column rows := by
  refine ⟨rows.length, fun cycles hperm => ?_⟩
  have hall : AllCounted ((tableAggregates caps declared columns m cycles).side column)
      (cycles.flatten.flatMap (rowsOf column)) :=
    side_tableAggregates hcolumn (fun _ => ⟨rfl, rfl⟩) (fun _ _ _ _ hx hd => hx.absorb hd) (fun _ _ hx => hx.reconcile) cycles
  obtain ⟨hvalued, hnulls⟩ := hall fun hmem => h (hperm.mem_iff.mp hmem)
  rw [accountedRows_eq, hvalued, hnulls, hperm.length_eq, Nat.add_zero]

section

variable (hcolumn : column ∈ columns)
include hcolumn

theorem splitIndependent_of_fits (h : (present rows).dedup.length ≤ groupCountCapFor caps declared column) :
    SplitIndependent caps declared columns m column rows := by
  refine ⟨rows.length, fun cycles hperm => ?_⟩
  have hexact : ExactWithin (groupCountCapFor caps declared column)
      ((tableAggregates caps declared columns m cycles).side column) (cycles.flatten.flatMap (rowsOf column)) :=
    side_tableAggregates hcolumn (fun _ => .inr ⟨rfl, rfl⟩)
      (fun _ _ _ _ hx hd => hx.absorb (groupCountCapFor_le caps declared column) hd) (fun _ _ hx => hx.reconcile) cycles
  have hfits : (present (cycles.flatten.flatMap (rowsOf column))).dedup.length ≤ groupCountCapFor caps declared column := by
    have hpresent : (present (cycles.flatten.flatMap (rowsOf column))).Perm (present rows) := hperm.filterMap id
    rwa [hpresent.dedup.length_eq]
  rw [accountedRows_eq, ← hperm.length_eq]
  rcases hexact hfits with hside | ⟨hnil, hside⟩
  · rw [hside, valued_add_nulls_groupCounts]
  · rw [hside, hnil]
    rfl

theorem splitIndependent_of_no_cap (h : groupCountCapFor caps declared column = 0)
    (hrows : present rows ≠ []) : SplitIndependent caps declared columns m column rows := by
  refine ⟨(present rows).length, fun cycles hperm => ?_⟩
  have hnever : NeverExact ((tableAggregates caps declared columns m cycles).side column)
      (cycles.flatten.flatMap (rowsOf column)) :=
    side_tableAggregates hcolumn ⟨fun _ hcounts => (not_mem_none _ hcounts).elim, rfl, fun hne => absurd rfl hne⟩
      (fun _ _ _ _ hx hd => hx.absorb (h ▸ hd)) (fun _ _ hx => hx.reconcile) cycles
  have hpresent : (present (cycles.flatten.flatMap (rowsOf column))).Perm (present rows) := hperm.filterMap id
  have hsome := hnever.summarised fun hnil => hrows (perm_nil.mp (hnil ▸ hpresent.symm))
  have hexact : ((tableAggregates caps declared columns m cycles).side column).exact = none := by
    rcases exclusive_tableAggregates cycles with hexact | hsketch
    · exact hexact
    · rw [hsketch] at hsome
      cases hsome
  rw [accountedRows_eq, hnever.valued, hpresent.length_eq, nulls, hexact]
  rfl

theorem accountedRows_one_batch (h : groupCountCapFor caps declared column < (present rows).dedup.length) :
    (tableAggregates caps declared columns m [[fun _ => some rows]]).accountedRows column = (present rows).length := by
  obtain ⟨d, hd⟩ : ∃ d, (fileGroupCountsAndSketches caps declared columns m fun _ => some rows).side column = d := ⟨_, rfl⟩
  have hcontributes : Contributes (groupCountCapFor caps declared column) d rows :=
    hd ▸ contributes_fileGroupCountsAndSketches hcolumn
  have hside : (tableAggregates caps declared columns m [[fun _ => some rows]]).side column =
      ((empty.merge d).demote caps.table m).reconcile m := by
    rw [← nil_append [[_]], side_tableAggregates_concat, map_singleton, foldl_cons, foldl_nil,
      side_absorb _ _ _ _ (version_fileGroupCountsAndSketches ..), hd]
    rfl
  rw [accountedRows_eq, hside]
  cases hcontributes with
  | absent => exact absurd h (Nat.not_lt_zero _)
  | exact hfits => omega
  | sketched _ hrows => exact (congrArg (· + 0) (Nat.zero_add _)).trans hrows

end

theorem flatMap_rowsOf_single_rows (column : Text) (rows : List (Option Text)) :
    (rows.map fun k _ => some [k]).flatMap (rowsOf column) = rows := by
  rw [flatMap_map]
  exact flatMap_singleton' rows

theorem lt_accountedRows_single_rows (hcolumn : column ∈ columns) (h : groupCountCapFor caps declared column ≠ 0)
    (rest : List (Option Text)) : (present rest).length <
      (tableAggregates caps declared columns m [(none :: rest).map fun k _ => some [k]]).accountedRows column := by
  have hfirst : NullKept ((absorb caps.table m .empty
      (fileGroupCountsAndSketches caps declared columns m fun _ => some [none])).side column) [none] := by
    rw [side_absorb _ _ _ _ (version_fileGroupCountsAndSketches ..)]
    have hcontributes : Contributes (groupCountCapFor caps declared column)
        ((fileGroupCountsAndSketches caps declared columns m fun _ => some [none]).side column) [none] :=
      contributes_fileGroupCountsAndSketches hcolumn
    exact NullKept.first hcontributes
  have hsingle : ∀ b ∈ rest.map fun k _ => some [k],
      (present (rowsOf column b)).dedup.length ≤ groupCountCapFor caps declared column := by
    intro b hb
    obtain ⟨k, -, rfl⟩ := mem_map.mp hb
    cases k with
    | none => exact Nat.zero_le _
    | some v => exact Nat.one_le_iff_ne_zero.mpr h
  have hall := side_foldl_absorb (I := NullKept) (m := m) hcolumn (fun _ _ _ _ hx hd hq => hx.absorb hd hq) _ hsingle _ _ hfirst
  rw [flatMap_rowsOf_single_rows] at hall
  have hlt := hall.lt_reconcile (m := m)
  rw [accountedRows_eq, ← nil_append [List.map _ _], side_tableAggregates_concat]
  exact hlt

theorem not_splitIndependent (hcolumn : column ∈ columns) (hnull : none ∈ rows)
    (hover : groupCountCapFor caps declared column < (present rows).dedup.length)
    (hcap : groupCountCapFor caps declared column ≠ 0) : ¬SplitIndependent caps declared columns m column rows := by
  rintro ⟨total, htotal⟩
  have hperm : rows.Perm (none :: rows.erase none) := perm_cons_erase hnull
  have hone := htotal [[fun _ => some rows]] (by simp [rowsOf])
  have hsplit := htotal [(none :: rows.erase none).map fun k _ => some [k]] (by
    rw [flatten_singleton, flatMap_rowsOf_single_rows]
    exact hperm.symm)
  have hlt := lt_accountedRows_single_rows (m := m) hcolumn hcap (rows.erase none)
  have hpresent : (present rows).length = (present (rows.erase none)).length := (hperm.filterMap id).length_eq
  rw [accountedRows_one_batch hcolumn hover] at hone
  rw [hsplit] at hlt
  omega

end Splits

/-- The rows that a counted column accounts for are the same for every split into batches exactly when the column has no NULL,
its distinct values fit the cap of a batch, or that cap is zero. -/
theorem accounting_split_independent_iff (caps : GroupCountCaps) (declared columns : List Text) (m : Nat) (column : Text)
    (hcolumn : column ∈ columns) (rows : List (Option Text)) :
    SplitIndependent caps declared columns m column rows ↔
      none ∉ rows ∨ (present rows).dedup.length ≤ groupCountCapFor caps declared column ∨
        groupCountCapFor caps declared column = 0 := by
  constructor
  · intro h
    by_contra hnot
    simp only [not_or, not_not, not_le] at hnot
    exact not_splitIndependent hcolumn hnot.1 hnot.2.1 hnot.2.2 h
  · rintro (hnull | hfits | hcap)
    · exact splitIndependent_of_no_null hcolumn hnull
    · exact splitIndependent_of_fits hcolumn hfits
    · by_cases hrows : present rows = []
      · exact splitIndependent_of_fits hcolumn (by rw [hrows]; exact Nat.zero_le _)
      · exact splitIndependent_of_no_cap hcolumn hcap hrows

def hostBatch (keys : List (Option String)) : RecordBatch :=
  fun c => if c = "host".toList then some (keys.map (·.map String.toList)) else none

/-- Two values without a NULL, under a cap of one: every split accounts for both rows. -/
theorem two_hosts_split_independent :
    none ∉ [some "a".toList, some "b".toList] ∧
      SplitIndependent ⟨1, 1⟩ ["host".toList] ["host".toList] 4 "host".toList [some "a".toList, some "b".toList] :=
  ⟨by decide +kernel,
    (accounting_split_independent_iff ⟨1, 1⟩ ["host".toList] ["host".toList] 4 "host".toList (by decide +kernel)
      [some "a".toList, some "b".toList]).mpr (.inl (by decide +kernel))⟩

/-- Three rows, one of them NULL, under a cap of one: two are accounted for when they come in one batch, all three when the
second value comes later, and two again when the NULL does. -/
theorem three_rows_accounted_two_ways :
    let accounted cycles := (tableAggregates ⟨1, 1⟩ ["host".toList] ["host".toList] 4 cycles).accountedRows "host".toList
    accounted [[hostBatch [some "a", none, some "b"]]] = 2 ∧
      accounted [[hostBatch [some "a", none], hostBatch [some "b"]]] = 3 ∧
      accounted [[hostBatch [some "a", some "b"], hostBatch [none]]] = 2 := by
  decide +kernel

end LogLake
