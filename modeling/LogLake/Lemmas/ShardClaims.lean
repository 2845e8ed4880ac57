import LogLake.Catalog.Shards
import LogLake.Lemmas.Ledger

/-! # What a claim takes -/

namespace LogLake.Catalog

open List KeyedTable

/-- The claims of a drain: sealed rows before, under the claim after, and nothing else changed. -/
structure Claims (claimer : Text) (before after : Ledger) (claimed : List ClaimedSegment) : Prop where
  nodup : (claimed.map ClaimedSegment.id).Nodup
  taken : ∀ c ∈ claimed, ∃ row t, before.row c.id = some row ∧ row.status = .sealed ∧ c = row.claimed t ∧
    after.row c.id = some (row.claim claimer t)
  kept : ∀ id, (∀ c ∈ claimed, c.id ≠ id) → after.row id = before.row id

theorem Claims.nil (claimer : Text) (ledger : Ledger) : Claims claimer ledger ledger [] where
  nodup := nodup_nil
  taken _ h := by cases h
  kept _ _ := rfl

/-! ## Selections -/

variable {now : Int} {ledger : Ledger}

/-- A selected row is sealed, due and not locked. -/
theorem mem_selectSealed {limit : Nat} {locked : Text → Bool} {row : Row}
    (h : row ∈ selectSealed now limit locked ledger) : ledger.row row.id = some row ∧ row.status = .sealed := by
  have hfilter := (mem_insertionSort _).mp (mem_of_mem_take h)
  rw [mem_filter, Bool.and_eq_true, decide_eq_true_eq] at hfilter
  obtain ⟨hmem, hdue, -⟩ := hfilter
  exact ⟨row_eq_some.mpr ⟨hmem, rfl⟩, hdue.1⟩

theorem nodup_selectSealed (now : Int) (limit : Nat) (locked : Text → Bool) (ledger : Ledger) :
    ((selectSealed now limit locked ledger).map Row.id).Nodup := by
  unfold selectSealed
  have hsorted := perm_insertionSort (fun a b : Row => a.registeredAt ≤ b.registeredAt)
    (ledger.rows.filter fun row => decide (row.Due now) && !locked row.id)
  refine List.Nodup.sublist ((take_sublist _ _).map _) ((hsorted.map _).nodup_iff.mpr ?_)
  exact ledger.nodup.sublist (filter_sublist.map _)

/-! ## One statement -/

theorem row_claimRows_of_not_mem {claimer : Text} {ids : List Text} {id : Text} (hid : id ∉ ids)
    (ledger : Ledger) : (claimRows claimer now ids ledger).row id = ledger.row id := by
  refine row_update_of_forall_not fun row hrow hp => hid ?_
  rw [← key_of_row hrow]
  exact hp.1

theorem row_claimRows_of_mem {claimer : Text} {ids : List Text} {row : Row}
    (hrow : ledger.row row.id = some row) (hsealed : row.status = .sealed) (hid : row.id ∈ ids) :
    (claimRows claimer now ids ledger).row row.id = some (row.claim claimer now) :=
  row_update_of_pos hrow ⟨hid, hsealed⟩

theorem claims_claimRows (claimer : Text) (now : Int) {rows : List Row}
    (hrows : ∀ row ∈ rows, ledger.row row.id = some row ∧ row.status = .sealed) (hnodup : (rows.map Row.id).Nodup) :
    Claims claimer ledger (claimRows claimer now (rows.map Row.id) ledger) (rows.map fun row => Row.claimed row now) := by
  refine ⟨?_, ?_, ?_⟩
  · rw [map_map]
    exact hnodup
  · intro c hc
    obtain ⟨row, hrow, rfl⟩ := mem_map.mp hc
    obtain ⟨hsome, hsealed⟩ := hrows row hrow
    exact ⟨row, now, hsome, hsealed, rfl, row_claimRows_of_mem hsome hsealed (mem_map_of_mem hrow)⟩
  · intro id hid
    refine row_claimRows_of_not_mem (fun hmem => ?_) ledger
    obtain ⟨row, hrow, hsame⟩ := mem_map.mp hmem
    exact hid _ (mem_map_of_mem hrow) hsame

/-! ## Row by row -/

theorem claims_runAll (claimer : Text) (at' : Nat → Int) {rows : List Row}
    (hrows : ∀ row ∈ rows, ledger.row row.id = some row ∧ row.status = .sealed) (hnodup : (rows.map Row.id).Nodup) :
    Claims claimer ledger (runAll claimer at' (rows.map .claim) ledger).1 (runAll claimer at' (rows.map .claim) ledger).2 ∧
      (runAll claimer at' (rows.map .claim) ledger).2.map ClaimedSegment.id = rows.map Row.id := by
  induction rows generalizing ledger with
  | nil => exact ⟨Claims.nil claimer ledger, rfl⟩
  | cons row rows ih =>
    obtain ⟨hsome, hsealed⟩ := hrows row mem_cons_self
    rw [map_cons, nodup_cons] at hnodup
    rw [map_cons, runAll, RowStatement.run, hsome, Option.any_some, if_pos (by simpa using hsealed)]
    obtain ⟨now, hnow⟩ : ∃ now, now = at' (rows.map RowStatement.claim).length := ⟨_, rfl⟩
    rw [← hnow]
    dsimp only
    have hother : ∀ id, id ≠ row.id → (claimRows claimer now [row.id] ledger).row id = ledger.row id :=
      fun id hne => row_claimRows_of_not_mem (by simpa using hne) ledger
    have hne : ∀ other ∈ rows, other.id ≠ row.id := fun other ho hsame => hnodup.1 (hsame ▸ mem_map_of_mem ho)
    have hrows' : ∀ other ∈ rows, (claimRows claimer now [row.id] ledger).row other.id = some other ∧
        other.status = .sealed := by
      intro other ho
      rw [hother _ (hne other ho)]
      exact hrows other (mem_cons_of_mem _ ho)
    obtain ⟨hclaims, hids⟩ := ih hrows' hnodup.2
    have hlater : ∀ c ∈ (runAll claimer at' (rows.map .claim) (claimRows claimer now [row.id] ledger)).2, c.id ≠ row.id := by
      intro c hc hsame
      have hmem : c.id ∈ rows.map Row.id := hids ▸ mem_map_of_mem hc
      exact hnodup.1 (hsame ▸ hmem)
    refine ⟨⟨?_, ?_, ?_⟩, ?_⟩
    · rw [Option.toList_some, singleton_append, map_cons, nodup_cons]
      refine ⟨fun hmem => ?_, hclaims.nodup⟩
      obtain ⟨c, hc, hsame⟩ := mem_map.mp hmem
      exact hlater c hc hsame
    · intro c hc
      rw [Option.toList_some, singleton_append, mem_cons] at hc
      rcases hc with rfl | hc
      · refine ⟨row, now, hsome, hsealed, rfl, ?_⟩
        rw [show (row.claimed now).id = row.id from rfl, hclaims.kept row.id hlater]
        exact row_claimRows_of_mem hsome hsealed mem_cons_self
      · obtain ⟨other, t, hbefore, hstatus, hc', hafter⟩ := hclaims.taken c hc
        rw [hother _ (hlater c hc)] at hbefore
        exact ⟨other, t, hbefore, hstatus, hc', hafter⟩
    · intro id hid
      rw [Option.toList_some, singleton_append] at hid
      rw [hclaims.kept id fun c hc => hid c (mem_cons_of_mem _ hc)]
      exact hother id (hid _ mem_cons_self).symm
    · rw [Option.toList_some, singleton_append, map_cons, map_cons, hids]
      rfl

/-- A claim takes sealed rows and nothing else. -/
theorem claims_tryClaimSharded {cfg : ShardConfig} (claimer : Text) (at' : Nat → Int) {locked : Text → Bool}
    (hown : cfg.dialect = .postgres → ∀ row ∈ selectSealed now cfg.fetch locked ledger, cfg.Owns row.indexId) :
    Claims claimer ledger (tryClaimSharded cfg claimer now at' locked ledger).1
      (tryClaimSharded cfg claimer now at' locked ledger).2 := by
  unfold tryClaimSharded
  split
  · exact Claims.nil claimer ledger
  · unfold firstClaim
    cases hdialect : cfg.dialect with
    | postgres =>
      have hall := hown hdialect
      have hmine : (selectSealed now cfg.fetch locked ledger).filter (fun row => cfg.Owns row.indexId) =
          selectSealed now cfg.fetch locked ledger := filter_eq_self.mpr (by simpa using hall)
      have htheirs : (selectSealed now cfg.fetch locked ledger).filter (fun row => ¬ cfg.Owns row.indexId) = [] :=
        filter_eq_nil_iff.mpr (by simpa using hall)
      dsimp only
      rw [hmine, htheirs, map_nil, runAll, append_nil]
      exact claims_claimRows claimer now (fun row hrow => mem_selectSealed hrow) (nodup_selectSealed _ _ _ _)
    | sqlite =>
      dsimp only
      rw [nil_append]
      refine (claims_runAll claimer at' (fun row hrow => mem_selectSealed (mem_of_mem_filter hrow)) ?_).1
      exact (nodup_selectSealed _ _ _ _).sublist (filter_sublist.map _)

end LogLake.Catalog
