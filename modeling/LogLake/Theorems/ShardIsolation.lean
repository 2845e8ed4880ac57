import LogLake.Lemmas.ShardClaims

/-! # Shards keep to their own rows -/

namespace LogLake.Catalog

open List Option

open Transition (run Meets)

variable {cfg : Text → ShardConfig}

/-- What a drain still has to do are claims of rows of its own shard. -/
def OwnPending (cfg : Text → ShardConfig) (s : ShardState) : Prop :=
  ∀ p, ∀ statement ∈ (s.workers p).pending, ∃ row current, statement = .claim row ∧ (cfg p).Owns row.indexId ∧
    s.ledger.row row.id = some current ∧ current.indexId = row.indexId

theorem ownPending_start (ledger : Ledger) : OwnPending cfg (.start ledger) := by
  intro p statement hstatement
  cases hstatement

theorem OwnPending.update {s : ShardState} (h : OwnPending cfg s) {after : Ledger} (hmoves : Ledger.Moves s.ledger after)
    {p : Text} {worker : ShardWorker}
    (hworker : ∀ statement ∈ worker.pending, ∃ row current, statement = .claim row ∧ (cfg p).Owns row.indexId ∧
      s.ledger.row row.id = some current ∧ current.indexId = row.indexId) :
    OwnPending cfg { ledger := after, workers := Function.update s.workers p worker } := by
  intro q statement hstatement
  have hbefore : ∃ row current, statement = .claim row ∧ (cfg q).Owns row.indexId ∧
      s.ledger.row row.id = some current ∧ current.indexId = row.indexId := by
    dsimp only at hstatement
    by_cases hq : q = p
    · subst hq
      rw [Function.update_self] at hstatement
      exact hworker statement hstatement
    · rw [Function.update_of_ne hq] at hstatement
      exact h q statement hstatement
  obtain ⟨row, current, hclaim, howns, hrow, hindex⟩ := hbefore
  obtain ⟨row', hrow', -, hindex', -⟩ := hmoves row.id current hrow
  exact ⟨row, row', hclaim, howns, hrow', hindex'.trans hindex⟩

theorem firstClaim_own {c : ShardConfig} {p : Text} {now : Int} {locked : Text → Bool} {ledger : Ledger}
    (hown : c.dialect = .postgres → ∀ row ∈ selectSealed now c.fetch locked ledger, c.Owns row.indexId) :
    (∀ statement ∈ (firstClaim c p now locked ledger).pending, ∃ row, statement = .claim row ∧ c.Owns row.indexId ∧
      ledger.row row.id = some row) ∧ Ledger.Moves ledger (firstClaim c p now locked ledger).ledger ∧
    ∀ id row, ledger.row id = some row → ¬ c.Owns row.indexId → (firstClaim c p now locked ledger).ledger.row id = some row := by
  unfold firstClaim
  cases hdialect : c.dialect with
  | postgres =>
    have hall := hown hdialect
    refine ⟨?_, moves_claimRows _ _ _ _, ?_⟩
    · intro statement hstatement
      obtain ⟨row, hrow, -⟩ := mem_map.mp hstatement
      rw [mem_filter, decide_eq_true_eq] at hrow
      exact absurd (hall row hrow.1) hrow.2
    · intro id row hrow hforeign
      refine (row_claimRows_of_not_mem (fun hid => hforeign ?_) ledger).trans hrow
      obtain ⟨selected, hselected, rfl⟩ := mem_map.mp hid
      obtain rfl : selected = row := some.inj ((mem_selectSealed hselected).1.symm.trans hrow)
      exact hall selected hselected
  | sqlite =>
    refine ⟨?_, Ledger.Moves.refl ledger, fun id row hrow _ => hrow⟩
    intro statement hstatement
    obtain ⟨row, hrow, rfl⟩ := mem_map.mp hstatement
    rw [mem_filter, decide_eq_true_eq] at hrow
    exact ⟨row, rfl, hrow.2, (mem_selectSealed hrow.1).1⟩

theorem OwnPending.step {s s' : ShardState} {a : ShardAction} (h : OwnPending cfg s) (hsafe : ShardSafe cfg s a)
    (hstep : shardStep cfg s a = some s') :
    OwnPending cfg s' ∧ ∀ id row, s.ledger.row id = some row → ¬ (cfg a.worker).Owns row.indexId →
      s'.ledger.row id = some row := by
  cases a with
  | claim p now locked =>
    obtain ⟨-, rfl⟩ := Option.ite_some_none_eq_some.mp hstep
    obtain ⟨hpending, hmoves, hforeign⟩ := firstClaim_own (p := p) hsafe
    refine ⟨h.update hmoves ?_, hforeign⟩
    intro statement hstatement
    obtain ⟨row, hclaim, howns, hrow⟩ := hpending statement hstatement
    exact ⟨row, row, hclaim, howns, hrow, rfl⟩
  | next p now =>
    unfold shardStep at hstep
    dsimp only at hstep
    split at hstep
    · cases hstep
    · next statement rest hpending =>
      have hmine : ∀ other ∈ statement :: rest, ∃ row current, other = .claim row ∧ (cfg p).Owns row.indexId ∧
          s.ledger.row row.id = some current ∧ current.indexId = row.indexId :=
        fun other hother => h p other (hpending ▸ hother)
      obtain ⟨row, current, rfl, howns, hrow, hindex⟩ := hmine statement mem_cons_self
      cases hstep
      unfold RowStatement.run
      dsimp only
      split
      · refine ⟨h.update (moves_claimRows _ _ _ _) fun other hother => hmine other (mem_cons_of_mem _ hother), ?_⟩
        intro id other hother hforeign
        refine (row_claimRows_of_not_mem (fun hid => hforeign ?_) s.ledger).trans hother
        rw [mem_singleton] at hid
        rw [hid, hrow, some.injEq] at hother
        rw [← hother, hindex]
        exact howns
      · exact ⟨h.update (Ledger.Moves.refl _) fun other hother => hmine other (mem_cons_of_mem _ hother),
          fun id other hother _ => hother⟩

/-- At any point of a run whose claims take rows of their own shards only, a sealed row stays as it is, with its attempts and
its backoff, through any further steps of drains of other shards. -/
theorem foreign_rows_untouched {ledger : Ledger} {before after : List ShardAction} {s s' : ShardState}
    (hsafe : Meets (shardStep cfg) (ShardSafe cfg) (.start ledger) before)
    (hrun : run (shardStep cfg) (.start ledger) before = some s) (hsafe' : Meets (shardStep cfg) (ShardSafe cfg) s after)
    (hrun' : run (shardStep cfg) s after = some s') {id : Text} {row : Row} (hrow : s.ledger.row id = some row)
    (hforeign : ∀ a ∈ after, ¬ (cfg a.worker).Owns row.indexId) : s'.ledger.row id = some row := by
  have hstart : OwnPending cfg s :=
    Transition.invariant_run (fun _ _ _ h hsafe hstep => (h.step hsafe hstep).1) (ownPending_start ledger) hsafe hrun
  clear hrun hsafe
  induction after generalizing s with
  | nil =>
    rw [run, some.injEq] at hrun'
    rwa [← hrun']
  | cons a after ih =>
    obtain ⟨s₁, hs₁, hrest⟩ := bind_eq_some_iff.mp hrun'
    obtain ⟨hown, hstays⟩ := hstart.step hsafe'.1 hs₁
    exact ih (hsafe'.2 s₁ hs₁) hrest (hstays id row hrow (hforeign a mem_cons_self))
      (fun b hb => hforeign b (mem_cons_of_mem _ hb)) hown

/-- Two shards on one database; drain `0` is of the first shard, and every other drain of the second. -/
def twoShards (dialect : Dialect) (p : Text) : ShardConfig := ⟨dialect, 8, if p = "0".toList then 0 else 1, 2⟩

def secondShardOnly : Ledger := register "x".toList "default".toList "b".toList [] 1 1 0 KeyedTable.empty

/-- The first shard claims again and again, each time after the backoff of the last. -/
def foreignClaims (claims : Nat) (next : Bool) : List ShardAction :=
  (List.range claims).flatMap fun i =>
    .claim "0".toList (1000000 * i) (fun _ => false) :: if next then [.next "0".toList (1000000 * i)] else []

/-- The status, the attempts and the backoff of a segment. -/
def shardAccount (s : ShardState) (id : Text) : Option (Status × Nat × Option Int) :=
  (s.ledger.row id).map fun row => (row.status, row.attempts, row.notBefore)

/-- On the database that lists first, the claims of the first shard leave the segment as it was registered. -/
theorem listed_foreign_segment_untouched :
    ∃ s, run (shardStep (twoShards .sqlite)) (.start secondShardOnly) (foreignClaims 12 false) = some s ∧
      s.ledger.row "x".toList = some (newRow "x".toList "default".toList "b".toList [] 1 1 0) := by
  have hrun : (run (shardStep (twoShards .sqlite)) (.start secondShardOnly) (foreignClaims 12 false)).isSome = true := by
    decide +kernel
  obtain ⟨s, hs⟩ := isSome_iff_exists.mp hrun
  have hsafe : Meets (shardStep (twoShards .sqlite)) (ShardSafe (twoShards .sqlite)) (.start secondShardOnly) [] := trivial
  exact ⟨s, hs, foreign_rows_untouched hsafe rfl (by decide +kernel) hs (by decide +kernel) (by decide +kernel)⟩

/-- On the other database, twelve claims of the first shard set the segment aside, and one is enough to delay it; no drain of
its own shard ever tried it. -/
theorem foreign_claims_set_segment_aside :
    (∃ s, run (shardStep (twoShards .postgres)) (.start secondShardOnly) (foreignClaims 1 true) = some s ∧
      shardAccount s "x".toList = some (.sealed, 1, some 1000)) ∧
    (∃ s, run (shardStep (twoShards .postgres)) (.start secondShardOnly) (foreignClaims 12 true) = some s ∧
      shardAccount s "x".toList = some (.quarantined, 12, some 11300000)) := by
  constructor
  · apply map_eq_some_iff.mp
    decide +kernel
  · apply map_eq_some_iff.mp
    decide +kernel

end LogLake.Catalog
