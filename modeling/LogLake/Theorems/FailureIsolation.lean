import LogLake.Lemmas.Cycle
import LogLake.Lemmas.ShardClaims

/-! # Attempts are charged for one's own failures -/

namespace LogLake.Catalog

open Option KeyedTable

open Transition (run Meets)

variable {β : Type}

/-! ## One cycle -/

/-- What a step may do to a row: nothing to its account, or one attempt more for a reason. -/
def Row.ChargedFor (reason : Prop) (row row' : Row) : Prop :=
  row'.tenant = row.tenant ∧ row'.indexId = row.indexId ∧
    (row'.attempts ≤ row.attempts ∧ (row'.status = .quarantined → row.status = .quarantined) ∨
      row'.attempts ≤ row.attempts + 1 ∧ reason)

theorem Row.Returned.chargedFor {row row' : Row} (h : row.Returned row') {reason : Prop} (hreason : reason) :
    row.ChargedFor reason row' :=
  ⟨h.1, h.2.1, Or.inr ⟨h.2.2.1.le, hreason⟩⟩

theorem Row.ChargedFor.rfl' {reason : Prop} (row : Row) : row.ChargedFor reason row :=
  ⟨rfl, rfl, Or.inl ⟨le_refl _, fun h => h⟩⟩

theorem drainClaimed_chargedFor {before : Ledger} {claimer : Text} {w : Outside β} {claimed : List ClaimedSegment}
    (hnodup : (claimed.map ClaimedSegment.id).Nodup)
    (hclaimed : ∀ c ∈ claimed, ∃ row, before.row c.id = some row ∧ row.ClaimedBy claimer)
    (hlast : BreaksLast w (byGroup claimed)) {id : Text} {row' : Row}
    (hrow' : (drainClaimed w claimer before claimed).state.ledger.row id = some row') :
    ∃ row, before.row id = some row ∧ row.ChargedFor
      (∃ c ∈ claimed, c.id = id ∧ Blamed (drainClaimed w claimer before claimed).state.failures c) row' := by
  rcases drainClaimed_account (w := w) hnodup hclaimed rfl with
    ⟨-, s, hprogress, -, hblamed, hledger, -, hfailures⟩ | ⟨-, hprogress, hblamed, -⟩
  · rw [hledger] at hrow'
    rw [hfailures]
    by_cases hreleased : id ∈ s.releasedIds
    · obtain ⟨c, hc, rfl⟩ := hprogress.released id hreleased
      obtain ⟨row, hrow, -⟩ := hclaimed c hc
      obtain ⟨row'', hrow'', hreturned⟩ := hprogress.row_markAll_of_released w claimer hreleased hrow
      obtain rfl : row'' = row' := some.inj (hrow''.symm.trans hrow')
      exact ⟨row, hrow, hreturned.chargedFor ⟨c, hc, rfl, hblamed hlast c hc hreleased⟩⟩
    · by_cases hcommitted : id ∈ s.committedIds
      · obtain ⟨c, hc, rfl⟩ := hprogress.committed id hcommitted
        obtain ⟨row, hrow, hclaimedBy⟩ := hclaimed c hc
        obtain ⟨t, hrow''⟩ := hprogress.row_markAll_of_committed w hcommitted hrow hclaimedBy
        obtain rfl := some.inj (hrow''.symm.trans hrow')
        exact ⟨row, hrow, rfl, rfl, Or.inl ⟨le_refl _, by simp⟩⟩
      · rw [hprogress.row_markAll_of_unsettled w claimer hreleased hcommitted] at hrow'
        exact ⟨row', hrow', Row.ChargedFor.rfl' row'⟩
  · by_cases hreleased : id ∈ (drainClaimed w claimer before claimed).state.releasedIds
    · obtain ⟨c, hc, rfl⟩ := hprogress.released id hreleased
      obtain ⟨row, hrow, -⟩ := hclaimed c hc
      obtain ⟨row'', hrow'', hreturned⟩ := hprogress.returned _ hreleased row hrow
      obtain rfl : row'' = row' := some.inj (hrow''.symm.trans hrow')
      exact ⟨row, hrow, hreturned.chargedFor ⟨c, hc, rfl, hblamed c hc hreleased⟩⟩
    · rw [hprogress.kept id hreleased] at hrow'
      exact ⟨row', hrow', Row.ChargedFor.rfl' row'⟩

variable {s : CyclesState}

theorem runOnceCatalog_chargedFor {cfg : ShardConfig} {claimer : Text} {now : Int} {at' : Nat → Int} {locked : Text → Bool}
    {w : Outside β} (hsafe : CycleSafe s (.cycle cfg claimer now at' locked w)) {id : Text} {row' : Row}
    (hrow' : (runOnceCatalog cfg claimer now at' locked w s.ledger).state.ledger.row id = some row') :
    ∃ row, s.ledger.row id = some row ∧ row.ChargedFor
      (∃ f ∈ (runOnceCatalog cfg claimer now at' locked w s.ledger).state.failures, f.Concerns row') row' := by
  obtain ⟨hown, hlast⟩ := hsafe
  have hclaims := claims_tryClaimSharded claimer at' hown
  unfold runOnceCatalog at hrow' ⊢
  generalize tryClaimSharded cfg claimer now at' locked s.ledger = claim at *
  obtain ⟨ledger, claimed⟩ := claim
  dsimp only at hclaims hlast hrow' ⊢
  have hclaimed : ∀ c ∈ claimed, ∃ row, ledger.row c.id = some row ∧ row.ClaimedBy claimer := by
    intro c hc
    obtain ⟨row, t, -, -, -, hafter⟩ := hclaims.taken c hc
    exact ⟨_, hafter, rfl, rfl⟩
  obtain ⟨row₁, hrow₁, htenant, hindex, hcharged⟩ := drainClaimed_chargedFor hclaims.nodup hclaimed hlast hrow'
  have hid : row'.id = id := key_of_row hrow'
  by_cases hin : ∃ c ∈ claimed, c.id = id
  · obtain ⟨c, hc, rfl⟩ := hin
    obtain ⟨row, t, hbefore, _, hc', hafter⟩ := hclaims.taken c hc
    obtain rfl : row.claim claimer t = row₁ := some.inj (hafter.symm.trans hrow₁)
    refine ⟨row, hbefore, htenant, hindex, ?_⟩
    rcases hcharged with ⟨hattempts, hstatus⟩ | ⟨hattempts, d, hd, hsame, f, hf, hfd⟩
    · exact .inl ⟨hattempts, fun h => by simpa [Row.claim] using hstatus h⟩
    · obtain rfl : d = c := List.inj_on_of_nodup_map hclaims.nodup hd hc hsame
      refine .inr ⟨hattempts, f, hf, ?_⟩
      rcases hfd with rfl | rfl
      · exact .inl (by rw [hid])
      · refine .inr ?_
        rw [hc', htenant, hindex]
        rfl
  · rw [hclaims.kept id fun c hc hsame => hin ⟨c, hc, hsame⟩] at hrow₁
    refine ⟨row₁, hrow₁, htenant, hindex, ?_⟩
    rcases hcharged with hfree | ⟨-, c, hc, hsame, -⟩
    · exact .inl hfree
    · exact absurd ⟨c, hc, hsame⟩ hin

/-! ## Statements that charge nobody -/

/-- Every row after comes from a row before, and none is charged. -/
def Ledger.Uncharged (before after : Ledger) : Prop :=
  ∀ id row', after.row id = some row' → ∃ row, before.row id = some row ∧ row.ChargedFor False row'

theorem Row.ChargedFor.trans {row row₁ row₂ : Row} (h : row.ChargedFor False row₁) (h' : row₁.ChargedFor False row₂) :
    row.ChargedFor False row₂ := by
  obtain ⟨htenant, hindex, hcharged⟩ := h
  obtain ⟨htenant', hindex', hcharged'⟩ := h'
  simp only [and_false, or_false] at hcharged hcharged'
  refine ⟨htenant'.trans htenant, hindex'.trans hindex, Or.inl ⟨hcharged'.1.trans hcharged.1, fun hq => ?_⟩⟩
  exact hcharged.2 (hcharged'.2 hq)

theorem Ledger.Uncharged.trans {a b c : Ledger} (h : Ledger.Uncharged a b) (h' : Ledger.Uncharged b c) :
    Ledger.Uncharged a c := by
  intro id row' hrow'
  obtain ⟨row₁, hrow₁, hcharged'⟩ := h' id row' hrow'
  obtain ⟨row, hrow, hcharged⟩ := h id row₁ hrow₁
  exact ⟨row, hrow, hcharged.trans hcharged'⟩

variable (ledger : Ledger)

theorem Ledger.uncharged_update {p : Row → Prop} [DecidablePred p] {set : Row → Row}
    {hkey : ∀ row, (set row).id = row.id} (hset : ∀ row, p row → row.ChargedFor False (set row)) :
    Ledger.Uncharged ledger (ledger.update p set hkey) := by
  intro id row' hrow'
  rcases row_update_eq_some hrow' with hold | ⟨row, hrow, hp, rfl⟩
  · exact ⟨row', hold, Row.ChargedFor.rfl' row'⟩
  · exact ⟨row, hrow, hset row hp⟩

theorem uncharged_reclaim (now : Int) (proven requeue : List Text) (ledger : Ledger) :
    Ledger.Uncharged ledger (requeue.foldl (fun ledger id => requeueClaim id ledger) (markReclaimed now proven ledger)) := by
  have hmark : Ledger.Uncharged ledger (markReclaimed now proven ledger) :=
    ledger.uncharged_update fun row _ => ⟨rfl, rfl, Or.inl ⟨le_refl _, by simp⟩⟩
  refine hmark.trans ?_
  generalize markReclaimed now proven ledger = marked
  induction requeue generalizing marked with
  | nil => exact fun id row' hrow' => ⟨row', hrow', Row.ChargedFor.rfl' row'⟩
  | cons id requeue ih =>
    have hqueued : Ledger.Uncharged marked (requeueClaim id marked) :=
      marked.uncharged_update fun row _ => ⟨rfl, rfl, Or.inl ⟨le_refl _, by simp⟩⟩
    exact hqueued.trans (ih _)

theorem uncharged_requeueQuarantined : Ledger.Uncharged ledger (requeueQuarantined ledger) :=
  ledger.uncharged_update fun row _ => ⟨rfl, rfl, Or.inl ⟨Nat.zero_le _, by simp⟩⟩

/-! ## Runs -/

theorem failedCycles_congr (history : List (List Failure)) {row row' : Row} (hid : row'.id = row.id)
    (htenant : row'.tenant = row.tenant) (hindex : row'.indexId = row.indexId) :
    failedCycles history row' = failedCycles history row := by
  have hsame : ∀ f : Failure, f.Concerns row' ↔ f.Concerns row := by
    intro f
    unfold Failure.Concerns
    rw [hid, htenant, hindex]
  simp only [failedCycles, hsame]

theorem failedCycles_append (history : List (List Failure)) (failures : List Failure) (row : Row) :
    failedCycles (history ++ [failures]) row =
      failedCycles history row + if ∃ f ∈ failures, f.Concerns row then 1 else 0 := by
  unfold failedCycles
  rw [List.countP_append, List.countP_singleton]
  simp

theorem isolates_start : CyclesState.Isolates ⟨ledger, []⟩ ledger := by
  intro id row hrow
  change ledger.row id = some row at hrow
  rw [hrow]
  exact ⟨Nat.le_add_right _ _, fun hq => .inl ⟨row, rfl, hq⟩⟩

variable {start : Ledger}

theorem CyclesState.Isolates.row (h : s.Isolates start) {failures : List Failure}
    {id : Text} {row row' : Row} (hrow : s.ledger.row id = some row) (hid : row'.id = id)
    (hcharged : row.ChargedFor (∃ f ∈ failures, f.Concerns row') row') :
    row'.attempts ≤ ((start.row id).elim 0 Row.attempts) + failedCycles (s.history ++ [failures]) row' ∧
      (row'.status = .quarantined → (∃ old, start.row id = some old ∧ old.status = .quarantined) ∨
        0 < failedCycles (s.history ++ [failures]) row') := by
  obtain ⟨hattempts, hquarantined⟩ := h id row hrow
  obtain ⟨htenant, hindex, hcases⟩ := hcharged
  rw [← failedCycles_congr s.history (hid.trans (key_of_row hrow).symm) htenant hindex] at hattempts hquarantined
  rw [failedCycles_append]
  rcases hcases with ⟨hle, hstatus⟩ | ⟨hle, hreason⟩
  · refine ⟨by omega, fun hq => (hquarantined (hstatus hq)).imp_right fun hpos => by omega⟩
  · rw [if_pos hreason]
    exact ⟨by omega, fun _ => .inr (by omega)⟩

theorem CyclesState.Isolates.uncharged {start after : Ledger} (h : s.Isolates start)
    (hafter : Ledger.Uncharged s.ledger after) : CyclesState.Isolates { s with ledger := after } start := by
  intro id row' hrow'
  obtain ⟨row, hrow, hcharged⟩ := hafter id row' hrow'
  have hnone : row.ChargedFor (∃ f ∈ ([] : List Failure), f.Concerns row') row' := by
    simpa [Row.ChargedFor] using hcharged
  have hlater := h.row hrow (key_of_row hrow') hnone
  rw [failedCycles_append] at hlater
  simpa using hlater

theorem CyclesState.Isolates.register (h : s.Isolates start) (id tenant indexId segmentUrl : Text) (bytes rows now : Int) :
    CyclesState.Isolates { s with ledger := register id tenant indexId segmentUrl bytes rows now s.ledger } start := by
  intro id' row' hrow'
  change (Catalog.register id tenant indexId segmentUrl bytes rows now s.ledger).row id' = some row' at hrow'
  unfold Catalog.register at hrow'
  rw [row_insertNew] at hrow'
  split at hrow'
  · cases hold : s.ledger.row id' with
    | none =>
      rw [hold, getD_none, some.injEq] at hrow'
      rw [← hrow']
      exact ⟨Nat.zero_le _, fun hq => by simp [newRow] at hq⟩
    | some old =>
      rw [hold, getD_some, some.injEq] at hrow'
      exact h id' row' (hrow' ▸ hold)
  · exact h id' row' hrow'

theorem CyclesState.Isolates.step {s s' : CyclesState} {a : CyclesAction β} (h : s.Isolates start)
    (hsafe : CycleSafe s a) (hstep : cyclesStep s a = some s') : s'.Isolates start := by
  cases a with
  | register id tenant indexId segmentUrl bytes rows now =>
    cases hstep
    exact h.register id tenant indexId segmentUrl bytes rows now
  | cycle cfg claimer now at' locked w =>
    cases hstep
    intro id row' hrow'
    obtain ⟨row, hrow, hcharged⟩ := runOnceCatalog_chargedFor hsafe hrow'
    exact h.row hrow (key_of_row hrow') hcharged
  | reclaim now proven requeue =>
    cases hstep
    exact h.uncharged (uncharged_reclaim now proven requeue s.ledger)
  | requeueQuarantined =>
    cases hstep
    exact h.uncharged (uncharged_requeueQuarantined s.ledger)

/-- In every sequence of cycles that meet the condition, a row is charged at most once for every cycle in which an operation
on its segment or its group failed, and is set aside only if there was such a cycle. -/
theorem attempts_charged_for_own_failures {ledger : Ledger} {actions : List (CyclesAction β)} {s : CyclesState}
    (hsafe : Meets cyclesStep CycleSafe ⟨ledger, []⟩ actions) (hrun : run cyclesStep ⟨ledger, []⟩ actions = some s) :
    s.Isolates ledger := by
  have hstart : CyclesState.Isolates ⟨ledger, []⟩ ledger := isolates_start ledger
  exact Transition.invariant_run (I := fun s => s.Isolates ledger) (fun _ _ _ h hsafe hstep => h.step hsafe hstep) hstart
    hsafe hrun

/-- Two indexes, `a` and `b`, with one segment each; the commit of one of them fails. -/
def failingCycles (failing : Text) (cycles : Nat) : List (CyclesAction Nat) :=
  [.register "x".toList "default".toList "a".toList [] 1 1 0, .register "y".toList "default".toList "b".toList [] 1 1 0] ++
    (List.range cycles).map fun (i : Nat) => .cycle ⟨.postgres, 256, 0, 1⟩ "d".toList (1000000 * i) (fun _ => 1000000 * i)
      (fun _ => false)
      { opensNamespace := fun _ => true
        resolvesIndex := fun _ _ => true
        claimsMirroredIndex := fun _ _ => some .unidentified
        object := fun _ => some ⟨none, some [1]⟩
        readsWatermark := fun _ _ => some none
        readsTerminal := fun _ _ => some []
        appends := fun r => r.indexId ≠ failing
        releasedAt := fun _ => 1000000 * i
        markedAt := fun _ => 1000000 * i }

/-- The status, the attempts and the failed cycles of a segment. -/
def accountOf (s : CyclesState) (id : Text) : Option (Status × Nat × Nat) :=
  (s.ledger.row id).map fun row => (row.status, row.attempts, failedCycles s.history row)

/-- The index that sorts last fails: its segment is set aside after twelve cycles, the other one is committed. -/
theorem last_failing_group_charged_alone :
    ∃ s, run cyclesStep ⟨empty, []⟩ (failingCycles "b".toList 12) = some s ∧
      accountOf s "x".toList = some (.committed, 0, 0) ∧ accountOf s "y".toList = some (.quarantined, 12, 12) ∧
      s.Isolates empty := by
  have hrun : (run cyclesStep ⟨empty, []⟩ (failingCycles "b".toList 12)).map
      (fun s => (accountOf s "x".toList, accountOf s "y".toList)) =
        some (some (.committed, 0, 0), some (.quarantined, 12, 12)) := by
    decide +kernel
  obtain ⟨s, hs, haccounts⟩ := map_eq_some_iff.mp hrun
  rw [Prod.mk.injEq] at haccounts
  exact ⟨s, hs, haccounts.1, haccounts.2, attempts_charged_for_own_failures (by decide +kernel) hs⟩

/-- The index that sorts first fails: after twelve cycles the segment of the other one is set aside too, though nothing of
its own ever failed. -/
theorem healthy_segment_set_aside :
    ∃ s, run cyclesStep ⟨empty, []⟩ (failingCycles "a".toList 12) = some s ∧
      (accountOf s "x".toList, accountOf s "y".toList) = (some (.quarantined, 12, 12), some (.quarantined, 12, 0)) := by
  apply map_eq_some_iff.mp
  decide +kernel

end LogLake.Catalog
