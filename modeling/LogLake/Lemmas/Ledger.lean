import LogLake.Catalog.Proof

/-! # What the statements of the ledger keep -/

namespace LogLake.Catalog

open Option KeyedTable List

/-- What every statement keeps of every row. -/
def Ledger.Moves (before after : Ledger) : Prop :=
  ∀ id row, before.row id = some row → ∃ row', after.row id = some row' ∧ row'.tenant = row.tenant ∧
    row'.indexId = row.indexId ∧ row'.registeredAt = row.registeredAt ∧ (row.status = .committed → row'.status = .committed)

theorem Ledger.Moves.refl (ledger : Ledger) : Ledger.Moves ledger ledger :=
  fun _ row hrow => ⟨row, hrow, rfl, rfl, rfl, id⟩

theorem Ledger.moves_update (ledger : Ledger) {p : Row → Prop} [DecidablePred p] {set : Row → Row}
    {hkey : ∀ row, (set row).id = row.id} (hp : ∀ row, p row → row.status ≠ .committed)
    (htarget : ∀ row, (set row).tenant = row.tenant ∧ (set row).indexId = row.indexId ∧
      (set row).registeredAt = row.registeredAt) : Ledger.Moves ledger (ledger.update p set hkey) := by
  intro id row hrow
  refine ⟨_, by rw [row_update, hrow, map_some], ?_⟩
  obtain ⟨htenant, hindex, hregistered⟩ := htarget row
  split
  · next h => exact ⟨htenant, hindex, hregistered, fun hcommitted => absurd hcommitted (hp row h)⟩
  · exact ⟨rfl, rfl, rfl, fun hcommitted => hcommitted⟩

section Statements

variable (ledger : Ledger)

theorem moves_register (id tenant indexId segmentUrl : Text) (bytes rows now : Int) :
    Ledger.Moves ledger (register id tenant indexId segmentUrl bytes rows now ledger) := by
  intro id' row hrow
  refine ⟨row, ?_, rfl, rfl, rfl, fun h => h⟩
  unfold register
  rw [row_insertNew, hrow, getD_some, ite_self]

variable (claimer : Text) (now : Int) (ids : List Text)

theorem moves_claimRows : Ledger.Moves ledger (claimRows claimer now ids ledger) :=
  ledger.moves_update (fun row h => by rw [h.2]; decide) fun _ => ⟨rfl, rfl, rfl⟩

theorem Row.ClaimedBy.ne_committed {claimer : Text} {row : Row} (h : row.ClaimedBy claimer) : row.status ≠ .committed := by
  rw [h.1]
  decide

theorem moves_releaseWithBackoff (maxAttempts : Nat) (id : Text) :
    Ledger.Moves ledger (releaseWithBackoff claimer now maxAttempts id ledger) :=
  ledger.moves_update (fun _ h => h.2.ne_committed) fun _ => ⟨rfl, rfl, rfl⟩

theorem moves_quarantineTerminal (claimer id : Text) : Ledger.Moves ledger (quarantineTerminal claimer id ledger) :=
  ledger.moves_update (fun _ h => h.2.ne_committed) fun _ => ⟨rfl, rfl, rfl⟩

theorem moves_requeueQuarantined : Ledger.Moves ledger (requeueQuarantined ledger) :=
  ledger.moves_update (fun row h => by rw [h]; decide) fun _ => ⟨rfl, rfl, rfl⟩

theorem moves_requeueClaim (id : Text) : Ledger.Moves ledger (requeueClaim id ledger) :=
  ledger.moves_update (fun row h => by rw [h.2]; decide) fun _ => ⟨rfl, rfl, rfl⟩

end Statements

theorem watermarkCandidate_lt {tenant indexId : Text} {ledger : Ledger} {boundary : Int}
    (h : watermarkCandidate tenant indexId ledger = some boundary) {row : Row} (hrow : row ∈ ledger.rows)
    (htenant : row.tenant = tenant) (hindex : row.indexId = indexId) (hstatus : row.status ≠ .committed) :
    boundary < row.registeredAt := by
  unfold watermarkCandidate at h
  dsimp only at h
  have hmem : row.registeredAt ∈ ((ledger.rows.filter fun row => row.tenant = tenant ∧ row.indexId = indexId).filter
      fun row => row.status ≠ .committed).map Row.registeredAt := by
    refine mem_map.mpr ⟨row, ?_, rfl⟩
    simp [hrow, htenant, hindex, hstatus]
  obtain ⟨oldest, holdest⟩ : ∃ oldest, (((ledger.rows.filter fun row => row.tenant = tenant ∧ row.indexId = indexId).filter
      fun row => row.status ≠ .committed).map Row.registeredAt).min? = some oldest := by
    rw [← isSome_iff_exists, isSome_min?_iff]
    exact ne_nil_of_mem hmem
  have hle : oldest ≤ row.registeredAt := (min?_eq_some_iff.mp holdest).2 _ hmem
  rw [holdest] at h
  have hboundary : oldest - 1 = boundary := some.inj h
  omega

/-- Whatever row was read, the boundary stays or becomes the candidate. -/
theorem advanceWatermark_eq_some {verified : Option Text} {candidate : Option Int}
    {current stored : Option ConsumedProofWatermark} {watermark : ConsumedProofWatermark}
    (h : advanceWatermark verified candidate current stored = some watermark) :
    stored = some watermark ∨ candidate = some watermark.acknowledgedThrough := by
  unfold advanceWatermark at h
  split at h
  · exact .inl h
  · split at h
    · split at h
      · obtain ⟨w, hw, hnew⟩ := map_eq_some_iff.mp h
        split at hnew
        · exact .inr (by rw [← hnew])
        · exact .inl (by rw [hw, hnew])
      · exact .inl h
    · obtain ⟨w, -, hnew⟩ := map_eq_some_iff.mp h
      exact .inr (by rw [← hnew])
  · exact .inr (by rw [← some.inj h])

/-! ## The consumed proof -/

namespace ConsumedProof

variable {proof : ConsumedProof}

theorem contains_iff {segmentId : Text} :
    proof.contains segmentId = true ↔ ∃ entry ∈ proof.entries.rows, entry.segmentId = segmentId := by
  unfold contains
  rw [isSome_iff_exists]
  exact exists_congr fun entry => row_eq_some

theorem acknowledgedThrough_compactThrough {through a : Int}
    (h : (proof.compactThrough through).acknowledgedThrough = some a) : proof.acknowledgedThrough = some a ∨ through = a := by
  unfold compactThrough at h
  cases hold : proof.acknowledgedThrough with
  | none =>
    rw [hold] at h
    exact .inr (some.inj h)
  | some current =>
    rw [hold] at h
    have hmax : max current through = a := some.inj h
    rcases max_choice current through with hcurrent | hthrough
    · exact .inl (by rw [← hmax, hcurrent])
    · exact .inr (by rw [← hmax, hthrough])

variable {entry : ConsumedProofEntry}

theorem mem_compactThrough {through : Int} : entry ∈ (proof.compactThrough through).entries.rows ↔
      entry ∈ proof.entries.rows ∧ ∀ a ∈ (proof.compactThrough through).acknowledgedThrough, a < entry.claimedAt := by
  simp [compactThrough, retain]

theorem mem_pruneTerminalEntries {terminal : List Text} : entry ∈ (proof.pruneTerminalEntries terminal).entries.rows ↔
      entry ∈ proof.entries.rows ∧ entry.segmentId ∉ terminal := by
  simp [pruneTerminalEntries, retain]

variable {proof' : ConsumedProof}

section

variable (h : proof.insert entry = .ok proof')
include h

theorem mem_of_insert {e : ConsumedProofEntry} (he : e ∈ proof'.entries.rows) : e ∈ proof.entries.rows ∨ e = entry := by
  unfold insert at h
  split at h
  · cases h
  · obtain rfl := Except.ok.inj h
    have hrow := row_eq_some.mpr ⟨he, rfl⟩
    rw [row_insertNew, row_update] at hrow
    cases hold : proof.entries.row e.segmentId with
    | none =>
      rw [hold] at hrow
      split at hrow
      · exact .inr (some.inj hrow).symm
      · cases hrow
    | some old =>
      obtain ⟨hmem, hname⟩ := row_eq_some.mp hold
      rw [hold] at hrow
      simp only [map_some, getD_some, ite_self, some.injEq] at hrow
      split at hrow
      · next hsame =>
        -- The earliest of the two times is kept.
        rcases min_choice old.claimedAt entry.claimedAt with hmin | hmin
        · left
          rw [← hrow, hmin]
          exact hmem
        · right
          rw [← hrow, hmin, hsame]
      · exact .inl (hrow ▸ hmem)

theorem contains_of_insert {segmentId : Text} (hold : proof.contains segmentId = true ∨ segmentId = entry.segmentId) :
    proof'.contains segmentId = true := by
  unfold insert at h
  split at h
  · cases h
  · obtain rfl := Except.ok.inj h
    unfold contains at hold ⊢
    rw [row_insertNew, row_update]
    split
    · rfl
    · next hne =>
      rcases hold with hold | rfl
      · simpa using hold
      · exact absurd rfl hne

theorem acknowledgedThrough_insert : proof'.acknowledgedThrough = proof.acknowledgedThrough := by
  unfold insert at h
  split at h
  · cases h
  · rw [← Except.ok.inj h]

end

theorem foldlM_insert {additions : List ConsumedProofEntry} (h : additions.foldlM insert proof = .ok proof') :
    (∀ e ∈ proof'.entries.rows, e ∈ proof.entries.rows ∨ e ∈ additions) ∧
    (∀ segmentId, proof.contains segmentId = true ∨ (∃ e ∈ additions, e.segmentId = segmentId) →
      proof'.contains segmentId = true) ∧ proof'.acknowledgedThrough = proof.acknowledgedThrough := by
  induction additions generalizing proof with
  | nil =>
    obtain rfl : proof = proof' := Except.ok.inj h
    simp
  | cons addition additions ih =>
    rw [foldlM_cons] at h
    cases hinsert : proof.insert addition with
    | error e =>
      rw [hinsert] at h
      cases h
    | ok next =>
      rw [hinsert] at h
      obtain ⟨hmem, hcontains, hack⟩ := ih h
      refine ⟨?_, ?_, hack.trans (acknowledgedThrough_insert hinsert)⟩
      · intro e he
        rcases hmem e he with hnext | haddition
        · rcases mem_of_insert hinsert hnext with hold | rfl
          · exact .inl hold
          · exact .inr mem_cons_self
        · exact .inr (mem_cons_of_mem _ haddition)
      · intro segmentId hold
        apply hcontains
        rcases hold with hold | ⟨e, he, rfl⟩
        · exact .inl (contains_of_insert hinsert (.inl hold))
        · rcases mem_cons.mp he with rfl | he
          · exact .inl (contains_of_insert hinsert (.inr rfl))
          · exact .inr ⟨e, he, rfl⟩

end ConsumedProof

end LogLake.Catalog
