import LogLake.Jobs.Executor

/-! # What a statement does to a job -/

namespace LogLake.Jobs

open KeyedTable

variable {ρ κ : Type}

/-! ## Rows -/

/-- What happens to a row: a terminal one keeps its status and its result, success comes with a computed result, and recovery
needs the owner to be gone. -/
structure RowAdvances (computed : Nat → ρ → Prop) (gone : JobRow ρ κ → Prop) (row row' : JobRow ρ κ) : Prop where
  owner : row'.owner = row.owner
  terminal : row.status.isTerminal = true → row'.status = row.status ∧ row'.result = row.result
  succeeded : row'.status = .succeeded → row.status = .succeeded ∨ ∃ result, row'.result = some result ∧ computed row.id result
  recovered : row'.recovered = row.recovered ∨ gone row

variable {computed : Nat → ρ → Prop} {gone : JobRow ρ κ → Prop}

theorem RowAdvances.refl (row : JobRow ρ κ) : RowAdvances computed gone row row :=
  ⟨rfl, fun _ => ⟨rfl, rfl⟩, fun h => .inl h, .inl rfl⟩

/-- The statement does what its writer may do: success with a computed result, and failure or timeout otherwise. -/
def Statement.Sound (computed : Nat → ρ → Prop) : Statement ρ κ → Prop
  | .succeed id result _ => computed id result
  | .fail _ status _ _ => status = .failed ∨ status = .timeout
  | _ => True

/-- A recovery statement hits only rows whose owner is gone. -/
def JobTables.SpareOwners (policy : JobRecoveryPolicy) (gone : JobRow ρ κ → Prop) (t : JobTables ρ κ)
    (statement : Statement ρ κ) : Prop :=
  ∀ reason ids, statement = .recover reason ids → ∀ row ∈ t.jobs.rows, t.Hits policy statement row → gone row

theorem RowAdvances.ofOpen {row row' : JobRow ρ κ} (hopen : row.Open) (howner : row'.owner = row.owner)
    (hsucceeded : row'.status = .succeeded → ∃ result, row'.result = some result ∧ computed row.id result)
    (hrecovered : row'.recovered = row.recovered ∨ gone row) : RowAdvances computed gone row row' where
  owner := howner
  terminal := fun hterminal => by
    rw [JobRow.Open, hterminal] at hopen
    cases hopen
  succeeded := fun h => .inr (hsucceeded h)
  recovered := hrecovered

variable {policy : JobRecoveryPolicy} {statement : Statement ρ κ}

theorem set_rowAdvances {t : JobTables ρ κ} {row : JobRow ρ κ}
    (hsound : statement.Sound computed) (hspare : t.SpareOwners policy gone statement) (hrow : row ∈ t.jobs.rows)
    (hhits : t.Hits policy statement row) : RowAdvances computed gone row (t.set policy statement row) := by
  cases statement with
  | setRunning id | cancel id expiresAt => exact .ofOpen hhits.2 rfl (fun h => by cases h) (.inl rfl)
  | recordCost id cost =>
    refine .ofOpen hhits.2 rfl (fun h => ?_) (.inl rfl)
    have hopen := hhits.2
    change row.status = .succeeded at h
    rw [JobRow.Open, h] at hopen
    cases hopen
  | succeed id result expiresAt => exact .ofOpen hhits.2 rfl (fun _ => ⟨result, rfl, hhits.1 ▸ hsound⟩) (.inl rfl)
  | fail id status error expiresAt =>
    refine .ofOpen hhits.2 rfl (fun h => ?_) (.inl rfl)
    change status = .succeeded at h
    rcases hsound with hstatus | hstatus
    · rw [hstatus] at h
      cases h
    · rw [hstatus] at h
      cases h
  | recover reason ids => exact .ofOpen hhits.2.1 rfl (fun h => by cases h) (.inr (hspare reason ids rfl row hrow hhits))
  | amend id owner => exact ⟨rfl, fun _ => ⟨rfl, rfl⟩, fun h => .inl h, .inl rfl⟩

/-! ## Tables -/

/-- Every row after comes from the row of the same job before. -/
def JobTables.Advances (computed : Nat → ρ → Prop) (gone : JobRow ρ κ → Prop) (t t' : JobTables ρ κ) : Prop :=
  ∀ id row', t'.jobs.row id = some row' → ∃ row, t.jobs.row id = some row ∧ RowAdvances computed gone row row'

variable (t : JobTables ρ κ)

theorem JobTables.Advances.refl : t.Advances computed gone t :=
  fun _ row' hrow => ⟨row', hrow, .refl row'⟩

theorem JobTables.Advances.ofJobs {t t' : JobTables ρ κ} (hjobs : t'.jobs = t.jobs) : t.Advances computed gone t' :=
  fun _ row' hrow => ⟨row', hjobs ▸ hrow, .refl row'⟩

/-- A sound statement only advances the tables. -/
theorem apply_advances {t : JobTables ρ κ}
    (hsound : statement.Sound computed) (hspare : t.SpareOwners policy gone statement) :
    t.Advances computed gone (t.apply policy statement) := by
  intro id row' hrow'
  have hupdate : (t.jobs.update (t.Hits policy statement) (t.set policy statement) (t.set_id policy statement)).row id =
      some row' := hrow'
  rcases row_update_eq_some hupdate with hsame | ⟨row, hrow, hhits, rfl⟩
  · exact ⟨row', hsame, .refl row'⟩
  · exact ⟨row, hrow, set_rowAdvances hsound hspare (row_eq_some.mp hrow).1 hhits⟩

theorem deleteExpired_advances : t.Advances computed gone t.deleteExpired := by
  intro id row' hrow'
  rw [JobTables.deleteExpired, row_retain] at hrow'
  exact ⟨row', (Option.filter_eq_some_iff.mp hrow').1, .refl row'⟩

/-! ## What is known of a job -/

variable (id : Nat)

def JobTables.Resolved : Prop :=
  ∀ row, t.jobs.row id = some row → row.status.isTerminal = true

/-- The outcome is what the row reads: the terminal status it has for as long as it exists, or that it is gone. -/
def JobTables.Says : CompletionOutcome → Prop
  | .applied status | .superseded status _ _ =>
    status.isTerminal = true ∧ ∀ row, t.jobs.row id = some row → row.status = status
  | .vanished => t.jobs.row id = none

def JobTables.StageKnows : WriteStage → Prop
  | .send => True
  | .reread => t.Resolved id
  | .amend => t.Says id (.superseded .failed true true)

variable {t t' : JobTables ρ κ} {id : Nat} {outcome : CompletionOutcome}

theorem JobTables.Says.resolved (h : t.Says id outcome) : t.Resolved id := by
  intro row hrow
  cases outcome with
  | applied status | superseded status ownedByUs recovered =>
    rw [h.2 row hrow]
    exact h.1
  | vanished =>
    change t.jobs.row id = none at h
    rw [hrow] at h
    cases h

theorem reads_advance {status : JobStatus} (hterminal : status.isTerminal = true)
    (h : ∀ row, t.jobs.row id = some row → row.status = status) (hadv : t.Advances computed gone t') :
    ∀ row', t'.jobs.row id = some row' → row'.status = status := by
  intro row' hrow'
  obtain ⟨row, hrow, hstep⟩ := hadv id row' hrow'
  have hstatus := h row hrow
  rw [(hstep.terminal (hstatus ▸ hterminal)).1]
  exact hstatus

theorem JobTables.Says.advance (h : t.Says id outcome) (hadv : t.Advances computed gone t') : t'.Says id outcome := by
  cases outcome with
  | applied status | superseded status ownedByUs recovered => exact ⟨h.1, reads_advance h.1 h.2 hadv⟩
  | vanished =>
    change t'.jobs.row id = none
    cases hrow' : t'.jobs.row id with
    | none => rfl
    | some row' =>
      obtain ⟨row, hrow, _⟩ := hadv id row' hrow'
      change t.jobs.row id = none at h
      rw [hrow] at h
      cases h

theorem says_foldAmbiguousAck (h : t.Says id outcome) (status : JobStatus) (retried : Bool) :
    t.Says id (foldAmbiguousAck status retried outcome) := by
  cases outcome with
  | applied | vanished => exact h
  | superseded status' ownedByUs recovered =>
    simp only [foldAmbiguousAck]
    split
    · exact h
    · exact h

/-! ## Conditional writes -/

/-- A write that installs a terminal status in the row of the job, if the row is open. -/
inductive Installs (id : Nat) : Statement ρ κ × JobStatus → Prop where
  | succeed (result : ρ) (expiresAt : Nat) : Installs id (.succeed id result expiresAt, .succeeded)
  | fail {status : JobStatus} (error : Text) (expiresAt : Nat) : status.isTerminal = true →
      Installs id (.fail id status error expiresAt, status)

theorem verdict_write_installs (cfg : Config ρ) (id expiresAt : Nat) (verdict : Verdict ρ) :
    Installs id (verdict.write cfg id expiresAt : Statement ρ κ × JobStatus) := by
  cases verdict with
  | ok result =>
    simp only [Verdict.write]
    split
    · exact .succeed result expiresAt
    · exact .fail _ expiresAt rfl
  | timeout => exact .fail _ expiresAt rfl
  | failed error => exact .fail error expiresAt rfl

theorem reconcileWrite_installs (id : Nat) (status : JobStatus) (expiresAt : Nat) :
    Installs id (reconcileWrite id status expiresAt : Statement ρ κ × JobStatus) := by
  refine .fail _ expiresAt ?_
  cases status <;> rfl

theorem verdict_write_sound {cfg : Config ρ} {id expiresAt : Nat} {verdict : Verdict ρ}
    (hcomputed : ∀ result, verdict = .ok result → computed id result) :
    (verdict.write cfg id expiresAt : Statement ρ κ × JobStatus).1.Sound computed := by
  cases verdict with
  | ok result =>
    simp only [Verdict.write]
    split
    · exact hcomputed result rfl
    · exact .inl rfl
  | timeout => exact .inr rfl
  | failed error => exact .inl rfl

theorem reconcileWrite_sound (id : Nat) (status : JobStatus) (expiresAt : Nat) :
    (reconcileWrite id status expiresAt : Statement ρ κ × JobStatus).1.Sound computed := by
  cases status
  · exact .inl rfl
  · exact .inl rfl
  · exact .inl rfl
  · exact .inl rfl
  · exact .inl rfl
  · exact .inr rfl

variable {write : Statement ρ κ × JobStatus}

theorem Installs.spareOwners (h : Installs id write) (policy : JobRecoveryPolicy) : t.SpareOwners policy gone write.1 := by
  intro reason ids heq
  cases h with
  | succeed | fail => cases heq

theorem hits_iff_of_installs (h : Installs id write)
    (row : JobRow ρ κ) : t.Hits policy write.1 row ↔ row.id = id ∧ row.Open := by
  cases h with
  | succeed | fail => rfl

theorem set_status_of_installs (h : Installs id write) (policy : JobRecoveryPolicy)
    (t : JobTables ρ κ) (row : JobRow ρ κ) : (t.set policy write.1 row).status = write.2 ∧ write.2.isTerminal = true := by
  cases h with
  | succeed => exact ⟨rfl, rfl⟩
  | fail error expiresAt hterminal => exact ⟨rfl, hterminal⟩

theorem resolved_of_not_affects
    (hhits : ∀ row, t.Hits policy statement row ↔ row.id = id ∧ row.Open) (h : ¬ t.Affects policy statement) :
    t.Resolved id := by
  intro row hrow
  obtain ⟨hmem, hid⟩ := row_eq_some.mp hrow
  by_contra hopen
  exact h ⟨row, hmem, (hhits row).mpr ⟨hid, by simpa [JobRow.Open] using hopen⟩⟩

theorem says_applied (h : Installs id write)
    (haffects : t.Affects policy write.1) : (t.apply policy write.1).Says id (.applied write.2) := by
  obtain ⟨row, hmem, hhits⟩ := haffects
  obtain ⟨hstatus, hterminal⟩ := set_status_of_installs h policy t row
  have hid := ((hits_iff_of_installs h row).mp hhits).1
  have hrow : t.jobs.row id = some row := row_eq_some.mpr ⟨hmem, hid⟩
  refine ⟨hterminal, fun row' hrow' => ?_⟩
  rw [JobTables.apply, row_update_of_pos hrow hhits, Option.some.injEq] at hrow'
  rw [← hrow', hstatus]

inductive Answered (t' : JobTables ρ κ) (id : Nat) : WriteAnswer → Prop where
  | next {stage : WriteStage} : t'.Resolved id → t'.StageKnows id stage → Answered t' id (.next stage)
  | done {outcome : CompletionOutcome} : t'.Says id outcome → Answered t' id (.done outcome)

theorem Answered.resolved {answer : WriteAnswer} (h : Answered t' id answer) : t'.Resolved id := by
  cases h with
  | next hresolved => exact hresolved
  | done htold => exact htold.resolved

theorem answered_reread (policy : JobRecoveryPolicy) (owner : Nat) (amends : Bool) (write : Statement ρ κ × JobStatus)
    (h : t.Resolved id) : (t.answer policy owner id amends write .reread).1 = t ∧
      Answered t id (t.answer policy owner id amends write .reread).2 := by
  simp only [JobTables.answer]
  cases hrow : t.jobs.row id with
  | none => exact ⟨rfl, .done hrow⟩
  | some row =>
    have hreads : ∀ other, t.jobs.row id = some other → other.status = row.status := by
      intro other hother
      rw [hrow, Option.some.injEq] at hother
      rw [hother]
    dsimp only
    split
    · rename_i hamend
      exact ⟨rfl, .next h ⟨rfl, fun other hother => (hreads other hother).trans hamend.2.1⟩⟩
    · exact ⟨rfl, .done ⟨h row hrow, hreads⟩⟩

/-- The write took effect in its first stage, or what the answer says is known. -/
theorem answer_cases (owner : Nat) (amends : Bool) {stage : WriteStage}
    (hadvances : t.Advances computed gone (t.apply policy write.1))
    (hhits : ∀ row, t.Hits policy write.1 row ↔ row.id = id ∧ row.Open) (hknows : t.StageKnows id stage)
    {answer} (hanswer : t.answer policy owner id amends write stage = answer) : t.Advances computed gone answer.1 ∧
      (t.Affects policy write.1 ∧ answer = (t.apply policy write.1, .done (.applied write.2)) ∨
        Answered answer.1 id answer.2) := by
  subst hanswer
  cases stage with
  | send =>
    by_cases haffects : t.Affects policy write.1
    · simp only [JobTables.answer, if_pos haffects]
      exact ⟨hadvances, .inl ⟨haffects, trivial⟩⟩
    · simp only [JobTables.answer, if_neg haffects]
      have hresolved := resolved_of_not_affects hhits haffects
      exact ⟨.refl t, .inr (.next hresolved hresolved)⟩
  | reread =>
    obtain ⟨htables, hanswered⟩ := answered_reread policy owner amends write hknows
    rw [htables]
    exact ⟨.refl t, .inr hanswered⟩
  | amend =>
    have htold : t.Says id (.superseded .failed true true) := hknows
    have hadv : t.Advances computed gone (t.apply policy (.amend id owner)) :=
      apply_advances trivial fun _ _ heq => by cases heq
    exact ⟨hadv, .inr (.done (htold.advance hadv))⟩

theorem answer_installs (gone : JobRow ρ κ → Prop) (policy : JobRecoveryPolicy) (owner : Nat) (amends : Bool)
    {stage : WriteStage} (hinstalls : Installs id write) (hsound : write.1.Sound computed) (hknows : t.StageKnows id stage)
    {answer} (hanswer : t.answer policy owner id amends write stage = answer) :
    t.Advances computed gone answer.1 ∧ Answered answer.1 id answer.2 := by
  refine (answer_cases owner amends (apply_advances hsound (hinstalls.spareOwners policy)) (hits_iff_of_installs hinstalls)
    hknows hanswer).imp_right fun h => h.elim (fun happlied => ?_) fun hanswered => hanswered
  rw [happlied.2]
  exact .done (says_applied hinstalls happlied.1)

theorem answer_setRunning (computed : Nat → ρ → Prop) (gone : JobRow ρ κ → Prop) (policy : JobRecoveryPolicy) (owner : Nat)
    {stage : WriteStage} (hknows : t.StageKnows id stage)
    {answer} (hanswer : t.answer policy owner id false (.setRunning id, .running) stage = answer) :
    t.Advances computed gone answer.1 ∧ (answer.2 = .done (.applied .running) ∨ Answered answer.1 id answer.2) := by
  have hadv : t.Advances computed gone (t.apply policy (.setRunning id)) :=
    apply_advances trivial fun _ _ heq => by cases heq
  refine (answer_cases owner false hadv (fun row => ?_) hknows hanswer).imp_right (Or.imp_left fun happlied => ?_)
  · rfl
  · rw [happlied.2]

end LogLake.Jobs
