import LogLake.Lemmas.JobRuns

/-! # The steps of the replicas -/

namespace LogLake.Jobs

open List Option KeyedTable Nat Prod

variable {ρ κ : Type} {cfg : Config ρ} {s s' : State ρ κ}

namespace State

/-! ## Parts of a step -/

variable {job : Nat} {r : Run ρ}

theorem run?_eq_some (h : s.run? job = some r) : s.runs[job]? = some r ∧ ∃ process, s.process? r.process = some process := by
  obtain ⟨hr, hsome⟩ := filter_eq_some_iff.mp h
  exact ⟨hr, isSome_iff_exists.mp hsome⟩

variable {p : Nat} {process : Process}

theorem process?_eq_some :
    s.process? p = some process ↔ s.processes[p]? = some process ∧ process.alive = true := filter_eq_some_iff

variable {r' : Run ρ}

theorem runs_set (hr : s.runs[job]? = some r) (hverdict : ∀ verdict, r.verdict = some verdict → r'.verdict = some verdict) :
    ∀ (id : Nat) (q : Run ρ), s.runs[id]? = some q → ∃ q' : Run ρ, (s.runs.set job r')[id]? = some q' ∧
      ∀ verdict, q.verdict = some verdict → q'.verdict = some verdict := by
  intro id q hq
  by_cases hid : job = id
  · subst hid
    rw [hr, some.injEq] at hq
    subst hq
    refine ⟨r', ?_, hverdict⟩
    rw [List.getElem?_set_self (List.getElem?_eq_some_iff.mp hr).1]
  · exact ⟨q, by rw [List.getElem?_set_ne hid, hq], fun _ h => h⟩

theorem eq_or_of_getElem?_set {α : Type} {l : List α} {i j : Nat} {a b : α} (h : (l.set i a)[j]? = some b) :
    l[j]? = some b ∨ j = i ∧ b = a := by
  by_cases hij : i = j
  · subst hij
    rw [List.getElem?_set] at h
    split at h
    · split at h
      · exact .inr ⟨rfl, (some.inj h).symm⟩
      · cases h
    · exact .inl h
  · exact .inl (by rwa [List.getElem?_set_ne hij] at h)

variable {next : Process}

theorem tracked_set {resolved : Nat → Prop} (hp : s.process? p = some process)
    (hparked : ∀ id ∈ process.parked.map fst, id ∈ next.parked.map fst ∨ resolved id) :
    ∀ q process', (s.setProcess p next).process? q = some process' → ∃ before, s.process? q = some before ∧
      ∀ id ∈ before.parked.map fst, id ∈ process'.parked.map fst ∨ resolved id := by
  intro q process' hq
  obtain ⟨hget, halive⟩ := process?_eq_some.mp hq
  rcases eq_or_of_getElem?_set hget with hold | ⟨rfl, rfl⟩
  · exact ⟨process', process?_eq_some.mpr ⟨hold, halive⟩, fun id hid => .inl hid⟩
  · exact ⟨process, hp, hparked⟩

variable {tables : JobTables ρ κ} {inFlight : List (Statement ρ κ)}

theorem Advance.ofRun
    (hr : s.runs[job]? = some r) (hverdict : ∀ verdict, r.verdict = some verdict → r'.verdict = some verdict)
    (htables : s.tables.Advances ({ s with runs := s.runs.set job r' } : State ρ κ).Computed s.OwnerGone tables) :
    Advance s { s with tables := tables, inFlight := inFlight, runs := s.runs.set job r' } where
  rows := fun id row' hrow' => .inl (htables id row' hrow')
  length := by simp
  runs := runs_set hr hverdict
  lapsed := List.Subset.refl _
  count := le_refl _
  tracked := fun _ process' hp _ => ⟨process', hp, fun _ hid => .inl hid⟩

theorem Advance.ofProcess (hp : s.process? p = some process) (htables : s.tables.Advances s.Computed s.OwnerGone tables)
    (hparked : ∀ id ∈ process.parked.map fst, id ∈ next.parked.map fst ∨ tables.Resolved id) :
    Advance s { s with tables := tables, inFlight := inFlight, processes := s.processes.set p next } where
  rows := fun id row' hrow' => .inl (htables id row' hrow')
  length := le_refl _
  runs := fun _ r hr => ⟨r, hr, fun _ h => h⟩
  lapsed := List.Subset.refl _
  count := by simp
  tracked := fun q process' hq _ => tracked_set hp hparked q process' hq

theorem Advance.ofTables (htables : s.tables.Advances s.Computed s.OwnerGone tables) :
    Advance s { s with tables := tables, inFlight := inFlight } where
  rows := fun id row' hrow' => .inl (htables id row' hrow')
  length := le_refl _
  runs := fun _ r hr => ⟨r, hr, fun _ h => h⟩
  lapsed := List.Subset.refl _
  count := le_refl _
  tracked := fun _ process' hp _ => ⟨process', hp, fun _ hid => .inl hid⟩

theorem LapsedKnow.of (h : s.LapsedKnow cfg) (howners : s'.tables.owners = s.tables.owners)
    (hnow : s'.tables.now = s.tables.now) (hlapsed : s'.lapsed = s.lapsed) : s'.LapsedKnow cfg := by
  intro reg hreg hage
  rw [howners] at hreg
  rw [hnow] at hage
  rw [hlapsed]
  exact h reg hreg hage

theorem answer_owners (policy : JobRecoveryPolicy) (t : JobTables ρ κ) (owner id : Nat) (amends : Bool)
    (write : Statement ρ κ × JobStatus) (stage : WriteStage) :
    (t.answer policy owner id amends write stage).1.owners = t.owners ∧
      (t.answer policy owner id amends write stage).1.now = t.now := by
  cases stage with
  | send =>
    simp only [JobTables.answer]
    split
    · exact ⟨rfl, rfl⟩
    · exact ⟨rfl, rfl⟩
  | reread =>
    simp only [JobTables.answer]
    split
    · exact ⟨rfl, rfl⟩
    · split
      · exact ⟨rfl, rfl⟩
      · exact ⟨rfl, rfl⟩
  | amend => exact ⟨rfl, rfl⟩

/-! ## Statements -/

variable {statement : Statement ρ κ}

theorem StatementKnows.spareOwners (h : s.StatementKnows statement) :
    s.tables.SpareOwners cfg.policy s.OwnerGone statement := by
  rintro reason ids rfl row hrow ⟨hid, _, horphaned⟩
  intro owner howner
  cases reason with
  | ownerLeaseExpired =>
    exact .inr ((h.lapsed ids rfl row.id hid).2 row (row_eq_some.mpr ⟨hrow, rfl⟩) owner howner)
  | ownerUnregistered =>
    obtain ⟨other, hother, hnone⟩ := horphaned
    rw [howner] at hother
    cases hother
    exact .inl hnone
  | ownerlessBeyondGrace =>
    rw [horphaned.1] at howner
    cases howner

theorem StatementKnows.advances (h : s.StatementKnows statement) :
    s.tables.Advances s.Computed s.OwnerGone (s.tables.apply cfg.policy statement) :=
  apply_advances h.sound h.spareOwners

theorem statementKnows_of_sound (hsound : statement.Sound s.Computed)
    (hrecover : ∀ reason ids, statement ≠ .recover reason ids) : s.StatementKnows statement :=
  ⟨hsound, fun ids heq => absurd heq (hrecover _ ids)⟩

theorem statementKnows_sent (owner id : Nat) {write : Statement ρ κ} (hwrite : s.StatementKnows write)
    (stage : WriteStage) : ∀ statement ∈ stage.sent owner id write, s.StatementKnows statement := by
  intro statement hmem
  cases stage with
  | send =>
    rw [mem_singleton.mp hmem]
    exact hwrite
  | reread => cases hmem
  | amend =>
    rw [mem_singleton.mp hmem]
    exact statementKnows_of_sound trivial fun reason ids heq => by cases heq

theorem statementKnows_setRunning (id : Nat) : s.StatementKnows (.setRunning id) :=
  statementKnows_of_sound trivial fun reason ids heq => by cases heq

theorem statementKnows_of_installs {id : Nat} {write : Statement ρ κ × JobStatus} (hinstalls : Installs id write)
    (hsound : write.1.Sound s.Computed) : s.StatementKnows write.1 := by
  refine statementKnows_of_sound hsound fun reason ids heq => ?_
  cases hinstalls with
  | succeed | fail => cases heq

/-- What is in flight after some statements were sent was in flight before, or is known. -/
theorem sent_or_known {sent : List (Statement ρ κ)} (hsent : ∀ statement ∈ sent, s.StatementKnows statement) :
    ∀ statement ∈ s.inFlight ++ sent, statement ∈ s.inFlight ∨ s.StatementKnows statement := by
  intro statement hs
  rcases mem_append.mp hs with hold | hnew
  · exact .inl hold
  · exact .inr (hsent statement hnew)

/-! ## Steps that change a run -/

variable {sent : List (Statement ρ κ)}

section

variable (h : Truthful cfg s) (hr : s.runs[job]? = some r) (hverdict : ∀ verdict, r.verdict = some verdict → r'.verdict = some verdict)
include h hr hverdict

theorem Truthful.setRun (hs' : { s with tables := tables, inFlight := inFlight, runs := s.runs.set job r' } = s')
    (htables : s.tables.Advances s.Computed s.OwnerGone tables)
    (howners : tables.owners = s.tables.owners) (hnow : tables.now = s.tables.now)
    (hflight : ∀ statement ∈ inFlight, statement ∈ s.inFlight ∨ s.StatementKnows statement)
    (hknows : s'.RunKnows job r') : Progress cfg s s' := by
  have hcomputed : ∀ id result, s.Computed id result →
      ({ s with runs := s.runs.set job r' } : State ρ κ).Computed id result := by
    rintro id result ⟨q, hq, hresult⟩
    obtain ⟨q', hq', hkeep⟩ := runs_set hr hverdict id q hq
    exact ⟨q', hq', hkeep _ hresult⟩
  have hwider : s.tables.Advances ({ s with runs := s.runs.set job r' } : State ρ κ).Computed s.OwnerGone tables := by
    intro id row' hrow'
    obtain ⟨row, hrow, hstep⟩ := htables id row' hrow'
    refine ⟨row, hrow, hstep.owner, hstep.terminal, fun hs => ?_, hstep.recovered⟩
    rcases hstep.succeeded hs with hbefore | ⟨result, hresult, hc⟩
    · exact .inl hbefore
    · exact .inr ⟨result, hresult, hcomputed _ _ hc⟩
  have hadv : Advance s s' := hs' ▸ .ofRun hr hverdict hwider
  subst hs'
  refine h.advance hadv (fun id q hq => ?_) (fun process hp => .inl hp) (fun statement hs => ?_)
    (h.lapsed.of howners hnow rfl)
  · rcases eq_or_of_getElem?_set hq with hold | ⟨rfl, rfl⟩
    · exact .inl hold
    · exact .inr hknows
  · exact (hflight statement hs).imp_right hadv.statementKnows

theorem Truthful.sendRun (hsent : ∀ statement ∈ sent, s.StatementKnows statement)
    (hknows : ((s.send sent).setRun job r').RunKnows job r') : Progress cfg s ((s.send sent).setRun job r') :=
  h.setRun hr hverdict rfl (.refl _) rfl rfl (sent_or_known hsent) hknows

theorem Truthful.answerRun (htables : s.tables.Advances s.Computed s.OwnerGone tables)
    (howners : tables.owners = s.tables.owners ∧ tables.now = s.tables.now)
    (hknows : ((s.setTables tables).setRun job r').RunKnows job r') : Progress cfg s ((s.setTables tables).setRun job r') :=
  h.setRun hr hverdict rfl htables howners.1 howners.2 (fun _ hs => .inl hs) hknows

end

variable {stage : WriteStage}

/-- A job that publishes its result says what it computed. -/
theorem Truthful.publish (h : Truthful cfg s) (hr : s.runs[job]? = some r)
    (hphase : r.phase = .publishing stage) (answered : Bool) :
    Progress cfg s (s.publish cfg.policy job r stage answered) := by
  obtain ⟨hnone, hknows⟩ : r.verdict = none ∧ s.tables.StageKnows job stage := by
    have hrun := h.runs job r hr
    simpa [RunKnows, hphase] using hrun
  cases answered with
  | false => exact h.sendRun hr (fun _ hv => hv) (statementKnows_sent _ job (statementKnows_setRunning job) stage) hnone
  | true =>
    obtain ⟨htables, hanswer⟩ := answer_setRunning s.Computed s.OwnerGone cfg.policy r.process hknows rfl
    refine h.answerRun hr (fun _ hv => hv) htables (answer_owners ..) ?_
    dsimp only [RunKnows]
    rcases hanswer with happlied | hanswer
    · rw [happlied]
      exact hnone
    · generalize (s.tables.answer cfg.policy r.process job false (.setRunning job, .running) stage).2 = answer at hanswer ⊢
      cases hanswer with
      | next _ hstage => exact ⟨hnone, hstage⟩
      | done htold =>
        rename_i outcome
        cases outcome with
        | applied => exact hnone
        | superseded | vanished => exact htold

variable {verdict : Verdict ρ}

theorem computed_of_verdict (hr : s.runs[job]? = some r)
    (hverdict : r.verdict = some verdict) : ∀ result, verdict = .ok result → s.Computed job result := by
  rintro result rfl
  exact ⟨r, hr, hverdict⟩

theorem statementKnows_verdict (hr : s.runs[job]? = some r) (hverdict : r.verdict = some verdict)
    (expiresAt : Nat) : s.StatementKnows (verdict.write cfg job expiresAt : Statement ρ κ × JobStatus).1 :=
  statementKnows_of_installs (verdict_write_installs cfg job expiresAt verdict)
    (verdict_write_sound (computed_of_verdict hr hverdict))

section

variable (h : Truthful cfg s)
include h

theorem Truthful.park (hr : s.runs[job]? = some r)
    (hp : s.process? r.process = some process) (status : JobStatus) : Progress cfg s (s.park job r status) := by
  obtain ⟨hget, _⟩ := process?_eq_some.mp hp
  have hlt : r.process < s.processes.length := (List.getElem?_eq_some_iff.mp hget).1
  have hjob : job < s.runs.length := (List.getElem?_eq_some_iff.mp hr).1
  simp only [State.park, hget, Process.park]
  split
  · -- the bookkeeping is full
    have hsame : s.setProcess r.process process = s := by
      obtain ⟨_, hself⟩ := List.getElem?_eq_some_iff.mp hget
      rw [State.setProcess, ← hself, set_getElem_self]
    rw [hsame]
    exact h.answerRun hr (fun _ hv => hv) (.refl _) ⟨rfl, rfl⟩ trivial
  · let next : Process :=
      { process with parked := process.parked.filter (fun entry => entry.1 ≠ job) ++ [(job, status)] }
    have hparked : ∀ id ∈ process.parked.map fst, id ∈ next.parked.map fst := by
      intro id hid
      obtain ⟨entry, hentry, rfl⟩ := mem_map.mp hid
      by_cases hsame : entry.1 = job
      · exact mem_map.mpr ⟨(job, status), mem_append_right _ (mem_singleton_self _), hsame.symm⟩
      · exact mem_map.mpr
          ⟨entry, mem_append_left _ (mem_filter.mpr ⟨hentry, by simpa using hsame⟩), rfl⟩
    have hadv : Advance s ((s.setProcess r.process next).setRun job { r with phase := .finished .deferred }) :=
      { rows := fun id row' hrow' => .inl ⟨row', hrow', .refl row'⟩
        length := by simp [State.setProcess, State.setRun]
        runs := runs_set hr fun _ hv => hv
        lapsed := List.Subset.refl _
        count := by simp [State.setProcess, State.setRun]
        tracked := fun q process' hq _ =>
          tracked_set hp (fun id hid => .inl (hparked id hid)) q process' hq }
    refine h.advance hadv (fun id q hq => ?_) (fun process' hp' => ?_) (fun statement hs => .inl hs)
      (h.lapsed.of rfl rfl rfl)
    · rcases eq_or_of_getElem?_set hq with hold | ⟨rfl, rfl⟩
      · exact .inl hold
      · right
        refine ⟨by simpa [State.setProcess, State.setRun] using hlt, fun process' hp' => .inr ?_⟩
        obtain ⟨hget', _⟩ := process?_eq_some.mp hp'
        change (s.processes.set r.process next)[r.process]? = some process' at hget'
        rw [List.getElem?_set_self hlt, some.injEq] at hget'
        rw [← hget']
        exact mem_map.mpr ⟨(id, status), mem_append_right _ (mem_singleton_self _), rfl⟩
    · rcases mem_or_eq_of_mem_set hp' with hold | rfl
      · exact .inl hold
      · right
        have hknows := hadv.processKnows (h.processes process (mem_of_getElem? hget))
        refine ⟨fun entry hentry => ?_, hknows.pass, hknows.condemned⟩
        rcases mem_append.mp hentry with hold | hnew
        · exact hknows.parked entry (mem_of_mem_filter hold)
        · rw [mem_singleton.mp hnew]
          simpa [State.setProcess, State.setRun] using hjob

theorem Truthful.sendOnly (hsent : ∀ statement ∈ sent, s.StatementKnows statement) : Progress cfg s (s.send sent) := by
  have hadv : Advance s (s.send sent) := .ofTables (.refl _)
  refine h.advance hadv (fun _ _ hr => .inl hr) (fun _ hp => .inl hp) (fun statement hs => ?_) (h.lapsed.of rfl rfl rfl)
  exact (sent_or_known hsent statement hs).imp_right hadv.statementKnows

theorem Truthful.sendPark (hsent : ∀ statement ∈ sent, s.StatementKnows statement)
    (hr : s.runs[job]? = some r) (hp : s.process? r.process = some process) (status : JobStatus) :
    Progress cfg s ((s.send sent).park job r status) := by
  have hpark := (h.sendOnly hsent).truthful.park hr hp status
  -- the statements in flight are no part of what advances
  have hadv := hpark.advance
  exact ⟨{ hadv with }, hpark.truthful⟩

/-- A verdict that is persisted, or parked, is the computed one. -/
theorem Truthful.persist {attempt : Nat}
    {retried : Bool} (hr : s.runs[job]? = some r) (hp : s.process? r.process = some process)
    (hphase : r.phase = .persisting attempt retried stage) (hverdict : r.verdict = some verdict) (answered : Bool)
    (expiresAt : Nat) : Progress cfg s (s.persist cfg job r verdict attempt retried stage answered expiresAt) := by
  have hknows : s.tables.StageKnows job stage := by
    have hrun := h.runs job r hr
    simpa [RunKnows, hphase] using hrun
  have hinstalls := verdict_write_installs (κ := κ) cfg job expiresAt verdict
  have hsound : (verdict.write cfg job expiresAt : Statement ρ κ × JobStatus).1.Sound s.Computed :=
    verdict_write_sound (computed_of_verdict hr hverdict)
  cases answered with
  | false =>
    have hsent := statementKnows_sent r.process job (statementKnows_of_installs hinstalls hsound) stage
    simp only [State.persist, Bool.false_eq_true, if_false]
    split
    · exact h.sendPark hsent hr hp _
    · exact h.sendRun hr (fun _ hv => hv) hsent trivial
  | true =>
    obtain ⟨htables, hanswer⟩ := answer_installs s.OwnerGone cfg.policy r.process true hinstalls hsound hknows rfl
    refine h.answerRun hr (fun _ hv => hv) htables (answer_owners ..) ?_
    dsimp only [RunKnows]
    generalize (s.tables.answer cfg.policy r.process job true (verdict.write cfg job expiresAt) stage).2 = answer
      at hanswer ⊢
    cases hanswer with
    | next _ hstage => exact hstage
    | done htold => exact says_foldAmbiguousAck htold _ _

/-! ## Steps that change a replica -/

section

variable (hp : s.process? p = some process)
include hp

theorem ProcessKnows.ofProcess? : s.ProcessKnows process := h.processes process (mem_of_getElem? (process?_eq_some.mp hp).1)

theorem Truthful.changeProcess
    (hs' : { s with tables := tables, inFlight := inFlight, processes := s.processes.set p next } = s')
    (htables : s.tables.Advances s.Computed s.OwnerGone tables)
    (howners : tables.owners = s.tables.owners ∧ tables.now = s.tables.now)
    (hflight : ∀ statement ∈ inFlight, statement ∈ s.inFlight ∨ s.StatementKnows statement)
    (hparked : ∀ id ∈ process.parked.map fst, id ∈ next.parked.map fst ∨ tables.Resolved id)
    (hknows : Advance s s' → s'.ProcessKnows process → s'.ProcessKnows next) : Progress cfg s s' := by
  have hadv : Advance s s' := hs' ▸ .ofProcess hp htables hparked
  subst hs'
  refine h.advance hadv (fun _ _ hr => .inl hr) (fun process' hp' => ?_) (fun statement hs => ?_)
    (h.lapsed.of howners.1 howners.2 rfl)
  · rcases mem_or_eq_of_mem_set hp' with hold | rfl
    · exact .inl hold
    · exact .inr (hknows hadv (hadv.processKnows (.ofProcess? h hp)))
  · exact (hflight statement hs).imp_right hadv.statementKnows

theorem Truthful.setProcess
    (hparked : next.parked = process.parked) (hknows : s.ProcessKnows next) : Progress cfg s (s.setProcess p next) := by
  refine h.changeProcess hp rfl (.refl _) ⟨rfl, rfl⟩ (fun _ hs => .inl hs) (fun id hid => .inl ?_)
    fun hadv _ => hadv.processKnows hknows
  rw [hparked]
  exact hid

theorem Truthful.passBegin : Progress cfg s (s.setProcess p { process with pass := some ⟨process.parked, .send⟩ }) := by
  have hknows := ProcessKnows.ofProcess? h hp
  refine h.setProcess hp rfl { hknows with pass := fun pass hpass => ?_ }
  cases hpass
  exact ⟨hknows.parked, fun _ _ => trivial⟩

theorem Truthful.passWrite {status : JobStatus} {rest : List (Nat × JobStatus)}
    (hpass : process.pass = some ⟨(job, status) :: rest, stage⟩) (answered : Bool) (expiresAt : Nat) :
    Progress cfg s (s.passWrite cfg.policy p process job status rest stage answered expiresAt) ∧ (answered = true →
        (s.passWrite cfg.policy p process job status rest stage answered expiresAt).tables.Resolved job) := by
  have hknows := ProcessKnows.ofProcess? h hp
  obtain ⟨hlength, hstage⟩ := hknows.pass _ hpass
  have hinstalls := reconcileWrite_installs (ρ := ρ) (κ := κ) job status expiresAt
  have hsound : (reconcileWrite job status expiresAt : Statement ρ κ × JobStatus).1.Sound s.Computed :=
    reconcileWrite_sound job status expiresAt
  have hrest : ∀ entry ∈ rest, entry.1 < s.runs.length := fun entry he => hlength entry (mem_cons_of_mem _ he)
  cases answered with
  | false =>
    refine ⟨?_, fun hfalse => by cases hfalse⟩
    refine h.changeProcess hp rfl (.refl _) ⟨rfl, rfl⟩
      (sent_or_known (statementKnows_sent p job (statementKnows_of_installs hinstalls hsound) stage))
      (fun id hid => .inl hid) fun _ hold => ⟨hold.parked, fun pass hpass' => ?_, hold.condemned⟩
    cases hpass'
    exact ⟨hrest, fun _ _ => trivial⟩
  | true =>
    obtain ⟨htables, hanswer⟩ := answer_installs s.OwnerGone cfg.policy p true hinstalls hsound (hstage _ rfl) rfl
    have hresolved := hanswer.resolved
    have howners := answer_owners cfg.policy s.tables p job true (reconcileWrite job status expiresAt) stage
    simp only [State.passWrite, if_true]
    refine ⟨?_, fun _ => hresolved⟩
    generalize s.tables.answer cfg.policy p job true (reconcileWrite job status expiresAt) stage = answer
      at htables hanswer hresolved howners ⊢
    obtain ⟨tables, answer⟩ := answer
    cases hanswer with
    | next _ hnext =>
      refine h.changeProcess hp rfl htables howners (fun _ hs => .inl hs) (fun id hid => .inl hid)
        fun _ hold => ⟨hold.parked, fun pass hpass' => ?_, hold.condemned⟩
      cases hpass'
      refine ⟨hlength, fun entry he => ?_⟩
      cases he
      exact hnext
    | done htold =>
      refine h.changeProcess hp rfl htables howners (fun _ hs => .inl hs) (fun id hid => ?_)
        fun _ hold => ⟨fun entry he => hold.parked entry (mem_of_mem_filter he), fun pass hpass' => ?_, hold.condemned⟩
      · obtain ⟨entry, hentry, rfl⟩ := mem_map.mp hid
        by_cases hsame : entry.1 = job
        · exact .inr (hsame ▸ hresolved)
        · exact .inl (mem_map.mpr ⟨entry, mem_filter.mpr ⟨hentry, by simpa using hsame⟩, rfl⟩)
      · cases hpass'
        exact ⟨hrest, fun _ _ => trivial⟩

theorem Truthful.recoverRead : Progress cfg s (s.setProcess p
      { process with condemned := orphanReasons.map fun reason => (reason, s.tables.condemned cfg.policy p reason) }) := by
  have hknows := ProcessKnows.ofProcess? h hp
  refine h.setProcess hp rfl ⟨hknows.parked, hknows.pass, fun ids hids => ?_⟩
  obtain ⟨reason, _, heq⟩ := mem_map.mp hids
  obtain ⟨rfl, rfl⟩ := Prod.mk.inj heq
  intro id hid
  obtain ⟨row, hfilter, rfl⟩ := mem_map.mp hid
  obtain ⟨hmem, hdecision⟩ := mem_filter.mp hfilter
  have hrow : s.tables.jobs.row row.id = some row := row_eq_some.mpr ⟨hmem, rfl⟩
  refine ⟨(h.rows row.id row hrow).1, fun row' hrow' owner howner => ?_⟩
  rw [hrow, some.injEq] at hrow'
  subst hrow'
  have hcondemned := (of_decide_eq_true hdecision).2
  simp only [recoveryDecision, howner] at hcondemned
  split at hcondemned
  · cases hcondemned
  · split at hcondemned
    · cases hcondemned
    · rename_i reg hreg
      split at hcondemned
      · rename_i hage
        obtain ⟨hregmem, rfl⟩ := row_eq_some.mp hreg
        exact h.lapsed reg hregmem hage
      · cases hcondemned

/-- A recovery fails only jobs whose owner is gone. -/
theorem Truthful.recoverApply {group : Nat} {condemned : OrphanReason × List Nat}
    (hgroup : process.condemned[group]? = some condemned) (answered : Bool) :
    Progress cfg s ((s.issue cfg.policy (.recover condemned.1 condemned.2) answered).setProcess p
      { process with condemned := if answered then process.condemned.eraseIdx group else [] }) := by
  have hknows := ProcessKnows.ofProcess? h hp
  have hstatement : s.StatementKnows (.recover condemned.1 condemned.2) := by
    refine ⟨trivial, fun ids heq => ?_⟩
    obtain ⟨hreason, hids⟩ := Statement.recover.inj heq
    refine hknows.condemned ids ?_
    rw [← hreason, ← hids]
    exact mem_of_getElem? hgroup
  cases answered with
  | false =>
    refine h.changeProcess hp rfl (.refl _) ⟨rfl, rfl⟩ (sent_or_known fun statement hs => ?_) (fun id hid => .inl hid)
      fun _ hold => ⟨hold.parked, hold.pass, fun ids hids => absurd hids not_mem_nil⟩
    rw [mem_singleton.mp hs]
    exact hstatement
  | true =>
    simp only [if_true]
    exact h.changeProcess hp rfl hstatement.advances ⟨rfl, rfl⟩ (fun _ hs => .inl hs)
      (fun id hid => .inl hid) fun _ hold => ⟨hold.parked, hold.pass,
        fun ids hids => hold.condemned ids (mem_of_mem_eraseIdx hids)⟩

end

/-! ## Steps that change the tables -/

theorem Truthful.changeTables
    (htables : s.tables.Advances s.Computed s.OwnerGone tables) (hflight : ∀ statement ∈ inFlight, statement ∈ s.inFlight)
    (hlapsed : ({ s with tables := tables, inFlight := inFlight } : State ρ κ).LapsedKnow cfg) :
    Progress cfg s { s with tables := tables, inFlight := inFlight } :=
  h.advance (.ofTables htables) (fun _ _ hr => .inl hr) (fun _ hp => .inl hp)
    (fun statement hs => .inl (hflight statement hs)) hlapsed

theorem Truthful.setTables
    (htables : s.tables.Advances s.Computed s.OwnerGone tables) (hlapsed : (s.setTables tables).LapsedKnow cfg) :
    Progress cfg s (s.setTables tables) := h.changeTables htables (fun _ hs => hs) hlapsed

theorem Truthful.issue (hstatement : s.StatementKnows statement)
    (answered : Bool) : Progress cfg s (s.issue cfg.policy statement answered) := by
  cases answered with
  | false =>
    refine h.sendOnly fun other hother => ?_
    rw [mem_singleton.mp hother]
    exact hstatement
  | true => exact h.setTables hstatement.advances (h.lapsed.of rfl rfl rfl)

/-- A statement that lands late does no harm. -/
theorem Truthful.land {i : Nat} (hi : s.inFlight[i]? = some statement) : Progress cfg s
      { s with tables := s.tables.apply cfg.policy statement, inFlight := s.inFlight.eraseIdx i } :=
  h.changeTables (h.statements statement (mem_of_getElem? hi)).advances (fun _ hs => mem_of_mem_eraseIdx hs)
    (h.lapsed.of rfl rfl rfl)

end

theorem mem_heartbeat {t : JobTables ρ κ} {owner : Nat} {reg : OwnerRow} (h : reg ∈ (t.heartbeat owner).owners.rows) :
    reg ∈ t.owners.rows ∨ reg.heartbeatAt = t.now := by
  have hrow : (t.heartbeat owner).owners.row reg.id = some reg := row_eq_some.mpr ⟨h, rfl⟩
  rw [JobTables.heartbeat, row_insertNew, row_update] at hrow
  have hold : ∀ old, t.owners.row reg.id = some old →
      (if old.id = owner then { old with heartbeatAt := t.now } else old) = reg →
      reg ∈ t.owners.rows ∨ reg.heartbeatAt = t.now := by
    intro old hrow heq
    split at heq
    · rw [← heq]
      exact .inr rfl
    · exact .inl (heq ▸ (row_eq_some.mp hrow).1)
  cases hreg : t.owners.row reg.id with
  | none =>
    rw [hreg, map_none, getD_none] at hrow
    split at hrow
    · cases hrow
      exact .inr rfl
    · cases hrow
  | some old =>
    rw [hreg, map_some, getD_some, ite_self, some.injEq] at hrow
    exact hold old hreg hrow

theorem LapsedKnow.heartbeat (h : s.LapsedKnow cfg) (howners : s'.tables = s.tables.heartbeat p)
    (hlapsed : s'.lapsed = s.lapsed) : s'.LapsedKnow cfg := by
  intro reg hreg hage
  rw [howners] at hreg hage
  rw [hlapsed]
  change cfg.policy.ownerLease < s.tables.now - reg.heartbeatAt at hage
  rcases mem_heartbeat hreg with hold | hnew
  · exact h reg hold hage
  · omega

theorem LapsedKnow.remove (h : s.LapsedKnow cfg)
    (howners : ∀ reg ∈ tables.owners.rows, reg ∈ s.tables.owners.rows) (hnow : tables.now = s.tables.now) :
    (s.setTables tables).LapsedKnow cfg := by
  intro reg hreg hage
  change cfg.policy.ownerLease < tables.now - reg.heartbeatAt at hage
  rw [hnow] at hage
  exact h reg (howners reg hreg) hage

theorem Truthful.tick (h : Truthful cfg s) (elapsed : Nat) : Progress cfg s { s with
        tables := { s.tables with now := s.tables.now + elapsed }
        lapsed := s.lapsed ++ (s.tables.owners.rows.filter fun reg =>
          cfg.policy.ownerLease < s.tables.now + elapsed - reg.heartbeatAt).map OwnerRow.id } := by
  refine h.advance
    { rows := fun id row' hrow' => .inl ⟨row', hrow', .refl row'⟩
      length := le_refl _
      runs := fun _ r hr => ⟨r, hr, fun _ hv => hv⟩
      lapsed := subset_append_left ..
      count := le_refl _
      tracked := fun _ process' hp _ => ⟨process', hp, fun _ hid => .inl hid⟩ }
    (fun _ _ hr => .inl hr) (fun _ hp => .inl hp) (fun _ hs => .inl hs) fun reg hreg hage => ?_
  exact mem_append_right _ (mem_map.mpr ⟨reg, mem_filter.mpr ⟨hreg, by simpa using hage⟩, rfl⟩)

theorem Truthful.spawn (h : Truthful cfg s) :
    Progress cfg s
      { s with
        tables := s.tables.heartbeat s.processes.length
        processes := s.processes ++ [⟨true, [], none, []⟩] } := by
  refine h.advance
    { rows := fun id row' hrow' => .inl ⟨row', hrow', .refl row'⟩
      length := le_refl _
      runs := fun _ r hr => ⟨r, hr, fun _ hv => hv⟩
      lapsed := List.Subset.refl _
      count := by simp
      tracked := fun p process' hp hlt => ⟨process', ?_, fun _ hid => .inl hid⟩ }
    (fun _ _ hr => .inl hr) (fun process hp => ?_) (fun _ hs => .inl hs) (h.lapsed.heartbeat rfl rfl)
  · obtain ⟨hget, halive⟩ := process?_eq_some.mp hp
    change (s.processes ++ [_])[p]? = some process' at hget
    rw [List.getElem?_append_left hlt] at hget
    exact process?_eq_some.mpr ⟨hget, halive⟩
  · rcases mem_append.mp hp with hold | hnew
    · exact .inl hold
    · right
      rw [mem_singleton.mp hnew]
      exact ⟨fun entry he => absurd he not_mem_nil, (fun pass hpass => by cases hpass),
        fun ids hids => absurd hids not_mem_nil⟩

theorem Truthful.submitted (h : Truthful cfg s) (owner : Option Nat) (hverdict : r.verdict = none)
    (hphase : r.phase = .unstarted ∨ r.phase = .publishing .send) : Progress cfg s (s.submitted owner r) := by
  have hruns : ∀ (id : Nat) (q : Run ρ), s.runs[id]? = some q → (s.runs ++ [r])[id]? = some q := by
    intro id q hq
    rw [List.getElem?_append_left (List.getElem?_eq_some_iff.mp hq).1, hq]
  refine h.advance
    { rows := fun id row' hrow' => ?_
      length := by simp [State.submitted]
      runs := fun id q hq => ⟨q, hruns id q hq, fun _ hv => hv⟩
      lapsed := List.Subset.refl _
      count := le_refl _
      tracked := fun _ process' hp _ => ⟨process', hp, fun _ hid => .inl hid⟩ }
    (fun id q hq => ?_) (fun _ hp => .inl hp) (fun _ hs => .inl hs) (h.lapsed.of rfl rfl rfl)
  · change (s.tables.insert s.runs.length owner).jobs.row id = some row' at hrow'
    rw [JobTables.insert, row_insertNew] at hrow'
    split at hrow'
    · rename_i hid
      change s.runs.length = id at hid
      subst hid
      cases hrow : s.tables.jobs.row s.runs.length with
      | none =>
        rw [hrow] at hrow'
        cases hrow'
        exact .inr ⟨le_refl _, by simp [State.submitted], rfl⟩
      | some row => exact absurd (h.rows _ row hrow).1 (lt_irrefl _)
    · exact .inl ⟨row', hrow', .refl row'⟩
  · by_cases hid : id < s.runs.length
    · change (s.runs ++ [r])[id]? = some q at hq
      rw [List.getElem?_append_left hid] at hq
      exact .inl hq
    · change (s.runs ++ [r])[id]? = some q at hq
      rw [List.getElem?_append_right (not_lt.mp hid)] at hq
      obtain rfl := mem_singleton.mp (mem_of_getElem? hq)
      right
      rcases hphase with hphase | hphase
      · simp [RunKnows, hphase]
      · simp [RunKnows, hphase, hverdict, JobTables.StageKnows]

/-! ## All steps -/

theorem statementKnows_dropped (hr : s.runs[job]? = some r) (expiresAt : Nat) :
    ∀ statement ∈ State.dropped cfg job r expiresAt, s.StatementKnows (κ := κ) statement := by
  unfold State.dropped
  split
  · exact statementKnows_sent _ job (statementKnows_setRunning job) _
  · rename_i verdict _ hverdict
    exact statementKnows_sent _ job (statementKnows_verdict hr hverdict expiresAt) _
  · exact fun statement hs => absurd hs not_mem_nil

/-- Every step keeps the tables truthful. -/
theorem Truthful.step (h : Truthful cfg s) {a : Action ρ κ} (hstep : Jobs.step cfg s a = some s') : Progress cfg s s' := by
  cases a with
  | tick elapsed =>
    cases hstep
    exact h.tick elapsed
  | spawn =>
    cases hstep
    exact h.spawn
  | submit process answered =>
    obtain ⟨_, _, rfl⟩ := map_eq_some_iff.mp hstep
    refine h.submitted _ rfl ?_
    cases answered with
    | false => exact .inl rfl
    | true => exact .inr rfl
  | submitUnowned =>
    cases hstep
    exact h.submitted _ rfl (.inl rfl)
  | publish job answered =>
    obtain ⟨r, hr, hrest⟩ := bind_eq_some_iff.mp hstep
    split at hrest
    · rename_i stage hphase
      cases hrest
      exact h.publish (run?_eq_some hr).1 hphase answered
    · cases hrest
  | publishTimeout job =>
    obtain ⟨r, hr, hrest⟩ := bind_eq_some_iff.mp hstep
    split at hrest
    · rename_i stage hphase
      cases hrest
      obtain ⟨hget, _⟩ := run?_eq_some hr
      have hnone : r.verdict = none ∧ s.tables.StageKnows job stage := by
        have hrun := h.runs job r hget
        simpa [RunKnows, hphase] using hrun
      refine h.sendRun hget (fun _ hv => ?_) (statementKnows_sent _ job (statementKnows_setRunning job) stage) trivial
      rw [hnone.1] at hv
      cases hv
    · cases hrest
  | recordCost job cost answered =>
    obtain ⟨r, _, hrest⟩ := bind_eq_some_iff.mp hstep
    obtain ⟨_, rfl⟩ := Option.ite_some_none_eq_some.mp hrest
    have hknown : s.StatementKnows (.recordCost job cost) :=
      statementKnows_of_sound trivial fun reason ids heq => by cases heq
    exact h.issue hknown answered
  | compute job verdict =>
    obtain ⟨r, hr, hrest⟩ := bind_eq_some_iff.mp hstep
    obtain ⟨hphase, rfl⟩ := Option.ite_some_none_eq_some.mp hrest
    obtain ⟨hget, _⟩ := run?_eq_some hr
    have hnone : r.verdict = none := by
      have hrun := h.runs job r hget
      simpa [RunKnows, hphase] using hrun
    refine h.answerRun hget (fun _ hv => ?_) (.refl _) ⟨rfl, rfl⟩ trivial
    rw [hnone] at hv
    cases hv
  | persist job answered expiresAt =>
    obtain ⟨r, hr, hrest⟩ := bind_eq_some_iff.mp hstep
    split at hrest
    · rename_i attempt retried stage verdict hphase hverdict
      cases hrest
      obtain ⟨hget, process, hp⟩ := run?_eq_some hr
      exact h.persist hget hp hphase hverdict answered expiresAt
    · cases hrest
  | giveUp job expiresAt =>
    obtain ⟨r, hr, hrest⟩ := bind_eq_some_iff.mp hstep
    split at hrest
    · rename_i attempt retried stage verdict _ hverdict
      cases hrest
      obtain ⟨hget, process, hp⟩ := run?_eq_some hr
      exact h.sendPark (statementKnows_sent _ job (statementKnows_verdict hget hverdict expiresAt) stage) hget hp _
    · cases hrest
  | cancel job answered expiresAt =>
    cases hstep
    have hknown : s.StatementKnows (.cancel job expiresAt) :=
      statementKnows_of_sound trivial fun reason ids heq => by cases heq
    exact h.issue hknown answered
  | abort job expiresAt =>
    obtain ⟨r, hr, hrest⟩ := bind_eq_some_iff.mp hstep
    obtain ⟨⟨_, hcancelled⟩, rfl⟩ := Option.ite_some_none_eq_some.mp hrest
    obtain ⟨hget, _⟩ := run?_eq_some hr
    refine h.sendRun hget (fun _ hv => hv) (statementKnows_dropped hget expiresAt) fun row hrow => ?_
    rw [hcancelled row hrow]
    rfl
  | passBegin p =>
    obtain ⟨process, hp, hrest⟩ := bind_eq_some_iff.mp hstep
    obtain ⟨_, rfl⟩ := Option.ite_some_none_eq_some.mp hrest
    exact h.passBegin hp
  | passWrite p answered expiresAt =>
    obtain ⟨process, hp, hrest⟩ := bind_eq_some_iff.mp hstep
    split at hrest
    · rename_i job status rest stage hpass
      cases hrest
      exact (h.passWrite hp hpass answered expiresAt).1
    · cases hrest
  | passEnd p =>
    obtain ⟨process, hp, hrest⟩ := bind_eq_some_iff.mp hstep
    split at hrest
    · cases hrest
      have hknows := ProcessKnows.ofProcess? h hp
      exact h.setProcess hp rfl { hknows with pass := (fun pass hpass => by cases hpass) }
    · cases hrest
  | recoverRead p =>
    obtain ⟨process, hp, rfl⟩ := map_eq_some_iff.mp hstep
    exact h.recoverRead hp
  | recoverApply p group answered =>
    obtain ⟨process, hp, hrest⟩ := bind_eq_some_iff.mp hstep
    obtain ⟨condemned, hgroup, rfl⟩ := map_eq_some_iff.mp hrest
    exact h.recoverApply hp hgroup answered
  | heartbeat p =>
    obtain ⟨_, rfl⟩ := Option.ite_some_none_eq_some.mp hstep
    exact h.setTables (.ofJobs rfl) (h.lapsed.heartbeat rfl rfl)
  | release p =>
    obtain ⟨_, rfl⟩ := Option.ite_some_none_eq_some.mp hstep
    exact h.setTables (.ofJobs rfl) (h.lapsed.remove (fun reg hreg => mem_of_mem_filter hreg) rfl)
  | prune =>
    cases hstep
    exact h.setTables (.ofJobs rfl) (h.lapsed.remove (fun reg hreg => mem_of_mem_filter hreg) rfl)
  | deleteExpired =>
    cases hstep
    exact h.setTables (deleteExpired_advances s.tables) (h.lapsed.of rfl rfl rfl)
  | exit p =>
    obtain ⟨process, hp, rfl⟩ := map_eq_some_iff.mp hstep
    have hknows := ProcessKnows.ofProcess? h hp
    exact h.setProcess hp rfl { hknows with }
  | land i =>
    obtain ⟨statement, hi, rfl⟩ := map_eq_some_iff.mp hstep
    exact h.land hi

end State

end LogLake.Jobs
