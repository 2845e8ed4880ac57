import LogLake.Lemmas.Ledger
import LogLake.Catalog.Drain

/-! # Evidence that is still needed -/

namespace LogLake.Catalog

open List ConsumedProof Option

variable {tenant indexId : Text} {maxAge : Int}

/-- The row of the claim is committed, or the claim was made after its registration and after every candidate of a
transaction that does not mark the row. -/
def Stamped (tenant indexId : Text) (ledger : Ledger) (candidates : List Candidate) (claim : ClaimedSegment) : Prop :=
  ∃ row, ledger.row claim.id = some row ∧ row.tenant = tenant ∧ row.indexId = indexId ∧
    (row.status = .committed ∨
      row.registeredAt ≤ claim.claimedAt ∧ ∀ c ∈ candidates, c.through < claim.claimedAt ∨ claim.id ∈ c.marks)

/-- The boundary is a candidate whose transaction has committed its marks. -/
def Covered (ledger : Ledger) (candidates : List Candidate) (boundary : Int) : Prop :=
  ∃ c ∈ candidates, c.through = boundary ∧ ∀ id ∈ c.marks, Terminal ledger id

theorem Terminal.moves {before after : Ledger} {id : Text} (h : Terminal before id) (hmoves : Ledger.Moves before after) :
    Terminal after id := by
  obtain ⟨row, hrow, hcommitted⟩ := h
  obtain ⟨row', hrow', -, -, -, hkept⟩ := hmoves id row hrow
  exact ⟨row', hrow', hkept hcommitted⟩

variable {candidates : List Candidate} {claim : ClaimedSegment}

theorem Covered.moves {before after : Ledger} {boundary : Int} (h : Covered before candidates boundary)
    (hmoves : Ledger.Moves before after) : Covered after candidates boundary := by
  obtain ⟨c, hc, hthrough, hmarks⟩ := h
  exact ⟨c, hc, hthrough, fun id hid => (hmarks id hid).moves hmoves⟩

theorem Stamped.moves {before after : Ledger}
    (h : Stamped tenant indexId before candidates claim) (hmoves : Ledger.Moves before after) :
    Stamped tenant indexId after candidates claim := by
  obtain ⟨row, hrow, htenant, hindex, hclaim⟩ := h
  obtain ⟨row', hrow', htenant', hindex', hregistered, hkept⟩ := hmoves claim.id row hrow
  refine ⟨row', hrow', htenant'.trans htenant, hindex'.trans hindex, ?_⟩
  rcases hclaim with hcommitted | hafter
  · exact .inl (hkept hcommitted)
  · exact .inr (by rwa [hregistered])

theorem Marking.moves_apply (m : Marking) (ledger : Ledger) : Ledger.Moves ledger (m.apply ledger) := by
  intro id row hrow
  refine ⟨_, by unfold Marking.apply; rw [KeyedTable.row_update, hrow, map_some], ?_⟩
  split
  · exact ⟨rfl, rfl, rfl, fun _ => rfl⟩
  · exact ⟨rfl, rfl, rfl, fun hcommitted => hcommitted⟩

/-- Seen from inside, the transaction that a drain opens has run the statement of `mark_committed_batch`. -/
theorem Marking.apply_eq_markCommitted (claimer : Text) (now : Int) (ids : List Text) (ledger : Ledger) :
    Marking.apply ⟨(ledger.rows.filter fun row => row.id ∈ ids ∧ row.ClaimedBy claimer).map Row.id, now, false, .updated⟩
      ledger = markCommitted claimer now ids ledger := by
  unfold Marking.apply markCommitted
  convert KeyedTable.update_matched ledger (fun row => row.id ∈ ids ∧ row.ClaimedBy claimer)
    (fun row => { row with status := .committed, committedAt := some now }) fun _ => rfl
  exact if_neg Bool.false_ne_true

/-- Seen from inside, the transaction that a sweep opens has run the statement of `mark_reclaimed_committed`. -/
theorem Marking.apply_eq_markReclaimed (now : Int) (ids : List Text) (ledger : Ledger) :
    Marking.apply ⟨(ledger.rows.filter fun row => row.id ∈ ids ∧ row.status = .processing).map Row.id, now, true, .updated⟩
      ledger = markReclaimed now ids ledger := by
  unfold Marking.apply markReclaimed
  convert KeyedTable.update_matched ledger (fun row => row.id ∈ ids ∧ row.status = .processing)
    (fun row => { row with status := .committed, committedAt := some now, claimer := none }) fun _ => rfl
  exact if_pos rfl

theorem Marking.terminal_apply (m : Marking) {ledger : Ledger} {id : Text} (hid : id ∈ m.ids)
    (hrow : ∃ row, ledger.row id = some row) : Terminal (m.apply ledger) id := by
  obtain ⟨row, hrow⟩ := hrow
  have hmarked : row.id ∈ m.ids := by rwa [KeyedTable.key_of_row hrow]
  exact ⟨_, KeyedTable.row_update_of_pos hrow hmarked, rfl⟩

/-- A candidate lies before the registration of every row that its transaction does not see as committed. -/
theorem Stamped.select {ledger : Ledger} {m : Marking} {through : Int} (h : Stamped tenant indexId ledger candidates claim)
    (hthrough : watermarkCandidate tenant indexId (m.apply ledger) = some through) :
    Stamped tenant indexId ledger (candidates ++ [⟨through, m.ids⟩]) claim := by
  obtain ⟨row, hrow, htenant, hindex, hclaim⟩ := h
  refine ⟨row, hrow, htenant, hindex, ?_⟩
  by_cases hcommitted : row.status = .committed
  · exact .inl hcommitted
  · obtain ⟨hregistered, hafter⟩ := hclaim.resolve_left hcommitted
    refine .inr ⟨hregistered, fun c hc => ?_⟩
    rcases mem_append.mp hc with hc | hc
    · exact hafter c hc
    · rw [mem_singleton.mp hc]
      by_cases hmarked : claim.id ∈ m.ids
      · exact .inr hmarked
      · left
        have hseen : (m.apply ledger).row claim.id = some row :=
          KeyedTable.row_update_of_not hrow (by rwa [KeyedTable.key_of_row hrow])
        have hlt := watermarkCandidate_lt hthrough (KeyedTable.row_eq_some.mp hseen).1 htenant hindex hcommitted
        dsimp only
        omega

theorem Stamped.terminal_or_lt {ledger : Ledger} {published : List Int}
    (h : Stamped tenant indexId ledger candidates claim) (hpublished : ∀ w ∈ published, Covered ledger candidates w) :
    Terminal ledger claim.id ∨ ∀ w ∈ published, w < claim.claimedAt := by
  obtain ⟨row, hrow, -, -, hcommitted | ⟨-, hafter⟩⟩ := h
  · exact .inl ⟨row, hrow, hcommitted⟩
  · by_cases hterminal : Terminal ledger claim.id
    · exact .inl hterminal
    · refine .inr fun w hw => ?_
      obtain ⟨c, hc, rfl, hmarks⟩ := hpublished w hw
      exact (hafter c hc).resolve_right fun hmarked => hterminal (hmarks _ hmarked)

/-! ## One commit of the proof -/

theorem ok_of_toOption {ε α : Type*} {e : Except ε α} {a : α} (h : e.toOption = some a) : e = .ok a := by
  cases e with
  | error _ => cases h
  | ok b => rw [Option.some.inj h]

theorem basename_injective {a b : Text} (h : basename a = basename b) : a = b := append_cancel_right h

theorem catalogId_basename (id : Text) : catalogId (basename id) = id := by
  unfold catalogId basename
  rw [mem_stripSuffix.mpr rfl, getD_some]

variable {action : MergeConsumedProof}

theorem MergeConsumedProof.commit_spec {property : Option ConsumedProof}
    {snapshots : List ProofSnapshot} {proof' : ConsumedProof} (h : action.commit property snapshots = .ok proof')
    (hfresh : property = none → snapshots = []) :
    (∀ e ∈ proof'.entries.rows, (∃ proof, property = some proof ∧ e ∈ proof.entries.rows) ∨ e ∈ action.additions) ∧
    (∀ e ∈ action.additions, proof'.contains e.segmentId = true) ∧
    (∀ proof, property = some proof → ∀ e ∈ proof.entries.rows, e.segmentId ∉ action.terminal →
      (∀ a ∈ proof'.acknowledgedThrough, a < e.claimedAt) → proof'.contains e.segmentId = true) ∧
    (∀ a ∈ proof'.acknowledgedThrough,
      (∃ proof, property = some proof ∧ a ∈ proof.acknowledgedThrough) ∨ a ∈ action.acknowledgedThrough) := by
  obtain ⟨base, hbase, hold⟩ : ∃ base, property.elim (seedFromRetainedHistory snapshots) .ok = .ok base ∧
      (property = some base ∨ property = none ∧ base = empty none) := by
    cases property with
    | none =>
      rw [hfresh rfl]
      exact ⟨_, rfl, Or.inr ⟨rfl, rfl⟩⟩
    | some proof => exact ⟨proof, rfl, Or.inl rfl⟩
  have hrows : ∀ e ∈ base.entries.rows, ∃ proof, property = some proof ∧ e ∈ proof.entries.rows := by
    intro e he
    rcases hold with hsome | ⟨-, rfl⟩
    · exact ⟨base, hsome, he⟩
    · cases he
  have hacks : ∀ a ∈ base.acknowledgedThrough, ∃ proof, property = some proof ∧ a ∈ proof.acknowledgedThrough := by
    intro a ha
    rcases hold with hsome | ⟨-, rfl⟩
    · exact ⟨base, hsome, ha⟩
    · cases ha
  unfold MergeConsumedProof.commit at h
  rw [hbase] at h
  obtain ⟨hmem, hcontains, hack⟩ := foldlM_insert h
  refine ⟨?_, fun e he => hcontains _ (.inr ⟨e, he, rfl⟩), ?_, ?_⟩
  · intro e he
    rcases hmem e he with hpruned | haddition
    · refine .inl (hrows e ?_)
      have hcompacted := (mem_pruneTerminalEntries.mp hpruned).1
      cases hthrough : action.acknowledgedThrough with
      | none => rwa [hthrough] at hcompacted
      | some through =>
        rw [hthrough] at hcompacted
        exact (mem_compactThrough.mp hcompacted).1
    · exact .inr haddition
  · intro proof hproof e he hterminal hlt
    obtain rfl : base = proof := by
      rcases hold with hsome | ⟨hnone, -⟩
      · exact Option.some.inj (hsome.symm.trans hproof)
      · rw [hnone] at hproof
        cases hproof
    apply hcontains
    refine .inl (contains_iff.mpr ⟨e, mem_pruneTerminalEntries.mpr ⟨?_, hterminal⟩, rfl⟩)
    rw [hack] at hlt
    cases hthrough : action.acknowledgedThrough with
    | none => exact he
    | some through =>
      rw [hthrough] at hlt
      exact mem_compactThrough.mpr ⟨he, hlt⟩
  · intro a ha
    rw [hack] at ha
    cases hthrough : action.acknowledgedThrough with
    | none =>
      rw [hthrough] at ha
      exact .inl (hacks a ha)
    | some through =>
      rw [hthrough] at ha
      rcases acknowledgedThrough_compactThrough ha with hold | rfl
      · exact .inl (hacks a hold)
      · exact .inr rfl

/-! ## The invariant -/

/-- The rows of an open transaction exist, and its candidate is on record with them. -/
def Marking.Sound (s : DrainState) (m : Marking) : Prop :=
  (∀ id ∈ m.ids, ∃ row, s.ledger.row id = some row) ∧ ∀ through ∈ m.phase.candidate, ⟨through, m.ids⟩ ∈ s.candidates

/-- Every claim held or committed is stamped, boundaries in use were published by transactions whose marks are committed,
entries in use for pruning are terminal, the proof consists of committed claims, and it has what is not terminal. -/
structure Evidence (tenant indexId : Text) (s : DrainState) : Prop where
  held : ∀ p, ∀ claim ∈ (s.clients p).held, Stamped tenant indexId s.ledger s.candidates claim
  marking : ∀ p, ∀ m ∈ (s.clients p).marking, m.Sound s
  published : ∀ w ∈ s.published, Covered s.ledger s.candidates w
  boundary : ∀ p, ∀ b ∈ (s.clients p).boundary, b ∈ s.published
  terminal : ∀ p, ∀ name ∈ (s.clients p).terminal, Terminal s.ledger (catalogId name)
  watermark : ∀ w ∈ s.watermark, w.acknowledgedThrough ∈ s.published
  appended : ∀ claim ∈ s.appended, Stamped tenant indexId s.ledger s.candidates claim
  acknowledged : ∀ proof ∈ s.proof, ∀ a ∈ proof.acknowledgedThrough, a ∈ s.published
  entries : ∀ proof ∈ s.proof, ∀ e ∈ proof.entries.rows, ∃ claim ∈ s.appended, e = ⟨basename claim.id, claim.claimedAt⟩
  proven : ∀ claim ∈ s.appended, Terminal s.ledger claim.id ∨ ∃ proof ∈ s.proof, proof.contains (basename claim.id) = true
  fresh : s.proof = none → s.snapshots = []

theorem evidence_start (clock : Int) (ledger : Ledger) : Evidence tenant indexId (DrainState.start clock ledger) where
  held _ _ h := by cases h
  marking _ _ h := by cases h
  published _ h := by cases h
  boundary _ _ h := by cases h
  terminal _ _ h := by cases h
  watermark _ h := by cases h
  appended _ h := by cases h
  acknowledged _ h := by cases h
  entries _ h := by cases h
  proven _ h := by cases h
  fresh _ := rfl

variable {s : DrainState}

theorem forall_setClient {P : Text → Client → Prop} {p : Text} {c : Client} (hnew : P p c) (hold : ∀ q, P q (s.clients q)) :
    ∀ q, P q ((s.setClient p c).clients q) :=
  (Function.forall_update_iff s.clients P).mpr ⟨hnew, fun q _ => hold q⟩

namespace Evidence

section

variable (h : Evidence tenant indexId s)
include h

theorem ledger {after : Ledger} (hmoves : Ledger.Moves s.ledger after) :
    Evidence tenant indexId { s with ledger := after } where
  __ := h
  held p claim hclaim := (h.held p claim hclaim).moves hmoves
  marking p m hm := by
    obtain ⟨hrows, hcandidate⟩ := h.marking p m hm
    refine ⟨fun id hid => ?_, hcandidate⟩
    obtain ⟨row, hrow⟩ := hrows id hid
    obtain ⟨row', hrow', -⟩ := hmoves id row hrow
    exact ⟨row', hrow'⟩
  published w hw := (h.published w hw).moves hmoves
  terminal p name hname := (h.terminal p name hname).moves hmoves
  appended claim hclaim := (h.appended claim hclaim).moves hmoves
  proven claim hclaim := (h.proven claim hclaim).imp (·.moves hmoves) id

theorem setClient (p : Text) {c : Client} (hheld : ∀ claim ∈ c.held, Stamped tenant indexId s.ledger s.candidates claim)
    (hmarking : ∀ m ∈ c.marking, m.Sound s) (hboundary : ∀ b ∈ c.boundary, b ∈ s.published)
    (hterminal : ∀ name ∈ c.terminal, Terminal s.ledger (catalogId name)) : Evidence tenant indexId (s.setClient p c) := by
  refine { h with held := ?_, marking := ?_, boundary := ?_, terminal := ?_ }
  · exact forall_setClient (P := fun _ c => ∀ claim ∈ c.held, Stamped tenant indexId s.ledger s.candidates claim) hheld h.held
  · exact forall_setClient (P := fun _ c => ∀ m ∈ c.marking, m.Sound s) hmarking h.marking
  · exact forall_setClient (P := fun _ c => ∀ b ∈ c.boundary, b ∈ s.published) hboundary h.boundary
  · exact forall_setClient (P := fun _ c => ∀ name ∈ c.terminal, Terminal s.ledger (catalogId name)) hterminal h.terminal

theorem setClient_of_subset (p : Text) {c : Client}
    (hheld : ∀ claim ∈ c.held, claim ∈ (s.clients p).held) (hmarking : ∀ m ∈ c.marking, m.Sound s)
    (hboundary : c.boundary = (s.clients p).boundary) (hterminal : c.terminal = (s.clients p).terminal) :
    Evidence tenant indexId (s.setClient p c) :=
  h.setClient p (fun claim hclaim => h.held p claim (hheld claim hclaim)) hmarking (hboundary ▸ h.boundary p)
    (hterminal ▸ h.terminal p)

theorem openMark {matched : Row → Bool} {now : Int} {reclaimed : Bool} {p : Text} {c : Client} {s' : DrainState}
    (hopen : s.openMark matched now reclaimed p c = some s') (hheld : c.held = (s.clients p).held)
    (hboundary : c.boundary = (s.clients p).boundary) (hterminal : c.terminal = (s.clients p).terminal) :
    Evidence tenant indexId s' := by
  obtain ⟨-, rfl⟩ := Option.ite_some_none_eq_some.mp hopen
  have hlocked : Evidence tenant indexId { s with locked := s.locked ++ (s.ledger.rows.filter matched).map Row.id } :=
    { h with }
  refine hlocked.setClient_of_subset p (fun claim hclaim => hheld ▸ hclaim) ?_ hboundary hterminal
  rintro _ ⟨⟩
  refine ⟨fun id hid => ?_, nofun⟩
  obtain ⟨row, hrow, rfl⟩ := mem_map.mp hid
  exact ⟨row, KeyedTable.row_eq_some.mpr ⟨mem_of_mem_filter hrow, rfl⟩⟩

/-- A candidate is selected: every claim so far keeps clear of it. -/
theorem selectCandidate (m : Marking) : Evidence tenant indexId { s with
    candidates := s.candidates ++ ((watermarkCandidate tenant indexId (m.apply s.ledger)).map
      fun through => Candidate.mk through m.ids).toList } := by
  cases hcandidate : watermarkCandidate tenant indexId (m.apply s.ledger) with
  | none =>
    rw [map_none, toList_none, append_nil]
    exact h
  | some through =>
    rw [map_some, toList_some]
    refine { h with held := ?_, marking := ?_, published := ?_, appended := ?_ }
    · exact fun p claim hclaim => (h.held p claim hclaim).select hcandidate
    · exact fun p m hm => ⟨(h.marking p m hm).1, fun w hw => mem_append_left _ ((h.marking p m hm).2 w hw)⟩
    · intro w hw
      obtain ⟨c, hc, hthrough, hmarks⟩ := h.published w hw
      exact ⟨c, mem_append_left _ hc, hthrough, hmarks⟩
    · exact fun claim hclaim => (h.appended claim hclaim).select hcandidate

/-- A boundary is written: the candidate of the transaction, whose marks are committed with it. -/
theorem commitMark {m : Marking} (hm : m.Sound s) (verified : Option Text) (current : Option ConsumedProofWatermark) :
    Evidence tenant indexId (s.commitMark m verified m.phase.candidate current) := by
  have hmarked := h.ledger (m.moves_apply s.ledger)
  have hstored : ∀ w ∈ advanceWatermark verified m.phase.candidate current s.watermark,
      Covered (m.apply s.ledger) s.candidates w.acknowledgedThrough := by
    intro w hw
    rcases advanceWatermark_eq_some hw with hstored | hcandidate
    · exact hmarked.published _ (h.watermark w hstored)
    · exact ⟨_, hm.2 _ hcandidate, rfl, fun id hid => m.terminal_apply hid (hm.1 id hid)⟩
  have hsub : ∀ b ∈ s.published, b ∈ (s.commitMark m verified m.phase.candidate current).published :=
    fun b hb => mem_append_left _ hb
  refine { hmarked with published := ?_, boundary := ?_, watermark := ?_, acknowledged := ?_ }
  · intro w hw
    rcases mem_append.mp hw with hw | hw
    · exact hmarked.published w hw
    · obtain ⟨watermark, hwatermark, rfl⟩ := map_eq_some_iff.mp (mem_toList.mp hw)
      exact hstored watermark hwatermark
  · exact fun p b hb => hsub b (h.boundary p b hb)
  · intro w hw
    exact mem_append_right _ (mem_toList.mpr (map_eq_some_iff.mpr ⟨w, hw, rfl⟩))
  · exact fun proof hproof a ha => hsub a (h.acknowledged proof hproof a ha)

theorem merge {proof' : ConsumedProof}
    (hcommit : action.commit s.proof s.snapshots = .ok proof') {claims : List ClaimedSegment}
    (hadditions : action.additions = claims.map fun claim => ⟨basename claim.id, claim.claimedAt⟩)
    (hclaims : ∀ claim ∈ claims, Stamped tenant indexId s.ledger s.candidates claim)
    (hboundary : ∀ b ∈ action.acknowledgedThrough, b ∈ s.published)
    (hterminal : ∀ name ∈ action.terminal, Terminal s.ledger (catalogId name)) (snapshots : List ProofSnapshot) :
    Evidence tenant indexId { s with proof := some proof', snapshots := snapshots, appended := s.appended ++ claims } := by
  obtain ⟨hmem, hnew, hkept, hack⟩ := action.commit_spec hcommit h.fresh
  have hacked : ∀ a ∈ proof'.acknowledgedThrough, a ∈ s.published := by
    intro a ha
    rcases hack a ha with ⟨proof, hproof, ha⟩ | ha
    · exact h.acknowledged proof hproof a ha
    · exact hboundary a ha
  refine ⟨h.held, h.marking, h.published, h.boundary, h.terminal, h.watermark, ?_, ?_, ?_, ?_, fun hnone => by cases hnone⟩
  · intro claim hclaim
    rcases mem_append.mp hclaim with hclaim | hclaim
    · exact h.appended claim hclaim
    · exact hclaims claim hclaim
  · intro proof hproof
    cases hproof
    exact hacked
  · intro proof hproof e he
    cases hproof
    rcases hmem e he with ⟨proof, hproof, he⟩ | he
    · obtain ⟨claim, hclaim, heq⟩ := h.entries proof hproof e he
      exact ⟨claim, mem_append_left _ hclaim, heq⟩
    · rw [hadditions] at he
      obtain ⟨claim, hclaim, heq⟩ := mem_map.mp he
      exact ⟨claim, mem_append_right _ hclaim, heq.symm⟩
  · intro claim hclaim
    rcases mem_append.mp hclaim with hclaim | hclaim
    · rcases h.proven claim hclaim with hdone | ⟨proof, hproof, hcontains⟩
      · exact .inl hdone
      · -- The entry of an old claim is dropped only when its row is committed.
        obtain ⟨e, he, hname⟩ := contains_iff.mp hcontains
        obtain ⟨other, hother, heq⟩ := h.entries proof hproof e he
        have hid : other.id = claim.id := basename_injective (by rw [← hname, heq])
        rcases (h.appended other hother).terminal_or_lt h.published with hdone | hlt
        · exact .inl (hid ▸ hdone)
        · by_cases hpruned : e.segmentId ∈ action.terminal
          · left
            have hdone := hterminal _ hpruned
            rwa [hname, catalogId_basename] at hdone
          · refine .inr ⟨proof', rfl, hname ▸ hkept proof hproof e he hpruned ?_⟩
            intro a ha
            rw [heq]
            exact hlt a (hacked a ha)
    · refine .inr ⟨proof', rfl, ?_⟩
      apply hnew ⟨basename claim.id, claim.claimedAt⟩
      rw [hadditions]
      exact mem_map.mpr ⟨claim, hclaim, rfl⟩

end

theorem stamped_of_claimable {p : Text} {ids : List Text} (hsafe : ClaimSafe tenant indexId s (.claim p ids)) {row : Row}
    (hrow : row ∈ s.claimable tenant indexId ids) :
    Stamped tenant indexId s.ledger s.candidates (row.claimed (s.clients p).reading) := by
  obtain ⟨hregistered, hafter⟩ := hsafe row hrow
  unfold DrainState.claimable at hrow
  rw [mem_filter, decide_eq_true_eq] at hrow
  obtain ⟨hmem, -, -, htenant, hindex⟩ := hrow
  exact ⟨row, KeyedTable.row_eq_some.mpr ⟨hmem, rfl⟩, htenant, hindex,
    Or.inr ⟨hregistered, fun c hc => Or.inl (hafter c hc)⟩⟩

theorem terminal_of_mem_terminalEntries {name : Text} (h : name ∈ terminalEntries s.proof tenant indexId s.ledger) :
    Terminal s.ledger (catalogId name) := by
  unfold terminalEntries at h
  rw [mem_filter, Option.any_eq_true] at h
  obtain ⟨-, row, hrow, hstatus⟩ := h
  exact ⟨row, hrow, (of_decide_eq_true hstatus).2.2⟩

theorem step (h : Evidence tenant indexId s) {a : DrainAction} {s' : DrainState} (hsafe : ClaimSafe tenant indexId s a)
    (hstep : drainStep tenant indexId maxAge s a = some s') : Evidence tenant indexId s' := by
  cases a with
  | tick ms =>
    cases hstep
    exact { h with }
  | read p | list p limit =>
    cases hstep
    exact h.setClient_of_subset p (fun _ hclaim => hclaim) (h.marking p) rfl rfl
  | register p id segmentUrl bytes rows =>
    cases hstep
    exact h.ledger (moves_register _ _ _ _ _ _ _ _)
  | begin p =>
    cases hstep
    exact h.setClient p (fun _ hclaim => by cases hclaim) (h.marking p) (fun _ hb => by cases hb)
      (fun _ hname => by cases hname)
  | claim p ids =>
    obtain ⟨-, rfl⟩ := Option.ite_some_none_eq_some.mp hstep
    have hmoves := moves_claimRows s.ledger p (s.clients p).reading ids
    refine (h.ledger hmoves).setClient p ?_ ((h.ledger hmoves).marking p) (h.boundary p) fun name hname =>
      (h.terminal p name hname).moves hmoves
    intro claim hclaim
    rcases mem_append.mp hclaim with hclaim | hclaim
    · exact (h.held p claim hclaim).moves hmoves
    · obtain ⟨row, hrow, rfl⟩ := mem_map.mp hclaim
      exact (stamped_of_claimable hsafe hrow).moves hmoves
  | release p id =>
    obtain ⟨-, rfl⟩ := Option.ite_some_none_eq_some.mp hstep
    have hreleased := h.ledger (moves_releaseWithBackoff s.ledger p (s.clients p).reading releaseMaxAttempts id)
    exact hreleased.setClient_of_subset p (fun _ => mem_of_mem_filter) (hreleased.marking p) rfl rfl
  | quarantine p id =>
    obtain ⟨-, rfl⟩ := Option.ite_some_none_eq_some.mp hstep
    have hset := h.ledger (moves_quarantineTerminal s.ledger p id)
    exact hset.setClient_of_subset p (fun _ => mem_of_mem_filter) (hset.marking p) rfl rfl
  | requeueQuarantined =>
    cases hstep
    exact h.ledger (moves_requeueQuarantined _)
  | readBoundary p verified =>
    cases hstep
    refine h.setClient p (h.held p) (h.marking p) ?_ (h.terminal p)
    intro b hb
    obtain ⟨w, hw, rfl⟩ := map_eq_some_iff.mp hb
    exact h.watermark w (eq_some_of_filter_eq_some hw)
  | readTerminal p =>
    cases hstep
    exact h.setClient p (h.held p) (h.marking p) (h.boundary p) fun name hname => terminal_of_mem_terminalEntries hname
  | commit p ids =>
    obtain ⟨proof', hcommit, rfl⟩ := map_eq_some_iff.mp hstep
    have hheld : ∀ claim ∈ (s.clients p).held.filter fun claim => claim.id ∈ ids,
        Stamped tenant indexId s.ledger s.candidates claim :=
      fun claim hclaim => h.held p claim (mem_of_mem_filter hclaim)
    exact (h.merge (ok_of_toOption hcommit) rfl hheld (h.boundary p) (h.terminal p) _).setClient_of_subset p
      (fun _ => mem_of_mem_filter) (h.marking p) rfl rfl
  | mark p =>
    unfold drainStep at hstep
    dsimp only at hstep
    split at hstep
    · cases hstep
    · exact h.openMark hstep rfl rfl rfl
  | compact p =>
    obtain ⟨boundary, hboundary, hmap⟩ := bind_eq_some_iff.mp hstep
    obtain ⟨proof', hcommit, rfl⟩ := map_eq_some_iff.mp hmap
    have hpublished : ∀ b ∈ some boundary, b ∈ s.published := fun b hb => h.boundary p b (hboundary.trans hb)
    have hmerged : Evidence tenant indexId
        { s with proof := some proof', snapshots := s.snapshots, appended := s.appended ++ [] } :=
      h.merge (ok_of_toOption hcommit) rfl (fun _ hclaim => by cases hclaim) hpublished (h.terminal p) s.snapshots
    rwa [append_nil] at hmerged
  | expire n =>
    cases hstep
    refine { h with fresh := fun hnone => ?_ }
    change s.snapshots.drop n = []
    rw [h.fresh hnone, drop_nil]
  | prove p readable =>
    unfold drainStep at hstep
    dsimp only at hstep
    split at hstep
    · cases hstep
      exact h.setClient_of_subset p (fun _ hclaim => hclaim) (h.marking p) rfl rfl
    · cases hstep
  | markReclaimed p =>
    unfold drainStep at hstep
    dsimp only at hstep
    split at hstep
    · exact h.openMark hstep rfl rfl rfl
    · cases hstep
  | selectCandidate p =>
    unfold drainStep at hstep
    dsimp only at hstep
    split at hstep
    · next ids now reclaimed hmarking =>
      cases hstep
      refine (h.selectCandidate ⟨ids, now, reclaimed, .updated⟩).setClient_of_subset p (fun _ hclaim => hclaim) ?_ rfl rfl
      rintro _ ⟨⟩
      refine ⟨(h.marking p _ hmarking).1, fun through hthrough => ?_⟩
      exact mem_append_right _ (mem_toList.mpr (map_eq_some_iff.mpr ⟨through, hthrough, rfl⟩))
    · cases hstep
  | readWatermark p =>
    unfold drainStep at hstep
    dsimp only at hstep
    split at hstep
    · next ids now reclaimed candidate hmarking =>
      cases hstep
      refine h.setClient_of_subset p (fun _ hclaim => hclaim) ?_ rfl rfl
      rintro _ ⟨⟩
      obtain ⟨hrows, hcandidate⟩ := h.marking p _ hmarking
      exact ⟨hrows, hcandidate⟩
    · cases hstep
  | commitMark p verified =>
    unfold drainStep at hstep
    dsimp only at hstep
    split at hstep
    · next ids now reclaimed candidate current hmarking =>
      cases hstep
      exact (h.commitMark (h.marking p _ hmarking) verified current).setClient_of_subset p (fun _ hclaim => hclaim) nofun rfl
        rfl
    · cases hstep
  | rollback p =>
    obtain ⟨m, -, rfl⟩ := map_eq_some_iff.mp hstep
    have hunlocked : Evidence tenant indexId { s with locked := s.unlock m.ids } := { h with }
    exact hunlocked.setClient_of_subset p (fun _ hclaim => hclaim) nofun rfl rfl
  | requeue p =>
    unfold drainStep at hstep
    dsimp only at hstep
    split at hstep
    · next claim rest _ =>
      obtain ⟨-, rfl⟩ := Option.ite_some_none_eq_some.mp hstep
      have hqueued := h.ledger (moves_requeueClaim s.ledger claim.id)
      exact hqueued.setClient_of_subset p (fun _ hclaim => hclaim) (hqueued.marking p) rfl rfl
    · cases hstep

end Evidence

end LogLake.Catalog
