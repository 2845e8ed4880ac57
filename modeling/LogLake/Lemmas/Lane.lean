import LogLake.Ingest.Lane
import LogLake.Lemmas.Writer

/-! # The steps of a lane -/

namespace LogLake.Ingest

open List Option Wal

variable {ρ : Type}

/-! ## The moves -/

/-- A lane that has no group, or one that has not begun. -/
def LanePhase.Fresh (lane : LanePhase ρ) : Prop :=
  ∀ g, lane = .appending g → g.done = [] ∧ g.sealed = none

inductive DrainMove (inIceberg : Bool) : Place → Place → Prop where
  | claim : DrainMove inIceberg .sealed .processing
  | release : DrainMove inIceberg .processing .sealed
  | quarantine (source : Place) (h : source = .sealed ∨ source = .processing) : DrainMove inIceberg source .quarantined
  | finish (h : inIceberg = true) : DrainMove inIceberg .processing .committed

/-- What a look of a waiting request finds. -/
inductive Look (wal : Wal ρ) (i : Nat) : WaitPhase → WaitPhase → Prop where
  | inSealed : Look wal i .polling .polling
  | notInSealed (h : wal.isAt i .sealed = false) : Look wal i .polling .sealedAbsent
  | inProcessing : Look wal i .sealedAbsent .polling
  | notInProcessing (h : wal.isAt i .processing = false) : Look wal i .sealedAbsent .ok
  | timeout : Look wal i .polling .failed

inductive LaneMove (maxEvents : Nat) (s : LaneState ρ) : LaneAction ρ → LaneState ρ → Prop where
  | queue (a : LaneAction ρ) (queue : List (LaneCommand ρ)) : LaneMove maxEvents s a { s with queue := queue }
  | work (a : LaneAction ρ) (wal : Wal ρ) (queue : List (LaneCommand ρ)) (lane : LanePhase ρ)
      (hwal : s.wal.WellFormed → s.wal.Extends wal) (hlane : lane.Fresh) :
      LaneMove maxEvents s a { s with wal := wal, queue := queue, lane := lane }
  | skip (aged : Bool) (done todo : List (WriteCommand ρ)) (c : WriteCommand ρ) (sealed : Option Nat)
      (rebind : Option (Option Nat)) (tick : Bool) (hlane : s.lane = .appending ⟨done, c :: todo, sealed, rebind, tick⟩)
      (hrows : c.rows = []) :
      LaneMove maxEvents s (.append aged) { s with lane := .appending ⟨done ++ [c], todo, sealed, rebind, tick⟩ }
  | append (aged : Bool) (done todo : List (WriteCommand ρ)) (c : WriteCommand ρ) (sealed : Option Nat)
      (rebind : Option (Option Nat)) (tick : Bool) (hlane : s.lane = .appending ⟨done, c :: todo, sealed, rebind, tick⟩)
      (hrows : c.rows ≠ []) :
      LaneMove maxEvents s (.append aged)
        { s with
          wal := (s.wal.appendBatch maxEvents aged c.rows).1
          lane := .appending ⟨done ++ [c], todo, (s.wal.appendBatch maxEvents aged c.rows).2, rebind, tick⟩ }
  | reply (g : Group ρ) (hlane : s.lane = .appending g) (htodo : g.todo = []) :
      LaneMove maxEvents s .reply
        { s with
          wal := (commitGroup g.mode g.sealed s.wal).1
          lane := .answered g.rebind g.tick
          answered := s.answered ++ g.done
          waiters := s.waiters ++
            (g.done.filter fun c => c.mode = .force).map (newWaiter (commitGroup g.mode g.sealed s.wal).2) }
  | drain (a : LaneAction ρ) (i : Nat) (seg : Segment ρ) (target : Place) (hseg : s.wal.segments[i]? = some seg)
      (hmove : DrainMove seg.inIceberg seg.place target) (hrelease : target = .sealed → a = .release i)
      (hquarantine : target = .quarantined → ∃ source, a = .quarantine source i) :
      LaneMove maxEvents s a { s with wal := s.wal.update i fun seg => { seg with place := target } }
  | commit (i : Nat) :
      LaneMove maxEvents s (.commitIceberg i) { s with wal := s.wal.update i fun seg => { seg with inIceberg := true } }
  | look (a : LaneAction ρ) (k i : Nat) (w : Waiter ρ) (next : WaitPhase) (hw : s.waiters[k]? = some w)
      (hsegment : w.segment = some i) (hlook : Look s.wal i w.phase next) :
      LaneMove maxEvents s a { s with waiters := s.waiters.modify k fun w => { w with phase := next } }

variable {source target : Place}

theorem DrainMove.source_ne_active {inIceberg : Bool} (h : DrainMove inIceberg source target) : source ≠ .active := by
  cases h with
  | claim | release | finish _ => exact fun h' => nomatch h'
  | quarantine _ hsource => rcases hsource with rfl | rfl <;> exact fun h' => nomatch h'

theorem DrainMove.inIceberg_of_committed {inIceberg : Bool} (h : DrainMove inIceberg source .committed) :
    inIceberg = true := by
  cases h with
  | finish hin => exact hin

variable {w : Wal ρ} {i : Nat}

theorem Wal.move_eq_some {w' : Wal ρ} (h : w.move source target i = some w') :
    ∃ seg, w.segments[i]? = some seg ∧ seg.place = source ∧ w' = w.update i fun seg => { seg with place := target } := by
  obtain ⟨seg, hseg, h⟩ := bind_eq_some_iff.mp h
  obtain ⟨hplace, h⟩ := ite_none_right_eq_some.mp h
  exact ⟨seg, hseg, hplace, (some.inj h).symm⟩

variable {s s' : LaneState ρ}

theorem LaneState.advance_eq_some {k : Nat} {phase : WaitPhase} {next : Wal ρ → Nat → WaitPhase}
    (h : s.advance k phase next = some s') : ∃ w i, s.waiters[k]? = some w ∧ w.segment = some i ∧ w.phase = phase ∧
      s' = { s with waiters := s.waiters.modify k fun w => { w with phase := next s.wal i } } := by
  obtain ⟨w, hw, h⟩ := bind_eq_some_iff.mp h
  obtain ⟨i, hi, h⟩ := bind_eq_some_iff.mp h
  obtain ⟨hphase, h⟩ := ite_none_right_eq_some.mp h
  exact ⟨w, i, hw, hi, hphase, (some.inj h).symm⟩

theorem laneStep_move {maxEvents : Nat} {a : LaneAction ρ} (h : laneStep maxEvents s a = some s') :
    LaneMove maxEvents s a s' := by
  cases a with
  | send command =>
    cases h
    exact .queue _ _
  | receive available =>
    simp only [laneStep] at h
    split at h
    · cases h
      refine .work _ s.wal _ _ .refl ?_
      rintro g ⟨⟩
      exact ⟨rfl, rfl⟩
    · cases h
      exact .work _ s.wal _ _ .refl fun _ h' => nomatch h'
    · cases h
      exact .work _ s.wal _ _ .refl fun _ h' => nomatch h'
    · cases h
      exact .queue _ _
    · nomatch h
  | append aged =>
    simp only [laneStep] at h
    split at h
    next done c todo sealed rebind tick hlane =>
      split at h
      · next hempty =>
        cases h
        exact .skip aged done todo c sealed rebind tick hlane (isEmpty_iff.mp hempty)
      · next hempty =>
        cases h
        exact .append aged done todo c sealed rebind tick hlane fun hnil => hempty (isEmpty_iff.mpr hnil)
    · nomatch h
  | appendFails failure =>
    simp only [laneStep] at h
    split at h
    next done c todo sealed rebind tick _ =>
      obtain ⟨-, rfl⟩ := Guard.stay h
      refine .work _ _ s.queue _ ?_ fun _ h' => nomatch h'
      intro hwf
      cases failure with
      | start => exact .refl hwf
      | write => exact extends_startSegment hwf
      | flush => exact extends_write hwf _
      | sealing renamed =>
        have hwrite := extends_write hwf c.rows
        exact hwrite.trans (extends_sealFails hwrite.wellFormed renamed)
    · nomatch h
  | reply =>
    simp only [laneStep] at h
    split at h
    next done sealed rebind tick hlane =>
      cases h
      exact .reply _ hlane rfl
    · nomatch h
  | replyFails failedSeal =>
    simp only [laneStep] at h
    split at h
    next done rebind tick _ =>
      cases h
      refine .work _ _ s.queue _ ?_ fun _ h' => nomatch h'
      intro hwf
      cases failedSeal with
      | none => exact .refl hwf
      | some renamed => exact extends_sealFails hwf renamed
    · nomatch h
  | rebind =>
    simp only [laneStep] at h
    split at h
    · cases h
      exact .work _ _ s.queue _ (fun hwf => extends_bindTableUuid hwf _) fun _ h' => nomatch h'
    · nomatch h
  | rebindFails renamed | tickFails renamed =>
    simp only [laneStep] at h
    split at h
    · cases h
      exact .work _ _ s.queue _ (fun hwf => extends_sealFails hwf _) fun _ h' => nomatch h'
    · nomatch h
  | tick aged =>
    simp only [laneStep] at h
    split at h
    · cases h
      exact .work _ _ s.queue _ (fun hwf => extends_tick hwf _) fun _ h' => nomatch h'
    · cases h
      exact .work _ s.wal s.queue _ .refl fun _ h' => nomatch h'
    · nomatch h
  | shutdown =>
    simp only [laneStep] at h
    split at h
    next hlane _ =>
      cases h
      exact .work _ _ s.queue s.lane extends_seal fun _ h' => nomatch hlane.symm.trans h'
    · nomatch h
  | claim i =>
    obtain ⟨wal, hmove, rfl⟩ := map_eq_some_iff.mp h
    obtain ⟨seg, hseg, hplace, rfl⟩ := move_eq_some hmove
    exact .drain _ i seg _ hseg (hplace ▸ .claim) (fun h' => (nomatch h')) fun h' => nomatch h'
  | release i =>
    obtain ⟨wal, hmove, rfl⟩ := map_eq_some_iff.mp h
    obtain ⟨seg, hseg, hplace, rfl⟩ := move_eq_some hmove
    exact .drain _ i seg _ hseg (hplace ▸ .release) (fun _ => rfl) fun h' => nomatch h'
  | quarantine source i =>
    obtain ⟨hsource, h⟩ := ite_none_right_eq_some.mp h
    obtain ⟨wal, hmove, rfl⟩ := map_eq_some_iff.mp h
    obtain ⟨seg, hseg, hplace, rfl⟩ := move_eq_some hmove
    exact .drain _ i seg _ hseg (.quarantine _ (hplace ▸ hsource)) (fun h' => (nomatch h')) fun _ => ⟨source, rfl⟩
  | commitIceberg i =>
    obtain ⟨-, rfl⟩ := Option.ite_some_none_eq_some.mp h
    exact .commit i
  | finish i =>
    obtain ⟨hcommitted, h⟩ := ite_none_right_eq_some.mp h
    obtain ⟨wal, hmove, rfl⟩ := map_eq_some_iff.mp h
    obtain ⟨seg, hseg, hplace, rfl⟩ := move_eq_some hmove
    have hin : seg.inIceberg = true := by simpa [hseg] using hcommitted
    exact .drain _ i seg _ hseg (hplace ▸ .finish hin) (fun h' => (nomatch h')) fun h' => nomatch h'
  | checkSealed k =>
    simp only [laneStep] at h
    obtain ⟨w, i, hw, hsegment, hphase, rfl⟩ := LaneState.advance_eq_some h
    refine .look _ k i w _ hw hsegment ?_
    rw [hphase]
    split
    · exact .inSealed
    · next hnot => exact .notInSealed (Bool.eq_false_iff.mpr hnot)
  | checkProcessing k =>
    simp only [laneStep] at h
    obtain ⟨w, i, hw, hsegment, hphase, rfl⟩ := LaneState.advance_eq_some h
    refine .look _ k i w _ hw hsegment ?_
    rw [hphase]
    split
    · exact .inProcessing
    · next hnot => exact .notInProcessing (Bool.eq_false_iff.mpr hnot)
  | timeout k =>
    simp only [laneStep] at h
    obtain ⟨w, i, hw, hsegment, hphase, rfl⟩ := LaneState.advance_eq_some h
    exact .look _ k i w _ hw hsegment (hphase ▸ .timeout)

/-! ## Rows that are accounted for -/

/-- The rows of a group are durable or still in the active segment; there is none after an append that sealed. -/
structure Group.Accounts (wal : Wal ρ) (g : Group ρ) : Prop where
  rows : ∀ c ∈ g.done, ∀ row ∈ c.rows, wal.Durable row ∨ wal.Open row
  sealed : g.sealed.isSome → wal.current = none

/-- The log is well formed, what was answered is durable, and the rows of the group are accounted for. -/
structure LaneState.Accounts (s : LaneState ρ) : Prop where
  wal : s.wal.WellFormed
  answered : s.AnswersDurable
  group : ∀ g, s.lane = .appending g → g.Accounts s.wal

theorem LaneState.accounts_init : (LaneState.init : LaneState ρ).Accounts :=
  ⟨wellFormed_empty, fun _ h => (nomatch h), fun _ h => (nomatch h)⟩

theorem LaneState.AnswersDurable.grows (h : s.AnswersDurable) (hwal : s.wal.Grows s'.wal)
    (hanswered : s'.answered = s.answered) : s'.AnswersDurable := by
  intro c hc hmode row hrow
  rw [hanswered] at hc
  exact hwal.durable (h c hc hmode row hrow)

variable {g : Group ρ} {c : WriteCommand ρ}

theorem Group.rank_le_mode (hc : c ∈ g.done) : c.mode.rank ≤ g.mode.rank := by
  have hmax : ∀ a b : CommitMode, a.rank ≤ (a.max b).rank ∧ b.rank ≤ (a.max b).rank := by
    intro a b
    cases a <;> cases b <;> decide
  have hfold : ∀ cs : List (WriteCommand ρ), c ∈ cs →
      c.mode.rank ≤ (cs.foldr (fun (c : WriteCommand ρ) m => c.mode.max m) CommitMode.auto).rank := by
    intro cs hcs
    induction cs with
    | nil => nomatch hcs
    | cons d cs ih =>
      rw [foldr_cons]
      rcases mem_cons.mp hcs with rfl | hcs
      · exact (hmax _ _).1
      · exact (ih hcs).trans (hmax _ _).2
  exact hfold _ (mem_append_left _ hc)

theorem Group.mode_eq_force (hc : c ∈ g.done) (hmode : c.mode = .force) : g.mode = .force := by
  have hle := Group.rank_le_mode hc
  rw [hmode] at hle
  revert hle
  cases g.mode <;> decide

theorem Group.mode_ne_auto (hc : c ∈ g.done) (hmode : c.mode ≠ .auto) : g.mode ≠ .auto := by
  intro hauto
  have hle := Group.rank_le_mode hc
  rw [hauto] at hle
  revert hle hmode
  cases c.mode <;> decide

variable {wal : Wal ρ}

theorem extends_commitGroup (h : wal.WellFormed) (mode : CommitMode) (sealed : Option Nat) :
    wal.Extends (commitGroup mode sealed wal).1 := by
  cases mode with
  | auto => exact .refl h
  | waitFor =>
    simp only [commitGroup]
    split
    · exact extends_syncActive h
    · exact .refl h
  | force =>
    simp only [commitGroup]
    split
    · exact .refl h
    · exact extends_seal h

theorem durable_commitGroup (h : wal.WellFormed) (hg : g.Accounts wal) (hmode : g.mode ≠ .auto)
    {row : ρ} (hrow : wal.Durable row ∨ wal.Open row) : (commitGroup g.mode g.sealed wal).1.Durable row := by
  rcases hrow with hrow | hopen
  · exact (extends_commitGroup h _ _).grows.durable hrow
  -- a row in the active segment: the last append did not seal, so the commit syncs or seals
  have hnone : g.sealed = none := by
    rcases hsealed : g.sealed with _ | i
    · rfl
    · obtain ⟨seg, hactive, -⟩ := hopen
      have hcurrent := hg.sealed (by rw [hsealed]; rfl)
      simp [active, hcurrent] at hactive
  rw [hnone]
  cases hm : g.mode with
  | auto => exact absurd hm hmode
  | waitFor => exact durable_syncActive hopen
  | force =>
    obtain ⟨i, seg, -, hseg, -, hmem⟩ := seal_of_open hopen
    exact ⟨seg, mem_of_getElem? hseg, hmem⟩

variable {f : Segment ρ → Segment ρ}

theorem Wal.open_update (hf : ∀ seg : Segment ρ, (f seg).rows = seg.rows)
    {row : ρ} (hrow : w.Open row) : (w.update i f).Open row := by
  obtain ⟨seg, hactive, hmem⟩ := hrow
  obtain ⟨j, hcur, hj⟩ := bind_eq_some_iff.mp hactive
  have hcur' : (w.update i f).current = some j := hcur
  by_cases hij : i = j
  · refine ⟨f seg, ?_, (hf seg).symm ▸ hmem⟩
    rw [active_eq hcur', segments_update, hj]
    simp [hij]
  · refine ⟨seg, ?_, hmem⟩
    rw [active_eq hcur', segments_update, hj]
    simp [hij]

theorem Wal.wellFormed_drain {seg : Segment ρ} (h : w.WellFormed)
    (hseg : w.segments[i]? = some seg) (hmove : DrainMove seg.inIceberg seg.place target) :
    (w.update i fun seg => { seg with place := target }).WellFormed := by
  constructor
  · intro j hj
    obtain ⟨active, hactive, hplace⟩ := h.active j hj
    have hij : i ≠ j := by
      rintro rfl
      obtain rfl := some.inj (hseg.symm.trans hactive)
      exact hmove.source_ne_active hplace
    exact ⟨active, by rw [segments_update, hactive]; simp [hij], hplace⟩
  · intro j seg' hj hcommitted
    rw [segments_update, map_eq_some_iff] at hj
    obtain ⟨seg₀, hj, rfl⟩ := hj
    by_cases hij : i = j
    · subst hij
      obtain rfl := some.inj (hseg.symm.trans hj)
      rw [if_pos rfl] at hcommitted ⊢
      obtain rfl : target = .committed := hcommitted
      exact hmove.inIceberg_of_committed
    · rw [if_neg hij] at hcommitted ⊢
      exact h.committed j seg₀ hj hcommitted

theorem Wal.wellFormed_commit (i : Nat) (h : w.WellFormed) :
    (w.update i fun seg => { seg with inIceberg := true }).WellFormed := by
  constructor
  · intro j hj
    obtain ⟨active, hactive, hplace⟩ := h.active j hj
    refine ⟨_, by rw [segments_update, hactive]; rfl, ?_⟩
    split <;> exact hplace
  · intro j seg hj hcommitted
    rw [segments_update, map_eq_some_iff] at hj
    obtain ⟨seg₀, hj, rfl⟩ := hj
    split
    · rfl
    · next hij =>
      rw [if_neg hij] at hcommitted
      exact h.committed j seg₀ hj hcommitted

theorem Segment.grows_place (seg : Segment ρ) (target : Place) : seg.Grows { seg with place := target } :=
  ⟨fun _ h => h, fun _ h => h, id⟩

theorem Segment.grows_inIceberg (seg : Segment ρ) : seg.Grows { seg with inIceberg := true } :=
  ⟨fun _ h => h, fun _ h => h, fun _ => rfl⟩

theorem Group.Accounts.update (hg : g.Accounts wal)
    (hf : ∀ seg : Segment ρ, seg.Grows (f seg)) (hrows : ∀ seg : Segment ρ, (f seg).rows = seg.rows) :
    g.Accounts (wal.update i f) := by
  refine ⟨?_, hg.sealed⟩
  intro c hc row hrow
  rcases hg.rows c hc row hrow with h | h
  · exact .inl ((grows_update hf).durable h)
  · exact .inr (open_update hrows h)

theorem Group.Accounts.append {done todo : List (WriteCommand ρ)} {sealed : Option Nat}
    {rebind : Option (Option Nat)} {tick : Bool} (h : wal.WellFormed)
    (hg : Group.Accounts wal ⟨done, c :: todo, sealed, rebind, tick⟩) (maxEvents : Nat) (aged : Bool) :
    Group.Accounts (wal.appendBatch maxEvents aged c.rows).1
      ⟨done ++ [c], todo, (wal.appendBatch maxEvents aged c.rows).2, rebind, tick⟩ := by
  have hwrite := extends_write h c.rows
  have hwritten : ∀ d ∈ done ++ [c], ∀ row ∈ d.rows, (wal.write c.rows).Durable row ∨ (wal.write c.rows).Open row := by
    intro d hd row hrow
    rcases mem_append.mp hd with hd | hd
    · rcases hg.rows d hd row hrow with h' | h'
      · exact .inl (hwrite.grows.durable h')
      · exact .inr (open_write h (.inl h'))
    · obtain rfl := mem_singleton.mp hd
      exact .inr (open_write h (.inr hrow))
  rw [appendBatch_eq h]
  split
  · refine ⟨?_, fun _ => current_seal _⟩
    intro d hd row hrow
    rcases hwritten d hd row hrow with h' | h'
    · exact .inl ((extends_seal hwrite.wellFormed).grows.durable h')
    · obtain ⟨i, seg, -, hseg, -, hmem⟩ := seal_of_open h'
      exact .inl ⟨seg, mem_of_getElem? hseg, hmem⟩
  · exact ⟨hwritten, fun h' => (nomatch h')⟩

theorem LaneState.Accounts.step {maxEvents : Nat} {a : LaneAction ρ} (hs : s.Accounts)
    (h : laneStep maxEvents s a = some s') : s'.Accounts := by
  cases laneStep_move h with
  | queue _ queue | look _ k i w next hw hsegment hlook => exact { hs with }
  | work _ wal queue lane hwal hlane =>
    have hext := hwal hs.wal
    refine ⟨hext.wellFormed, hs.answered.grows hext.grows rfl, ?_⟩
    intro g hg
    obtain ⟨hdone, hsealed⟩ := hlane g hg
    refine ⟨?_, ?_⟩
    · intro c hc
      rw [hdone] at hc
      nomatch hc
    · intro h'
      rw [hsealed] at h'
      nomatch h'
  | skip aged done todo c sealed rebind tick hlane hrows =>
    have hgroup := hs.group _ hlane
    refine ⟨hs.wal, hs.answered, ?_⟩
    rintro g ⟨⟩
    refine ⟨?_, hgroup.sealed⟩
    intro d hd row hrow
    rcases mem_append.mp hd with hd | hd
    · exact hgroup.rows d hd row hrow
    · rw [mem_singleton.mp hd, hrows] at hrow
      nomatch hrow
  | append aged done todo c sealed rebind tick hlane hrows =>
    have hext := extends_appendBatch hs.wal maxEvents aged c.rows
    refine ⟨hext.wellFormed, hs.answered.grows hext.grows rfl, ?_⟩
    rintro g ⟨⟩
    exact (hs.group _ hlane).append hs.wal maxEvents aged
  | reply g hlane htodo =>
    have hgroup := hs.group g hlane
    have hext := extends_commitGroup hs.wal g.mode g.sealed
    refine ⟨hext.wellFormed, ?_, fun _ h' => (nomatch h')⟩
    intro c hc hmode row hrow
    rcases mem_append.mp hc with hc | hc
    · exact hext.grows.durable (hs.answered c hc hmode row hrow)
    · exact durable_commitGroup hs.wal hgroup (Group.mode_ne_auto hc hmode) (hgroup.rows c hc row hrow)
  | drain _ i seg target hseg hmove hrelease hquarantine =>
    refine ⟨wellFormed_drain hs.wal hseg hmove, ?_, ?_⟩
    · exact hs.answered.grows (grows_update fun seg => seg.grows_place target) rfl
    · intro g hg
      exact (hs.group g hg).update (fun seg => seg.grows_place target) fun _ => rfl
  | commit i =>
    refine ⟨wellFormed_commit i hs.wal, ?_, ?_⟩
    · exact hs.answered.grows (grows_update fun seg => seg.grows_inIceberg) rfl
    · intro g hg
      exact (hs.group g hg).update (fun seg => seg.grows_inIceberg) fun _ => rfl

end LogLake.Ingest
