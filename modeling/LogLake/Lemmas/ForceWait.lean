import LogLake.Lemmas.Lane

/-! # The wait of a `force` request -/

namespace LogLake.Ingest

open List

variable {ρ : Type}

/-! ## When the wait is truthful -/

def WriteCommand.forced (c : WriteCommand ρ) : Bool := c.mode = .force && !c.rows.isEmpty

variable (maxEvents : Nat)

/-- The next append rolls the segment, with rows of a `force` request behind it in the group and more rows to come. -/
def LanePhase.splits (aged : Bool) (wal : Wal ρ) : LanePhase ρ → Bool
  | .appending ⟨done, c :: todo, _, _, _⟩ =>
    !c.rows.isEmpty && wal.rolls maxEvents aged c.rows && (done ++ [c]).any WriteCommand.forced &&
      todo.any fun d => !d.rows.isEmpty
  | _ => false

/-- The segment that the receipt of a `force` group will name, as far as it is sealed. -/
def LanePhase.receipt : LanePhase ρ → Option Nat
  | .appending g => if g.mode = .force then g.sealed else none
  | _ => none

variable (s : LaneState ρ)

/-- A request waits for the segment, or is about to. -/
def LaneState.Watches (i : Nat) : Prop :=
  (∃ w ∈ s.waiters, w.segment = some i ∧ (w.phase = .polling ∨ w.phase = .sealedAbsent)) ∨ s.lane.receipt = some i

instance LaneState.decidableWatches (i : Nat) : Decidable (s.Watches i) :=
  inferInstanceAs (Decidable (_ ∨ _))

/-- The step does not split the rows of a `force` request over segments, does not quarantine a segment that is waited for,
and does not release one that a request has already missed in `sealed/`. -/
def ForceSafe : LaneAction ρ → Prop
  | .append aged => s.lane.splits maxEvents aged s.wal = false
  | .quarantine _ i => ¬ s.Watches i
  | .release i => ∀ w ∈ s.waiters, w.segment = some i → w.phase ≠ .sealedAbsent
  | _ => True

instance decidableForceSafe (a : LaneAction ρ) : Decidable (ForceSafe maxEvents s a) := by
  cases a <;> (dsimp only [ForceSafe]; infer_instance)

/-! ## What a waiting request can rely on -/

/-- Rows are in a segment, which is in one of some directories. -/
def Wal.Holds (wal : Wal ρ) (i : Nat) (places : List Place) (rows : List ρ) : Prop :=
  ∃ seg, wal.segments[i]? = some seg ∧ seg.place ∈ places ∧ rows ⊆ seg.rows

/-- The rows of a request that waits are in its segment, which is on its way to `committed/`; after the first look it has
left `sealed/`. -/
def Waiter.Tracked (wal : Wal ρ) (w : Waiter ρ) : Prop :=
  match w.phase with
  | .polling => ∃ i, w.segment = some i ∧ wal.Holds i [.sealed, .processing, .committed] w.rows
  | .sealedAbsent => ∃ i, w.segment = some i ∧ wal.Holds i [.processing, .committed] w.rows
  | .ok => ∀ row ∈ w.rows, wal.Committed row
  | .failed => True

/-- The rows of the `force` requests of a group are in the segment the receipt will name. -/
structure Group.Tracked (wal : Wal ρ) (g : Group ρ) : Prop where
  sealed : g.mode = .force → ∀ i, g.sealed = some i → wal.Holds i [.sealed, .processing, .committed] []
  inSealed : ∀ c ∈ g.done, c.mode = .force → ∀ i, g.sealed = some i → ∃ seg, wal.segments[i]? = some seg ∧ c.rows ⊆ seg.rows
  inActive : ∀ c ∈ g.done, c.mode = .force → g.sealed = none → ∀ row ∈ c.rows, wal.Open row
  tail : g.sealed.isSome → g.done.any WriteCommand.forced → ∀ c ∈ g.todo, c.rows = []

/-- Every request that waits, and the group, can rely on their segments. -/
structure LaneState.Tracked (s : LaneState ρ) : Prop where
  waiters : ∀ w ∈ s.waiters, w.Tracked s.wal
  group : ∀ g, s.lane = .appending g → g.Tracked s.wal

theorem LaneState.tracked_init : (LaneState.init : LaneState ρ).Tracked :=
  ⟨fun _ h => (nomatch h), fun _ h => (nomatch h)⟩

variable {w w' : Wal ρ}

theorem Wal.Grows.committed (h : w.Grows w') {row : ρ} (hrow : w.Committed row) : w'.Committed row := by
  obtain ⟨seg, hseg, hin, hmem⟩ := hrow
  obtain ⟨i, hi⟩ := List.getElem?_of_mem hseg
  obtain ⟨seg', hi', hgrow⟩ := h i seg hi
  exact ⟨seg', mem_of_getElem? hi', hgrow.inIceberg hin, hgrow.rows hmem⟩

variable {i : Nat} {places : List Place} {rows : List ρ}

theorem Wal.Extends.holds (h : w.Extends w')
    (hplaces : Place.active ∉ places) (hholds : w.Holds i places rows) : w'.Holds i places rows := by
  obtain ⟨seg, hseg, hplace, hrows⟩ := hholds
  refine ⟨seg, h.stays i seg hseg ?_, hplace, hrows⟩
  intro hactive
  exact hplaces (hactive ▸ hplace)

theorem Wal.Extends.tracked (h : w.Extends w') {waiter : Waiter ρ} (htracked : waiter.Tracked w) : waiter.Tracked w' := by
  unfold Waiter.Tracked at htracked ⊢
  split at htracked
  · obtain ⟨i, hi, hholds⟩ := htracked
    exact ⟨i, hi, h.holds (by decide) hholds⟩
  · obtain ⟨i, hi, hholds⟩ := htracked
    exact ⟨i, hi, h.holds (by decide) hholds⟩
  · intro row hrow
    exact h.grows.committed (htracked row hrow)
  · trivial

/-! ## Answers -/

variable {wal : Wal ρ} {c : WriteCommand ρ}

theorem Group.Tracked.newWaiter {g : Group ρ} (hg : g.Tracked wal) (hc : c ∈ g.done) (hmode : c.mode = .force) :
    (Ingest.newWaiter (commitGroup g.mode g.sealed wal).2 c).Tracked (commitGroup g.mode g.sealed wal).1 := by
  have hforce := Group.mode_eq_force hc hmode
  rw [hforce]
  rcases hsealed : g.sealed with _ | i
  · have hopen := hg.inActive c hc hmode hsealed
    show (Ingest.newWaiter wal.seal.2 c).Tracked wal.seal.1
    rcases hreceipt : wal.seal.2 with _ | i
    · -- nothing was sealed, so the request has no rows
      intro row hrow
      obtain ⟨i, _, hi, -⟩ := Wal.seal_of_open (hopen row hrow)
      exact (nomatch hreceipt.symm.trans hi)
    · obtain ⟨seg, hseg, hplace⟩ := Wal.place_seal hreceipt
      refine ⟨i, rfl, seg, hseg, by rw [hplace]; decide, ?_⟩
      intro row hrow
      obtain ⟨j, seg', hj, hseg', -, hmem⟩ := Wal.seal_of_open (hopen row hrow)
      obtain rfl := Option.some.inj (hreceipt.symm.trans hj)
      obtain rfl := Option.some.inj (hseg.symm.trans hseg')
      exact mem_of_mem_take hmem
  · obtain ⟨seg, hseg, hplace, -⟩ := hg.sealed hforce i hsealed
    obtain ⟨seg', hseg', hrows⟩ := hg.inSealed c hc hmode i hsealed
    obtain rfl := Option.some.inj (hseg.symm.trans hseg')
    exact ⟨i, rfl, seg, hseg, hplace, hrows⟩

/-! ## Appends -/

theorem forced_of_mem (hmode : c.mode = .force) {row : ρ} (hrow : row ∈ c.rows) : c.forced = true := by
  have hne : c.rows.isEmpty = false := by
    rw [isEmpty_eq_false_iff]
    exact ne_nil_of_mem hrow
  simp [WriteCommand.forced, hmode, hne]

theorem Group.mode_append (done todo : List (WriteCommand ρ)) (c : WriteCommand ρ) (sealed sealed' : Option Nat)
    (rebind : Option (Option Nat)) (tick : Bool) :
    Group.mode ⟨done ++ [c], todo, sealed', rebind, tick⟩ = Group.mode ⟨done, c :: todo, sealed, rebind, tick⟩ := by
  simp [Group.mode]

variable {done todo : List (WriteCommand ρ)} {rebind : Option (Option Nat)}

theorem Group.Tracked.skip {sealed : Option Nat} {tick : Bool} (hg : Group.Tracked wal ⟨done, c :: todo, sealed, rebind, tick⟩)
    (hrows : c.rows = []) : Group.Tracked wal ⟨done ++ [c], todo, sealed, rebind, tick⟩ := by
  have hmode := Group.mode_append done todo c sealed sealed rebind tick
  refine ⟨fun h => hg.sealed (hmode ▸ h), ?_, ?_, ?_⟩
  · intro d hd hforce i hi
    have hgroup := (Group.mode_eq_force hd hforce).symm.trans hmode
    obtain ⟨seg, hseg, -⟩ := hg.sealed hgroup.symm i hi
    rcases mem_append.mp hd with hd | hd
    · exact hg.inSealed d hd hforce i hi
    · rw [mem_singleton.mp hd, hrows]
      exact ⟨seg, hseg, nil_subset _⟩
  · intro d hd hforce hnone row hrow
    rcases mem_append.mp hd with hd | hd
    · exact hg.inActive d hd hforce hnone row hrow
    · rw [mem_singleton.mp hd, hrows] at hrow
      nomatch hrow
  · intro hsome hany d hd
    have hany' : done.any WriteCommand.forced = true := by
      simpa [WriteCommand.forced, hrows] using hany
    exact hg.tail hsome hany' d (mem_cons_of_mem c hd)

variable {maxEvents : Nat}

theorem Group.Tracked.append {sealed : Option Nat} {tick : Bool} {aged : Bool} (h : wal.WellFormed)
    (hg : Group.Tracked wal ⟨done, c :: todo, sealed, rebind, tick⟩) (hrows : c.rows ≠ [])
    (hsafe : (LanePhase.appending ⟨done, c :: todo, sealed, rebind, tick⟩).splits maxEvents aged wal = false) :
    Group.Tracked (wal.appendBatch maxEvents aged c.rows).1
      ⟨done ++ [c], todo, (wal.appendBatch maxEvents aged c.rows).2, rebind, tick⟩ := by
  -- the rows of the earlier `force` requests are not yet sealed: more rows follow
  have hwritten : ∀ d ∈ done ++ [c], d.mode = .force → ∀ row ∈ d.rows, (wal.write c.rows).Open row := by
    intro d hd hforce row hrow
    rcases mem_append.mp hd with hd | hd
    · have hnone : sealed = none := by
        rcases hsealed : sealed with _ | i
        · rfl
        · refine absurd (hg.tail ?_ ?_ c mem_cons_self) hrows
          · exact congrArg Option.isSome hsealed
          · exact any_eq_true.mpr ⟨d, hd, forced_of_mem hforce hrow⟩
      exact Wal.open_write h (Or.inl (hg.inActive d hd hforce hnone row hrow))
    · obtain rfl := mem_singleton.mp hd
      exact Wal.open_write h (Or.inr hrow)
  rw [Wal.appendBatch_eq h]
  split
  · next hrolls =>
    refine ⟨?_, ?_, ?_, ?_⟩
    · intro _ i hi
      obtain ⟨seg, hseg, hplace⟩ := Wal.place_seal hi
      exact ⟨seg, hseg, by rw [hplace]; decide, nil_subset _⟩
    · intro d hd hforce i hi
      obtain ⟨seg, hseg, -⟩ := Wal.place_seal hi
      refine ⟨seg, hseg, ?_⟩
      intro row hrow
      obtain ⟨j, seg', hj, hseg', -, hmem⟩ := Wal.seal_of_open (hwritten d hd hforce row hrow)
      obtain rfl : i = j := Option.some.inj (hi.symm.trans hj)
      obtain rfl := Option.some.inj (hseg.symm.trans hseg')
      exact mem_of_mem_take hmem
    · intro d hd hforce hnone row hrow
      obtain ⟨j, _, hj, -⟩ := Wal.seal_of_open (hwritten d hd hforce row hrow)
      exact (nomatch hnone.symm.trans hj)
    · intro _ hany d hd
      have hne : c.rows.isEmpty = false := isEmpty_eq_false_iff.mpr hrows
      simp only [LanePhase.splits, hne, hrolls, hany, Bool.not_false, Bool.true_and, any_eq_false] at hsafe
      have hd' := hsafe d hd
      simpa using hd'
  · refine ⟨fun _ _ h' => (nomatch h'), fun _ _ _ _ h' => (nomatch h'), ?_, fun h' => (nomatch h')⟩
    intro d hd hforce _ row hrow
    exact hwritten d hd hforce row hrow

/-! ## The drain and the looks -/

variable {target : Place}

theorem Wal.Holds.move {j : Nat} (hholds : wal.Holds j places rows) (htarget : i = j → target ∈ places) :
    (wal.update i fun seg => { seg with place := target }).Holds j places rows := by
  obtain ⟨seg, hseg, hplace, hrows⟩ := hholds
  by_cases hij : i = j
  · refine ⟨{ seg with place := target }, ?_, htarget hij, hrows⟩
    rw [Wal.segments_update, hseg]
    simp [hij]
  · refine ⟨seg, ?_, hplace, hrows⟩
    rw [Wal.segments_update, hseg]
    simp [hij]

theorem Wal.Holds.commit {j : Nat} (i : Nat)
    (hholds : wal.Holds j places rows) : (wal.update i fun seg => { seg with inIceberg := true }).Holds j places rows := by
  obtain ⟨seg, hseg, hplace, hrows⟩ := hholds
  refine ⟨_, by rw [Wal.segments_update, hseg]; rfl, ?_, ?_⟩
  · split <;> exact hplace
  · split <;> exact hrows

theorem DrainMove.onTheWay {inIceberg : Bool} {source : Place} (h : DrainMove inIceberg source target)
    (hquarantine : target ≠ .quarantined) : target ∈ [Place.sealed, .processing, .committed] := by
  cases h with
  | claim | release => decide
  | quarantine => exact absurd rfl hquarantine
  | finish => decide

theorem DrainMove.gone {inIceberg : Bool} {source : Place} (h : DrainMove inIceberg source target)
    (hquarantine : target ≠ .quarantined) (hrelease : target ≠ .sealed) : target ∈ [Place.processing, .committed] := by
  cases h with
  | claim => decide
  | release => exact absurd rfl hrelease
  | quarantine => exact absurd rfl hquarantine
  | finish => decide

variable {s : LaneState ρ}

theorem LaneState.Tracked.drain {a : LaneAction ρ} {seg : Segment ρ}
    (hs : s.Tracked) (hsafe : ForceSafe maxEvents s a) (hmove : DrainMove seg.inIceberg seg.place target)
    (hrelease : target = .sealed → a = .release i) (hquarantine : target = .quarantined → ∃ source, a = .quarantine source i) :
    ({ s with wal := s.wal.update i fun seg => { seg with place := target } } : LaneState ρ).Tracked := by
  have hwatched : s.Watches i → target ≠ .quarantined := by
    intro hwatch htarget
    obtain ⟨source, rfl⟩ := hquarantine htarget
    exact hsafe hwatch
  constructor
  · intro w hw
    have htracked := hs.waiters w hw
    unfold Waiter.Tracked at htracked ⊢
    split at htracked
    · next hphase =>
      obtain ⟨j, hj, hholds⟩ := htracked
      refine ⟨j, hj, hholds.move ?_⟩
      rintro rfl
      exact hmove.onTheWay (hwatched (Or.inl ⟨w, hw, hj, Or.inl hphase⟩))
    · next hphase =>
      obtain ⟨j, hj, hholds⟩ := htracked
      refine ⟨j, hj, hholds.move ?_⟩
      rintro rfl
      refine hmove.gone (hwatched (Or.inl ⟨w, hw, hj, Or.inr hphase⟩)) ?_
      intro htarget
      obtain rfl := hrelease htarget
      exact hsafe w hw hj hphase
    · intro row hrow
      exact (Wal.grows_update fun seg => seg.grows_place target).committed (htracked row hrow)
    · trivial
  · intro g hg
    have hgroup := hs.group g hg
    refine ⟨?_, ?_, ?_, hgroup.tail⟩
    · intro hforce j hj
      refine (hgroup.sealed hforce j hj).move ?_
      rintro rfl
      refine hmove.onTheWay (hwatched (Or.inr ?_))
      have hlane : s.lane = .appending g := hg
      rw [hlane, LanePhase.receipt, if_pos hforce, hj]
    · intro c hc hforce j hj
      obtain ⟨seg, hseg, hrows⟩ := hgroup.inSealed c hc hforce j hj
      refine ⟨_, by rw [Wal.segments_update, hseg]; rfl, ?_⟩
      split <;> exact hrows
    · intro c hc hforce hnone row hrow
      refine Wal.open_update ?_ (hgroup.inActive c hc hforce hnone row hrow)
      exact fun _ => rfl

theorem LaneState.Tracked.commit (i : Nat) (hs : s.Tracked) :
    ({ s with wal := s.wal.update i fun seg => { seg with inIceberg := true } } : LaneState ρ).Tracked := by
  constructor
  · intro w hw
    have htracked := hs.waiters w hw
    unfold Waiter.Tracked at htracked ⊢
    split at htracked
    · obtain ⟨j, hj, hholds⟩ := htracked
      exact ⟨j, hj, hholds.commit i⟩
    · obtain ⟨j, hj, hholds⟩ := htracked
      exact ⟨j, hj, hholds.commit i⟩
    · intro row hrow
      exact (Wal.grows_update fun seg => seg.grows_inIceberg).committed (htracked row hrow)
    · trivial
  · intro g hg
    have hgroup := hs.group g hg
    refine ⟨fun hforce j hj => (hgroup.sealed hforce j hj).commit i, ?_, ?_, hgroup.tail⟩
    · intro c hc hforce j hj
      obtain ⟨seg, hseg, hrows⟩ := hgroup.inSealed c hc hforce j hj
      refine ⟨_, by rw [Wal.segments_update, hseg]; rfl, ?_⟩
      split <;> exact hrows
    · intro c hc hforce hnone row hrow
      refine Wal.open_update ?_ (hgroup.inActive c hc hforce hnone row hrow)
      exact fun _ => rfl

theorem Wal.Holds.of_not_isAt {place : Place}
    (hholds : wal.Holds i (place :: places) rows) (hnot : wal.isAt i place = false) : wal.Holds i places rows := by
  obtain ⟨seg, hseg, hplace, hrows⟩ := hholds
  refine ⟨seg, hseg, ?_, hrows⟩
  rcases mem_cons.mp hplace with h | h
  · simp [Wal.isAt, hseg, h] at hnot
  · exact h

theorem Waiter.Tracked.look {w : Waiter ρ} {next : WaitPhase} (hwal : wal.WellFormed)
    (hw : w.Tracked wal) (hsegment : w.segment = some i) (hlook : Look wal i w.phase next) :
    ({ w with phase := next } : Waiter ρ).Tracked wal := by
  obtain ⟨rows, segment, phase⟩ := w
  obtain rfl : segment = some i := hsegment
  cases hlook with
  | inSealed => exact hw
  | notInSealed hnot =>
    obtain ⟨j, hj, hholds⟩ := hw
    cases hj
    exact ⟨i, rfl, hholds.of_not_isAt hnot⟩
  | inProcessing =>
    obtain ⟨j, hj, seg, hseg, hplace, hrows⟩ := hw
    exact ⟨j, hj, seg, hseg, mem_cons_of_mem _ hplace, hrows⟩
  | notInProcessing hnot =>
    obtain ⟨j, hj, hholds⟩ := hw
    cases hj
    obtain ⟨seg, hseg, hplace, hrows⟩ := hholds.of_not_isAt hnot
    have hin := hwal.committed i seg hseg (mem_singleton.mp hplace)
    intro row hrow
    exact ⟨seg, mem_of_getElem? hseg, hin, hrows hrow⟩
  | timeout => trivial

/-- Every step knows where the rows of a waiting request are. -/
theorem LaneState.Tracked.step {s' : LaneState ρ} {a : LaneAction ρ} (hs : s.Tracked)
    (haccounts : s.Accounts) (hsafe : ForceSafe maxEvents s a) (h : laneStep maxEvents s a = some s') : s'.Tracked := by
  have hwal := haccounts.wal
  cases laneStep_move h with
  | queue _ queue => exact { hs with }
  | work _ wal queue lane hext hlane =>
    refine ⟨fun w hw => (hext hwal).tracked (hs.waiters w hw), ?_⟩
    intro g hg
    obtain ⟨hdone, hsealed⟩ := hlane g hg
    refine ⟨?_, ?_, ?_, ?_⟩
    · intro _ i hi
      exact (nomatch hsealed.symm.trans hi)
    · intro c hc
      rw [hdone] at hc
      nomatch hc
    · intro c hc
      rw [hdone] at hc
      nomatch hc
    · intro hsome
      rw [hsealed] at hsome
      nomatch hsome
  | skip aged done todo c sealed rebind tick hlane hrows =>
    refine ⟨hs.waiters, ?_⟩
    rintro g ⟨⟩
    exact (hs.group _ hlane).skip hrows
  | append aged done todo c sealed rebind tick hlane hrows =>
    refine ⟨fun w hw => (Wal.extends_appendBatch hwal maxEvents aged c.rows).tracked (hs.waiters w hw), ?_⟩
    rintro g ⟨⟩
    have hsafe' : s.lane.splits maxEvents aged s.wal = false := hsafe
    rw [hlane] at hsafe'
    exact (hs.group _ hlane).append hwal hrows hsafe'
  | reply g hlane htodo =>
    refine ⟨?_, fun _ h' => (nomatch h')⟩
    intro w hw
    rcases mem_append.mp hw with hw | hw
    · exact (extends_commitGroup hwal g.mode g.sealed).tracked (hs.waiters w hw)
    · obtain ⟨c, hc, rfl⟩ := mem_map.mp hw
      obtain ⟨hmem, hforce⟩ := mem_filter.mp hc
      exact (hs.group g hlane).newWaiter hmem (of_decide_eq_true hforce)
  | drain _ i seg target hseg hmove hrelease hquarantine => exact hs.drain hsafe hmove hrelease hquarantine
  | commit i => exact hs.commit i
  | look _ k i w next hw hsegment hlook =>
    refine ⟨?_, hs.group⟩
    intro w' hw'
    obtain ⟨j, hj⟩ := List.getElem?_of_mem hw'
    rw [List.getElem?_modify, Option.map_eq_map, Option.map_eq_some_iff] at hj
    obtain ⟨w₀, hw₀, rfl⟩ := hj
    have htracked := hs.waiters w₀ (mem_of_getElem? hw₀)
    split
    · next hkj =>
      subst hkj
      obtain rfl := Option.some.inj (hw.symm.trans hw₀)
      exact htracked.look hwal hsegment hlook
    · exact htracked

end LogLake.Ingest
