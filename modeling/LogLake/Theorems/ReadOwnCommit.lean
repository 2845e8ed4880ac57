import LogLake.Lemmas.TableCache
import LogLake.Lib.Transition

/-! # Reading one's own commit -/

namespace LogLake.TableCache

open List Option

open Transition (run)

variable {s : State}

theorem Fresh.reload (h : Fresh s) {c : Nat} {call : Call} (hcall : s.calls[c]? = some call) {a : ReloadAction}
    {cache' : Cache} {phase' : Phase} (hout : Outcome s call.phase a cache' phase') :
    Fresh { s with cache := cache', calls := s.calls.set c { call with phase := phase' } } := by
  have hknows := h.calls call (mem_of_getElem? hcall)
  -- it is enough to look at the entry, the epoch and the call that took the step
  have hassemble : s.cache.epoch ≤ cache'.epoch →
      (∀ entry, cache'.entry = some entry → s.invalidated ≤ entry.table.generation) →
      CallFresh { s with cache := cache', calls := s.calls.set c { call with phase := phase' } }
        { call with phase := phase' } →
      Fresh { s with cache := cache', calls := s.calls.set c { call with phase := phase' } } := by
    intro hepoch hentry hnew
    refine ⟨h.catalog, hentry, fun other hother => ?_⟩
    rcases mem_or_eq_of_mem_set hother with hother | rfl
    · exact (h.calls other hother).mono hepoch le_rfl fun _ => rfl
    · exact hnew
  generalize hphase : call.phase = phase at hout
  cases hout with
  | begin attempt =>
    refine hassemble le_rfl h.entry ⟨hknows.floor, ?_, by simp [Phase.held?], by simp⟩
    intro attempt' epoch hstarted
    obtain ⟨-, rfl⟩ : attempt = attempt' ∧ s.cache.epoch = epoch := by simpa using hstarted
    exact le_rfl
  | load attempt epoch =>
    -- the catalog is at the generation of the last invalidation or later
    exact hassemble le_rfl h.entry (callFresh_held rfl hknows.floor (hknows.floor.trans h.catalog)
      (hknows.epoch attempt epoch hphase) fun _ => h.catalog)
  | hold hheld hheld' =>
    obtain ⟨hgeneration, hepoch, hcurrent⟩ := hknows.held _ (hphase ▸ hheld)
    exact hassemble le_rfl h.entry (callFresh_held hheld' hknows.floor hgeneration hepoch hcurrent)
  | again attempt => exact hassemble le_rfl h.entry (callFresh_idle hknows.floor (.inl ⟨attempt, rfl⟩))
  | fail => exact hassemble le_rfl h.entry (callFresh_idle hknows.floor (.inr rfl))
  | superseded held hheld hne hentry =>
    exact hassemble le_rfl h.entry (callFresh_returned rfl hknows.floor (hknows.floor.trans (h.entry _ hentry)))
  | renewed held entry hheld hepoch htable =>
    have hgeneration : s.invalidated ≤ entry.table.generation := htable ▸ (hknows.held held (hphase ▸ hheld)).2.2 hepoch.symm
    refine hassemble le_rfl ?_ (callFresh_returned rfl hknows.floor (hknows.floor.trans hgeneration))
    intro entry' hentry'
    exact some.inj hentry' ▸ hgeneration
  | published held entry hheld hepoch htable =>
    have hgeneration : s.invalidated ≤ entry.table.generation := htable ▸ (hknows.held held (hphase ▸ hheld)).2.2 hepoch.symm
    refine hassemble (Nat.le_succ _) ?_ (callFresh_returned rfl hknows.floor (hknows.floor.trans hgeneration))
    intro entry' hentry'
    exact some.inj hentry' ▸ hgeneration
  | unpublished held entry hheld htable =>
    exact hassemble le_rfl h.entry (callFresh_returned rfl hknows.floor (htable ▸ (hknows.held held (hphase ▸ hheld)).1))

variable {ttl : Nat} {s' : State} {a : Action}

theorem Fresh.step (h : Fresh s) (hstep : step ttl s a = some s') : Fresh s' := by
  cases step_move hstep with
  | quiet _ catalog refreshing clock new hcatalog hnew =>
    refine ⟨h.catalog.trans hcatalog, h.entry, fun call hcall => ?_⟩
    rcases mem_append.mp hcall with hcall | hcall
    · exact (h.calls call hcall).mono le_rfl le_rfl fun _ => rfl
    · exact ((hnew call hcall).fresh h).mono le_rfl le_rfl fun _ => rfl
  | invalidate =>
    refine ⟨le_rfl, by simp [Cache.invalidate], fun call hcall => ?_⟩
    exact (h.calls call hcall).mono (Nat.le_succ _) h.catalog fun hsame => absurd hsame (Nat.ne_of_lt (Nat.lt_succ_self _))
  | reload c a call cache' phase' hcall hout => exact h.reload hcall hout

/-! ## Calls after an invalidation -/

/-- The generations the calls began at. -/
def State.floors (s : State) : List Nat := s.calls.map Call.floor

theorem floors_step (hstep : step ttl s a = some s') :
    ∃ new, s'.floors = s.floors ++ new ∧ ∀ f ∈ new, f = s.invalidated := by
  cases step_move hstep with
  | quiet _ catalog refreshing clock new hcatalog hnew =>
    refine ⟨new.map Call.floor, map_append, ?_⟩
    intro f hf
    obtain ⟨call, hcall, rfl⟩ := mem_map.mp hf
    exact (hnew call hcall).1
  | invalidate => exact ⟨[], by simp [State.floors], by simp⟩
  | reload c a call cache' phase' hcall hout =>
    refine ⟨[], ?_, by simp⟩
    have hfloor : s.floors[c]? = some call.floor := by simp [State.floors, hcall]
    obtain ⟨hlt, hget⟩ := List.getElem?_eq_some_iff.mp hfloor
    rw [State.floors, map_set, append_nil, ← hget]
    exact set_getElem_self hlt

theorem invalidated_le_of_step (h : Fresh s) (hstep : step ttl s a = some s') : s.invalidated ≤ s'.invalidated := by
  cases step_move hstep with
  | quiet _ catalog refreshing clock new hcatalog hnew => exact le_rfl
  | invalidate => exact h.catalog
  | reload c a call cache' phase' hcall hout => exact le_rfl

/-- After an invalidation: the calls from before it, and calls that began at its generation or later. -/
structure AfterInvalidation (generation : Nat) (earlier : List Nat) (s : State) : Prop where
  fresh : Fresh s
  invalidated : generation ≤ s.invalidated
  floors : ∃ later, s.floors = earlier ++ later ∧ ∀ f ∈ later, generation ≤ f

theorem AfterInvalidation.step {generation : Nat} {earlier : List Nat}
    (h : AfterInvalidation generation earlier s) (hstep : step ttl s a = some s') :
    AfterInvalidation generation earlier s' := by
  obtain ⟨later, hlater, hfloors⟩ := h.floors
  obtain ⟨new, hnew, hbegan⟩ := floors_step hstep
  refine ⟨h.fresh.step hstep, h.invalidated.trans (invalidated_le_of_step h.fresh hstep), later ++ new, ?_, ?_⟩
  · rw [hnew, hlater, append_assoc]
  · intro f hf
    rcases mem_append.mp hf with hf | hf
    · exact hfloors f hf
    · exact hbegan f hf ▸ h.invalidated

/-- A call that starts after an invalidation returns no metadata older than the catalog was at the invalidation, so none older
than any commit before it. -/
theorem call_after_invalidation (ttl : Nat) (catalog : Table) (before after : List Action) (s₁ s₂ : State)
    (hbefore : run (step ttl) (.start catalog) before = some s₁)
    (hafter : run (step ttl) s₁ (.invalidate :: after) = some s₂) (c : Nat) (hstarted : s₁.calls.length ≤ c) (call : Call)
    (hcall : s₂.calls[c]? = some call) (entry : CachedTableEntry) (own : Option Table)
    (hreturned : call.phase = .returned entry own) : s₁.catalog.generation ≤ entry.table.generation := by
  have hfresh : Fresh s₁ :=
    Transition.invariant_run_of_step (fun _ _ _ h hstep => h.step hstep) (fresh_start catalog) hbefore
  obtain ⟨s, hs, hrest⟩ := bind_eq_some_iff.mp hafter
  have hstart : AfterInvalidation s₁.catalog.generation s₁.floors s := by
    refine ⟨hfresh.step hs, ?_, [], ?_, by simp⟩
    · cases hs
      exact le_rfl
    · cases hs
      simp [State.floors]
  have hend : AfterInvalidation s₁.catalog.generation s₁.floors s₂ :=
    Transition.invariant_run_of_step (I := AfterInvalidation s₁.catalog.generation s₁.floors)
      (fun _ _ _ h hstep => h.step hstep) hstart hrest
  obtain ⟨later, hlater, hfloors⟩ := hend.floors
  have hfloor : s₂.floors[c]? = some call.floor := by simp [State.floors, hcall]
  rw [hlater, List.getElem?_append_right (by simpa [State.floors] using hstarted)] at hfloor
  have hlow := hfloors call.floor (mem_of_getElem? hfloor)
  exact hlow.trans ((hend.fresh.calls call (mem_of_getElem? hcall)).returned entry own hreturned)

def loadThenCommit : List Action := [.call, .reload 0 .begin, .reload 0 .load, .commit 1 (some 20) 0 2]

def fencedOut : List Action :=
  [.call, .reload 1 .begin, .reload 1 .load, .reload 0 .check, .reload 1 .check, .reload 1 .build, .reload 1 .publish,
    .reload 0 .begin, .reload 0 .load, .reload 0 .check]

/-- A reload from before the commit ends after the call that started after the invalidation, which returns the commit. -/
theorem reload_across_commit :
    ∃ s₁ s₂ entry own, run (step 10) (.start oneSnapshot) loadThenCommit = some s₁ ∧
      run (step 10) s₁ (.invalidate :: fencedOut) = some s₂ ∧ s₁.calls.length ≤ 1 ∧
      s₂.calls[1]? = some ⟨false, 1, .returned entry own⟩ ∧ s₁.catalog.generation ≤ entry.table.generation := by
  have hbefore : (run (step 10) (.start oneSnapshot) loadThenCommit).map (fun s => s.calls.length) = some 1 := by
    decide +kernel
  have hrun : (run (step 10) (.start oneSnapshot) (loadThenCommit ++ .invalidate :: fencedOut)).map
      (fun s => s.calls[1]?) =
        some (some ⟨false, 1, .returned (entryOf ⟨1, 1, some 20, 0, 2⟩ 0) (some ⟨1, 1, some 20, 0, 2⟩)⟩) := by
    decide +kernel
  obtain ⟨s₂, hs₂, hcall⟩ := map_eq_some_iff.mp hrun
  obtain ⟨s₁, hs₁, hafter⟩ := Transition.run_append_eq_some.mp hs₂
  have hlength : s₁.calls.length = 1 := by simpa [hs₁] using hbefore
  exact ⟨s₁, s₂, _, _, hs₁, hafter, hlength.le, hcall,
    call_after_invalidation 10 oneSnapshot loadThenCommit fencedOut s₁ s₂ hs₁ hafter 1 hlength.le _ hcall _ _ rfl⟩

end LogLake.TableCache
