import LogLake.Iceberg.TableCache

/-! # What a step of a reload does to the table cache -/

namespace LogLake.TableCache

open Option

/-- The ways a step of a reload can go. -/
inductive Outcome (s : State) : Phase → ReloadAction → Cache → Phase → Prop where
  | begin (attempt : Nat) : Outcome s (.waiting attempt) .begin s.cache (.started attempt s.cache.epoch)
  | load (attempt epoch : Nat) : Outcome s (.started attempt epoch) .load s.cache (.loaded attempt epoch s.catalog)
  | hold {phase phase' : Phase} {a : ReloadAction} {held : Nat × Table} : phase.held? = some held →
      phase'.held? = some held → Outcome s phase a s.cache phase'
  | again {phase : Phase} {a : ReloadAction} (attempt : Nat) : Outcome s phase a s.cache (.waiting attempt)
  | fail {phase : Phase} {a : ReloadAction} : Outcome s phase a s.cache .failed
  | superseded {phase : Phase} {a : ReloadAction} (held : Nat × Table) {existing : CachedTableEntry} :
      phase.held? = some held → s.cache.epoch ≠ held.1 → s.cache.entry = some existing →
      Outcome s phase a s.cache (.returned existing (some held.2))
  | renewed {phase : Phase} {a : ReloadAction} (held : Nat × Table) (entry : CachedTableEntry) :
      phase.held? = some held → s.cache.epoch = held.1 → entry.table = held.2 →
      Outcome s phase a { s.cache with entry := some entry } (.returned entry (some held.2))
  | published {phase : Phase} {a : ReloadAction} (held : Nat × Table) (entry : CachedTableEntry) :
      phase.held? = some held → s.cache.epoch = held.1 → entry.table = held.2 →
      Outcome s phase a ⟨some entry, s.cache.epoch + 1⟩ (.returned entry (some held.2))
  | unpublished {phase : Phase} {a : ReloadAction} (held : Nat × Table) (entry : CachedTableEntry) :
      phase.held? = some held → entry.table = held.2 → Outcome s phase a s.cache (.returned entry (some held.2))

theorem check_outcome (s : State) (attempt epoch : Nat) (table : Table) :
    Outcome s (.loaded attempt epoch table) .check (s.cache.check s.clock attempt epoch table).1
      (s.cache.check s.clock attempt epoch table).2 := by
  unfold Cache.check
  split
  · rename_i existing hentry
    by_cases hepoch : s.cache.epoch = epoch
    · rw [if_pos hepoch]
      by_cases hsame : SameGeneration existing table
      · rw [if_pos hsame]
        exact .renewed (epoch, table) _ rfl hepoch rfl
      · rw [if_neg hsame]
        exact .hold rfl rfl
    · rw [if_neg hepoch]
      exact .superseded (epoch, table) rfl hepoch hentry
  · split
    · exact .again _
    · exact .hold rfl rfl

theorem publish_outcome (s : State) (attempt epoch : Nat) (entry : CachedTableEntry) :
    Outcome s (.built attempt epoch entry) .publish (s.cache.publish attempt epoch entry).1
      (s.cache.publish attempt epoch entry).2 := by
  unfold Cache.publish
  by_cases hepoch : s.cache.epoch = epoch
  · rw [if_pos hepoch]
    exact .published (epoch, entry.table) entry rfl hepoch rfl
  · rw [if_neg hepoch]
    split
    · rename_i existing hentry
      exact .superseded (epoch, entry.table) rfl hepoch hentry
    · split
      · exact .again _
      · exact .unpublished (epoch, entry.table) entry rfl rfl

variable {s : State}

/-- What one step of a reload can come to. -/
theorem reloadStep_outcome {phase phase' : Phase} {a : ReloadAction} {cache' : Cache}
    (hstep : reloadStep s phase a = some (cache', phase')) : Outcome s phase a cache' phase' := by
  unfold reloadStep at hstep
  split at hstep
  · cases hstep
    exact .begin _
  · cases hstep
    exact .load _ _
  · obtain ⟨rfl, rfl⟩ := Prod.ext_iff.mp (some.inj hstep)
    exact check_outcome s _ _ _
  · cases hstep
    exact .hold rfl rfl
  · obtain ⟨rfl, rfl⟩ := Prod.ext_iff.mp (some.inj hstep)
    exact publish_outcome s _ _ _
  · cases hstep
    exact .fail
  · cases hstep
    exact .fail
  · exact absurd hstep (by simp)

/-- A call that has just started: it returned the entry, or is about to read the epoch. -/
def JustStarted (s : State) (call : Call) : Prop :=
  call.floor = s.invalidated ∧
    (call.phase = .waiting 1 ∨ ∃ entry, s.cache.entry = some entry ∧ call.phase = .returned entry none)

theorem callEntry_eq (ttl : Nat) (s : State) :
    ∃ refreshing new, callEntry ttl s = { s with refreshing, calls := s.calls ++ new } ∧ ∀ call ∈ new, JustStarted s call := by
  unfold callEntry
  split
  · rename_i entry hentry
    have hserved : JustStarted s ⟨false, s.invalidated, .returned entry none⟩ := ⟨rfl, .inr ⟨entry, hentry, rfl⟩⟩
    split
    · exact ⟨s.refreshing, _, rfl, by simpa using hserved⟩
    split
    · split
      · exact ⟨s.refreshing, _, rfl, by simpa using hserved⟩
      · refine ⟨true, _, rfl, ?_⟩
        simp only [List.mem_cons, List.not_mem_nil, or_false, forall_eq_or_imp, forall_eq]
        exact ⟨hserved, rfl, .inl rfl⟩
    · exact ⟨s.refreshing, _, rfl, by simp [JustStarted]⟩
  · exact ⟨s.refreshing, _, rfl, by simp [JustStarted]⟩

theorem step_release {ttl c : Nat} {s' : State} (hstep : step ttl s (.release c) = some s') :
    s' = { s with refreshing := false } := by
  obtain ⟨call, -, hrelease⟩ := bind_eq_some_iff.mp hstep
  split at hrelease
  · exact (some.inj hrelease).symm
  · exact (some.inj hrelease).symm
  · exact absurd hrelease (by simp)

/-- What a step does: it leaves the cache alone and may add calls that have just started, or it invalidates the cache, or a
reload takes a step. -/
inductive Move (s : State) : Action → State → Prop where
  | quiet (a : Action) (catalog : Table) (refreshing : Bool) (clock : Nat) (new : List Call)
      (hcatalog : s.catalog.generation ≤ catalog.generation) (hnew : ∀ call ∈ new, JustStarted s call) :
      Move s a { s with catalog, refreshing, clock, calls := s.calls ++ new }
  | invalidate : Move s .invalidate { s with cache := s.cache.invalidate, invalidated := s.catalog.generation }
  | reload (c : Nat) (a : ReloadAction) (call : Call) (cache : Cache) (phase : Phase) (hcall : s.calls[c]? = some call)
      (hout : Outcome s call.phase a cache phase) :
      Move s (.reload c a) { s with cache, calls := s.calls.set c { call with phase } }

/-- What one step can do to the cache and the calls. -/
theorem step_move {ttl : Nat} {a : Action} {s' : State} (hstep : step ttl s a = some s') : Move s a s' := by
  -- a step that adds no call
  have hsame : ∀ (catalog : Table) (refreshing : Bool) (clock : Nat), s.catalog.generation ≤ catalog.generation →
      s' = { s with catalog, refreshing, clock } → Move s a s' := by
    intro catalog refreshing clock hcatalog heq
    have hquiet := Move.quiet a catalog refreshing clock [] hcatalog (by simp)
    rwa [List.append_nil, ← heq] at hquiet
  cases a with
  | commit uuid snapshotId schemaId snapshotCount => exact hsame _ _ _ (Nat.le_succ _) (some.inj hstep).symm
  | invalidate =>
    cases hstep
    exact .invalidate
  | tick time => exact hsame _ _ _ le_rfl (some.inj hstep).symm
  | call =>
    cases hstep
    obtain ⟨refreshing, new, heq, hnew⟩ := callEntry_eq ttl s
    rw [heq]
    exact .quiet _ s.catalog refreshing s.clock new le_rfl hnew
  | refresh =>
    cases hstep
    exact .quiet _ s.catalog s.refreshing s.clock _ le_rfl (List.forall_mem_singleton.mpr ⟨rfl, .inl rfl⟩)
  | reload c a =>
    obtain ⟨call, hcall, hmap⟩ := bind_eq_some_iff.mp hstep
    obtain ⟨⟨cache', phase'⟩, hreload, rfl⟩ := map_eq_some_iff.mp hmap
    exact .reload c a call cache' phase' hcall (reloadStep_outcome hreload)
  | release c => exact hsame _ _ _ le_rfl (step_release hstep)

/-! ## Read your own commit -/

/-- What a call knows of the generations since the last invalidation before it. -/
structure CallFresh (s : State) (call : Call) : Prop where
  floor : call.floor ≤ s.invalidated
  epoch : ∀ attempt epoch, call.phase = .started attempt epoch → epoch ≤ s.cache.epoch
  held : ∀ held, call.phase.held? = some held → call.floor ≤ held.2.generation ∧ held.1 ≤ s.cache.epoch ∧
    (held.1 = s.cache.epoch → s.invalidated ≤ held.2.generation)
  returned : ∀ entry own, call.phase = .returned entry own → call.floor ≤ entry.table.generation

/-- The entry, and every table that may still replace it, is of the generation of the last invalidation or later. -/
structure Fresh (s : State) : Prop where
  catalog : s.invalidated ≤ s.catalog.generation
  entry : ∀ entry, s.cache.entry = some entry → s.invalidated ≤ entry.table.generation
  calls : ∀ call ∈ s.calls, CallFresh s call

theorem fresh_start (catalog : Table) : Fresh (.start catalog) where
  catalog := Nat.zero_le _
  entry := by simp [State.start]
  calls := by simp [State.start]

variable {call : Call}

theorem JustStarted.fresh (h : JustStarted s call) (hs : Fresh s) : CallFresh s call := by
  obtain ⟨hfloor, hphase | ⟨entry, hentry, hphase⟩⟩ := h
  · refine ⟨hfloor.le, ?_, ?_, ?_⟩ <;> simp [hphase, Phase.held?]
  · refine ⟨hfloor.le, by simp [hphase], by simp [hphase, Phase.held?], ?_⟩
    intro entry' own hreturned
    obtain ⟨rfl, -⟩ : entry = entry' ∧ none = own := by simpa [hphase] using hreturned
    exact hfloor ▸ hs.entry entry hentry

/-- A call stays fresh while the cache moves on. -/
theorem CallFresh.mono {s' : State} (h : CallFresh s call) (hepoch : s.cache.epoch ≤ s'.cache.epoch)
    (hinvalidated : s.invalidated ≤ s'.invalidated)
    (hsame : s.cache.epoch = s'.cache.epoch → s'.invalidated = s.invalidated) : CallFresh s' call where
  floor := h.floor.trans hinvalidated
  epoch := fun attempt epoch hphase => (h.epoch attempt epoch hphase).trans hepoch
  held := by
    intro held hheld
    obtain ⟨hfloor, hle, hcurrent⟩ := h.held held hheld
    refine ⟨hfloor, hle.trans hepoch, fun hnow => ?_⟩
    have hboth : s.cache.epoch = s'.cache.epoch := le_antisymm hepoch (hnow ▸ hle)
    rw [hsame hboth]
    exact hcurrent (hnow.trans hboth.symm)
  returned := h.returned

theorem callFresh_idle (hfloor : call.floor ≤ s.invalidated)
    (hphase : (∃ attempt, call.phase = .waiting attempt) ∨ call.phase = .failed) : CallFresh s call := by
  obtain ⟨attempt, hphase⟩ | hphase := hphase <;> refine ⟨hfloor, ?_, ?_, ?_⟩ <;> simp [hphase, Phase.held?]

theorem callFresh_held {held : Nat × Table} (hheld : call.phase.held? = some held)
    (hfloor : call.floor ≤ s.invalidated) (hgeneration : call.floor ≤ held.2.generation) (hepoch : held.1 ≤ s.cache.epoch)
    (hcurrent : held.1 = s.cache.epoch → s.invalidated ≤ held.2.generation) : CallFresh s call where
  floor := hfloor
  epoch := by
    intro attempt epoch hphase
    simp [hphase, Phase.held?] at hheld
  held := by
    intro held' hheld'
    obtain rfl := some.inj (hheld.symm.trans hheld')
    exact ⟨hgeneration, hepoch, hcurrent⟩
  returned := by
    intro entry own hphase
    simp [hphase, Phase.held?] at hheld

theorem callFresh_returned {entry : CachedTableEntry} {own : Option Table}
    (hphase : call.phase = .returned entry own) (hfloor : call.floor ≤ s.invalidated)
    (hgeneration : call.floor ≤ entry.table.generation) : CallFresh s call where
  floor := hfloor
  epoch := by simp [hphase]
  held := by simp [hphase, Phase.held?]
  returned := by
    intro entry' own' hphase'
    obtain ⟨rfl, -⟩ : entry = entry' ∧ own = own' := by simpa [hphase] using hphase'
    exact hgeneration

end LogLake.TableCache
