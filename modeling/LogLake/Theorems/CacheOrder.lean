import LogLake.Lemmas.TableCache
import LogLake.Lib.Transition

/-! # The cache does not move backwards -/

namespace LogLake.TableCache

open Option Transition List

/-- What a call knows when the reloads under way hold a generation: it may replace an entry that is not newer, or has lost
to one that is not older. -/
structure CallOrdered (low held : Nat) (s : State) (call : Call) : Prop where
  epoch : ∀ attempt epoch, call.phase = .started attempt epoch → epoch ≤ s.cache.epoch
  generation : ∀ h, call.phase.held? = some h → h.2.generation = held ∧ h.1 ≤ s.cache.epoch ∧
    held ≤ s.catalog.generation
  current : ∀ h, call.phase.held? = some h → h.1 = s.cache.epoch →
    low ≤ held ∧ ∀ entry, s.cache.entry = some entry → entry.table.generation ≤ held
  lost : ∀ h, call.phase.held? = some h → h.1 ≠ s.cache.epoch →
    ∀ entry, s.cache.entry = some entry → held ≤ entry.table.generation
  returned : ∀ entry own, call.phase = .returned entry (some own) → own.generation ≤ entry.table.generation

/-- The entry lies between the low mark and the catalog, and the calls know their order. -/
structure Ordered (low held : Nat) (s : State) : Prop where
  catalog : low ≤ s.catalog.generation
  entry : ∀ entry, s.cache.entry = some entry → low ≤ entry.table.generation ∧
    entry.table.generation ≤ s.catalog.generation
  calls : ∀ call ∈ s.calls, CallOrdered low held s call

theorem ordered_start (catalog : Table) : Ordered 0 0 (.start catalog) where
  catalog := Nat.zero_le _
  entry := by simp [State.start]
  calls := by simp [State.start]

variable {low held : Nat}

theorem Ordered.raise {s : State} (h : Ordered low held s) {entry : CachedTableEntry}
    (hentry : s.cache.entry = some entry) : Ordered entry.table.generation held s where
  catalog := (h.entry entry hentry).2
  entry := by
    intro entry' hentry'
    obtain rfl := some.inj (hentry.symm.trans hentry')
    exact ⟨le_rfl, (h.entry entry hentry).2⟩
  calls := fun call hcall =>
    { h.calls call hcall with
      current := fun held' hheld hepoch =>
        ⟨((h.calls call hcall).current held' hheld hepoch).2 entry hentry,
          ((h.calls call hcall).current held' hheld hepoch).2⟩ }

/-! ## Calls -/

section

variable {s s' : State} {call : Call}

theorem callOrdered_idle (hheld : call.phase.held? = none)
    (hepoch : ∀ attempt epoch, call.phase = .started attempt epoch → epoch ≤ s.cache.epoch)
    (hreturned : ∀ entry own, call.phase = .returned entry (some own) → own.generation ≤ entry.table.generation) :
    CallOrdered low held s call where
  epoch := hepoch
  generation := by simp [hheld]
  current := by simp [hheld]
  lost := by simp [hheld]
  returned := hreturned

theorem callOrdered_returned {entry : CachedTableEntry} {own : Table} (hphase : call.phase = .returned entry (some own))
    (hown : own.generation ≤ entry.table.generation) : CallOrdered low held s call := by
  refine callOrdered_idle (by simp [hphase, Phase.held?]) (by simp [hphase]) ?_
  intro entry' own' hphase'
  obtain ⟨rfl, rfl⟩ : entry = entry' ∧ own = own' := by simpa [hphase] using hphase'
  exact hown

theorem JustStarted.ordered (h : JustStarted s call) : CallOrdered low held s call := by
  obtain ⟨-, hphase | ⟨entry, -, hphase⟩⟩ := h
  all_goals exact callOrdered_idle (by simp [hphase, Phase.held?]) (by simp [hphase]) (by simp [hphase])

section

variable (h : CallOrdered low held s call)
include h

theorem CallOrdered.of_cache (hcache : s'.cache = s.cache)
    (hcatalog : s.catalog.generation ≤ s'.catalog.generation) : CallOrdered low held s' call where
  epoch := by
    rw [hcache]
    exact h.epoch
  generation := by
    intro h' hheld
    obtain ⟨hgeneration, hepoch, hle⟩ := h.generation h' hheld
    exact ⟨hgeneration, hcache ▸ hepoch, hle.trans hcatalog⟩
  current := by
    rw [hcache]
    exact h.current
  lost := by
    rw [hcache]
    exact h.lost
  returned := h.returned

theorem CallOrdered.of_moved (hcatalog : s'.catalog = s.catalog) (hepoch : s'.cache.epoch = s.cache.epoch + 1)
    (hentry : ∀ entry, s'.cache.entry = some entry → held ≤ entry.table.generation) : CallOrdered low held s' call where
  epoch := fun attempt epoch hphase => (h.epoch attempt epoch hphase).trans (hepoch ▸ Nat.le_succ _)
  generation := by
    intro h' hheld
    obtain ⟨hgeneration, hle, hcat⟩ := h.generation h' hheld
    exact ⟨hgeneration, hle.trans (hepoch ▸ Nat.le_succ _), hcatalog ▸ hcat⟩
  current := by
    intro h' hheld hnow
    have hle := (h.generation h' hheld).2.1
    omega
  lost := fun _ _ _ => hentry
  returned := h.returned

theorem CallOrdered.of_renewed (hcatalog : s'.catalog = s.catalog) (hepoch : s'.cache.epoch = s.cache.epoch)
    (hentry : ∀ entry, s'.cache.entry = some entry → entry.table.generation = held) : CallOrdered low held s' call where
  epoch := by
    rw [hepoch]
    exact h.epoch
  generation := by
    rw [hepoch, hcatalog]
    exact h.generation
  current := by
    intro h' hheld hnow
    exact ⟨(h.current h' hheld (hnow.trans hepoch)).1, fun entry he => (hentry entry he).le⟩
  lost := fun _ _ _ entry he => (hentry entry he).ge
  returned := h.returned

/-- An entry made from a table that is held under the current epoch. -/
theorem CallOrdered.written {h' : Nat × Table} {entry : CachedTableEntry} (hheld : call.phase.held? = some h')
    (hepoch : s.cache.epoch = h'.1) (htable : entry.table = h'.2) : entry.table.generation = held ∧
      low ≤ entry.table.generation ∧ entry.table.generation ≤ s.catalog.generation := by
  obtain ⟨hgeneration, -, hcatalog⟩ := h.generation h' hheld
  have hentry : entry.table.generation = held := htable ▸ hgeneration
  have hlow := (h.current h' hheld hepoch.symm).1
  exact ⟨hentry, hentry ▸ ⟨hlow, hcatalog⟩⟩

end

end

/-! ## Steps and runs -/

theorem Ordered.set {s s' : State} {cache' : Cache} {c : Nat} {next : Call}
    (hs' : { s with cache := cache', calls := s.calls.set c next } = s') (hcatalog : low ≤ s.catalog.generation)
    (hentry : ∀ entry, cache'.entry = some entry → low ≤ entry.table.generation ∧
      entry.table.generation ≤ s.catalog.generation)
    (hothers : ∀ other ∈ s.calls, CallOrdered low held s' other) (hnew : CallOrdered low held s' next) :
    Ordered low held s' := by
  subst hs'
  refine ⟨hcatalog, hentry, fun other hother => ?_⟩
  rcases mem_or_eq_of_mem_set hother with hother | rfl
  · exact hothers other hother
  · exact hnew

/-- A call moves on while the cache stays. -/
theorem Ordered.setPhase {s : State} (h : Ordered low held s) {c : Nat} {next : Call}
    (hnew : CallOrdered low held { s with calls := s.calls.set c next } next) :
    Ordered low held { s with calls := s.calls.set c next } :=
  .set rfl h.catalog h.entry (fun other hother => (h.calls other hother).of_cache rfl le_rfl) hnew

theorem Ordered.reload {s : State} (h : Ordered low held s) {c : Nat} {call : Call}
    (hcall : s.calls[c]? = some call) {a : ReloadAction} (hok : LoadsTogether s (.reload c a)) {cache' : Cache}
    {phase' : Phase} (hout : Outcome s call.phase a cache' phase') :
    ∃ held', Ordered low held' { s with cache := cache', calls := s.calls.set c { call with phase := phase' } } := by
  have hknows := h.calls call (mem_of_getElem? hcall)
  generalize hphase : call.phase = phase at hout
  cases hout with
  | begin attempt =>
    refine ⟨held, h.setPhase ?_⟩
    refine callOrdered_idle rfl ?_ (by simp)
    intro attempt' epoch hstarted
    obtain ⟨-, rfl⟩ : attempt = attempt' ∧ s.cache.epoch = epoch := by simpa using hstarted
    exact le_rfl
  | load attempt epoch =>
    obtain ⟨htogether, hovertaken⟩ := hok
    refine ⟨s.catalog.generation, .set rfl h.catalog h.entry (fun other hother => ?_) ?_⟩
    · -- another reload under way holds the generation of the catalog already
      have hother' := h.calls other hother
      refine ⟨hother'.epoch, ?_, ?_, ?_, hother'.returned⟩
      · intro held' hheld'
        exact ⟨htogether other hother held' hheld', (hother'.generation held' hheld').2.1, le_rfl⟩
      · intro held' hheld' hepoch
        have hsame := (hother'.generation held' hheld').1.symm.trans (htogether other hother held' hheld')
        exact hsame ▸ hother'.current held' hheld' hepoch
      · intro held' hheld' hepoch
        have hsame := (hother'.generation held' hheld').1.symm.trans (htogether other hother held' hheld')
        exact hsame ▸ hother'.lost held' hheld' hepoch
    · refine ⟨by simp, ?_, ?_, ?_, by simp⟩
      · rintro _ ⟨⟩
        exact ⟨rfl, hknows.epoch attempt epoch hphase, le_rfl⟩
      · rintro _ ⟨⟩ -
        exact ⟨h.catalog, fun entry hentry => (h.entry entry hentry).2⟩
      · rintro _ ⟨⟩ hne entry hentry
        refine (hovertaken call hcall ?_ entry hentry).ge
        rw [hphase]
        exact hne
  | hold hheld hheld' =>
    refine ⟨held, h.setPhase ?_⟩
    rw [← hphase] at hheld
    refine ⟨?_, ?_, ?_, ?_, ?_⟩
    · intro attempt epoch hstarted
      dsimp only at hstarted
      simp [hstarted, Phase.held?] at hheld'
    · intro h' hh'
      obtain rfl := some.inj (hheld'.symm.trans hh')
      exact hknows.generation _ hheld
    · intro h' hh'
      obtain rfl := some.inj (hheld'.symm.trans hh')
      exact hknows.current _ hheld
    · intro h' hh'
      obtain rfl := some.inj (hheld'.symm.trans hh')
      exact hknows.lost _ hheld
    · intro entry own hreturned
      dsimp only at hreturned
      simp [hreturned, Phase.held?] at hheld'
  | again attempt | fail =>
    exact ⟨held, h.setPhase (callOrdered_idle rfl (by simp) (by simp))⟩
  | superseded h' hheld hne hentry =>
    rw [← hphase] at hheld
    have hgeneration := (hknows.generation h' hheld).1
    exact ⟨held, h.setPhase (callOrdered_returned rfl (hgeneration ▸ hknows.lost h' hheld hne.symm _ hentry))⟩
  | renewed h' entry hheld hepoch htable =>
    obtain ⟨hentry, hbetween⟩ := hknows.written (hphase ▸ hheld) hepoch htable
    refine ⟨held, .set rfl h.catalog ?_ (fun other hother => (h.calls other hother).of_renewed rfl rfl ?_)
      (callOrdered_returned rfl (htable ▸ le_rfl))⟩
    · rintro _ ⟨⟩
      exact hbetween
    · rintro _ ⟨⟩
      exact hentry
  | published h' entry hheld hepoch htable =>
    obtain ⟨hentry, hbetween⟩ := hknows.written (hphase ▸ hheld) hepoch htable
    refine ⟨held, .set rfl h.catalog ?_ (fun other hother => (h.calls other hother).of_moved rfl rfl ?_)
      (callOrdered_returned rfl (htable ▸ le_rfl))⟩
    · rintro _ ⟨⟩
      exact hbetween
    · rintro _ ⟨⟩
      exact hentry.ge
  | unpublished h' entry hheld htable =>
    exact ⟨held, h.setPhase (callOrdered_returned rfl (htable ▸ le_rfl))⟩

theorem Ordered.step {ttl low held : Nat} {s s' : State} {a : Action} (h : Ordered low held s) (hok : LoadsTogether s a)
    (hstep : step ttl s a = some s') : ∃ held', Ordered low held' s' := by
  cases step_move hstep with
  | quiet _ catalog refreshing clock new hcatalog hnew =>
    refine ⟨held, h.catalog.trans hcatalog, ?_, fun call hcall => ?_⟩
    · exact fun entry hentry => ⟨(h.entry entry hentry).1, (h.entry entry hentry).2.trans hcatalog⟩
    · rcases mem_append.mp hcall with hold | hcall
      · exact (h.calls call hold).of_cache rfl hcatalog
      · exact (hnew call hcall).ordered.of_cache rfl hcatalog
  | invalidate =>
    refine ⟨held, h.catalog, by simp [Cache.invalidate], fun call hcall => ?_⟩
    exact (h.calls call hcall).of_moved rfl rfl (by simp [Cache.invalidate])
  | reload c a call cache' phase' hcall hout => exact h.reload hcall hok hout

/-- In every run in which overlapping reloads load one generation, the entry at a later point is not of an earlier generation
than the entry before, and a call that loaded the table returns nothing older than what it loaded. -/
theorem cache_keeps_order (ttl : Nat) (catalog : Table) (before after : List Action) (s₁ s₂ : State)
    (hbefore : run (step ttl) (.start catalog) before = some s₁) (hafter : run (step ttl) s₁ after = some s₂)
    (hok₁ : Meets (step ttl) LoadsTogether (.start catalog) before) (hok₂ : Meets (step ttl) LoadsTogether s₁ after) :
    (∀ entry₁, s₁.cache.entry = some entry₁ → ∀ entry₂, s₂.cache.entry = some entry₂ →
      entry₁.table.generation ≤ entry₂.table.generation) ∧
    ∀ call ∈ s₂.calls, ∀ entry own, call.phase = .returned entry (some own) →
      own.generation ≤ entry.table.generation := by
  have hrun : ∀ {low : Nat} {s s' : State} {actions : List Action}, (∃ held, Ordered low held s) →
      Meets (step ttl) LoadsTogether s actions → run (step ttl) s actions = some s' → ∃ held, Ordered low held s' := by
    intro low s s' actions hs hmeets hrun
    exact invariant_run (I := fun s => ∃ held, Ordered low held s)
      (fun _ _ _ h hok hstep => h.elim fun _ h => h.step hok hstep) hs hmeets hrun
  obtain ⟨held₁, h₁⟩ := hrun ⟨0, ordered_start catalog⟩ hok₁ hbefore
  constructor
  · intro entry₁ hentry₁ entry₂ hentry₂
    obtain ⟨held₂, h₂⟩ := hrun ⟨held₁, h₁.raise hentry₁⟩ hok₂ hafter
    exact (h₂.entry entry₂ hentry₂).1
  · intro call hcall entry own hreturned
    obtain ⟨held₂, h₂⟩ := hrun ⟨held₁, h₁⟩ hok₂ hafter
    exact (h₂.calls call hcall).returned entry own hreturned

def firstPublication : List Action :=
  [.call, .reload 0 .begin, .reload 0 .load, .reload 0 .check, .reload 0 .build, .reload 0 .publish]

def bothAfterCommit : List Action :=
  [.tick 120, .commit 1 (some 10) 0 1, .call, .call, .reload 1 .begin, .reload 1 .load, .reload 2 .begin, .reload 2 .load,
    .reload 2 .check, .reload 1 .check]

def commitBetween : List Action :=
  [.tick 120, .call, .call, .reload 1 .begin, .reload 1 .load, .commit 1 (some 10) 0 1, .reload 2 .begin, .reload 2 .load,
    .reload 2 .check]

def olderPublished : List Action :=
  [.call, .call, .reload 0 .begin, .reload 0 .load, .commit 1 (some 20) 0 2, .reload 1 .begin, .reload 1 .load,
    .reload 0 .check, .reload 0 .build, .reload 0 .publish, .reload 1 .check]

/-- Both renewals after the commit leave its generation in the entry. -/
theorem renewed_together :
    ∃ s₁ s₂ entry₁ entry₂, run (step 10) (.start oneSnapshot) firstPublication = some s₁ ∧
      run (step 10) s₁ bothAfterCommit = some s₂ ∧
      s₁.cache.entry = some entry₁ ∧ s₂.cache.entry = some entry₂ ∧
      entry₁.table.generation ≤ entry₂.table.generation := by
  have hbefore : (run (step 10) (.start oneSnapshot) firstPublication).map (fun s => s.cache.entry) =
      some (some (entryOf oneSnapshot 0)) := by
    decide +kernel
  have hrun : (run (step 10) (.start oneSnapshot) (firstPublication ++ bothAfterCommit)).map (fun s => s.cache.entry) =
        some (some { entryOf oneSnapshot 0 with refreshedAt := 120, table := ⟨1, 1, some 10, 0, 1⟩ }) := by
    decide +kernel
  have hmeets : Meets (step 10) LoadsTogether (.start oneSnapshot) (firstPublication ++ bothAfterCommit) := by
    decide +kernel
  obtain ⟨s₂, hs₂, hentry₂⟩ := map_eq_some_iff.mp hrun
  obtain ⟨s₁, hs₁, hafter⟩ := run_append_eq_some.mp hs₂
  have hentry₁ : s₁.cache.entry = some (entryOf oneSnapshot 0) := by simpa [hs₁] using hbefore
  obtain ⟨hok₁, hok₂⟩ := meets_append.mp hmeets
  exact ⟨s₁, s₂, _, _, hs₁, hafter, hentry₁, hentry₂,
    (cache_keeps_order 10 oneSnapshot _ _ s₁ s₂ hs₁ hafter hok₁ (hok₂ s₁ hs₁)).1 _ hentry₁ _ hentry₂⟩

/-- The renewal of a reload that read the catalog before the commit puts the older generation back. And a call that loaded the
new snapshot returns the older one that was published while it was under way. -/
theorem cache_moves_backwards :
    (∃ s₁ s₂ entry₁ entry₂, run (step 10) (.start oneSnapshot) (firstPublication ++ commitBetween) = some s₁ ∧
      run (step 10) s₁ [.reload 1 .check] = some s₂ ∧ s₁.cache.entry = some entry₁ ∧ s₂.cache.entry = some entry₂ ∧
      entry₂.table.generation < entry₁.table.generation) ∧
    (∃ s call entry own, run (step 10) (.start oneSnapshot) olderPublished = some s ∧ call ∈ s.calls ∧
      call.phase = .returned entry (some own) ∧ entry.table.generation < own.generation) := by
  constructor
  · have hbefore : (run (step 10) (.start oneSnapshot) (firstPublication ++ commitBetween)).map
        (fun s => s.cache.entry) =
          some (some { entryOf oneSnapshot 0 with refreshedAt := 120, table := ⟨1, 1, some 10, 0, 1⟩ }) := by
      decide +kernel
    have hrun : (run (step 10) (.start oneSnapshot) (firstPublication ++ commitBetween ++ [.reload 1 .check])).map
        (fun s => s.cache.entry) = some (some { entryOf oneSnapshot 0 with refreshedAt := 120 }) := by
      decide +kernel
    obtain ⟨s₂, hs₂, hentry₂⟩ := map_eq_some_iff.mp hrun
    obtain ⟨s₁, hs₁, hafter⟩ := run_append_eq_some.mp hs₂
    rw [hs₁] at hbefore
    exact ⟨s₁, s₂, _, _, hs₁, hafter, some.inj hbefore, hentry₂, by decide⟩
  · have hrun : (run (step 10) (.start oneSnapshot) olderPublished).map (fun s => s.calls[1]?) =
        some (some ⟨false, 0, .returned (entryOf oneSnapshot 0) (some ⟨1, 1, some 20, 0, 2⟩)⟩) := by
      decide +kernel
    obtain ⟨s, hs, hcall⟩ := map_eq_some_iff.mp hrun
    exact ⟨s, _, _, _, hs, mem_of_getElem? hcall, rfl, by decide⟩

end LogLake.TableCache
