import LogLake.Wal.Partials

/-! # Recovery of partials and the live writers -/

namespace LogLake

open List Option

open Transition (run Meets)

namespace PartialsState

variable {s s' : PartialsState}

/-! ## Names -/

@[simp] theorem stem?_partial (stem : Text) (size : Nat) (framed : Bool) (modified : Nat) :
    (⟨some (stem ++ partialEnding), size, framed, modified⟩ : ActiveFile).stem? = some stem := by
  simpa [ActiveFile.stem?] using mem_stripSuffix.mpr rfl

variable {stem : Text} {f : ActiveFile}

theorem mem_of_mem_without (hf : f ∈ without stem s.active) : f ∈ s.active :=
  mem_of_mem_filter hf

theorem stem?_of_mem_grow {bytes time : Nat} (hf : f ∈ grow stem bytes time s.active) :
    ∃ g ∈ s.active, g.stem? = f.stem? := by
  obtain ⟨g, hg, rfl⟩ := mem_map.mp hf
  refine ⟨g, hg, ?_⟩
  split
  · rfl
  · rfl

/-! ## What a writer's step changes -/

/-- The segments a step leaves with the writers were theirs before or are drawn by it. -/
structure WriterStep (s s' : PartialsState) : Prop where
  recovery : s'.recovery = s.recovery
  stolen : s'.stolen = s.stolen
  drawn : s.drawn ⊆ s'.drawn
  holds : ∀ w' ∈ s'.writers, ∀ stem, w'.Holds stem →
    (∃ w ∈ s.writers, w.id = w'.id ∧ w.Holds stem) ∨ stem ∉ s.drawn ∧ stem ∈ s'.drawn
  named : ∀ f ∈ s'.active, (∃ g ∈ s.active, g.stem? = f.stem?) ∨ ∀ stem, f.stem? = some stem → stem ∈ s'.drawn

theorem not_holds_none (id stem : Text) : ¬ (⟨id, none⟩ : LiveWriter).Holds stem := by
  rintro ⟨seg, hseg, _⟩
  cases hseg

theorem holds_of_mem_set {writer : Nat} {w : LiveWriter} {current : Option ActiveSegment} (hw : s.writers[writer]? = some w)
    (hcurrent : ∀ seg ∈ current, w.Holds seg.stem) :
    ∀ w' ∈ s.writers.set writer { w with current := current }, ∀ stem, w'.Holds stem →
      ∃ v ∈ s.writers, v.id = w'.id ∧ v.Holds stem := by
  intro w' hw' stem hholds
  rcases mem_or_eq_of_mem_set hw' with hold | rfl
  · exact ⟨w', hold, rfl, hholds⟩
  · obtain ⟨seg, hseg, rfl⟩ := hholds
    exact ⟨w, mem_of_getElem? hw, rfl, hcurrent seg hseg⟩

theorem holds_some_iff (id stem : Text) (seg : ActiveSegment) : (⟨id, some seg⟩ : LiveWriter).Holds stem ↔ seg.stem = stem := by
  simp [LiveWriter.Holds]

variable {adoptAfter : Nat}

theorem writerStep_of_step {a : PartialsAction} (hstep : partialsStep adoptAfter s a = some s')
    (ha : a.ofWriter = true) : WriterStep s s' := by
  cases a with
  | spawn id =>
    cases hstep
    refine ⟨rfl, rfl, List.Subset.refl _, fun w' hw' stem hholds => ?_, fun f hf => .inl ⟨f, hf, rfl⟩⟩
    rcases mem_append.mp hw' with hold | hnew
    · exact .inl ⟨w', hold, rfl, hholds⟩
    · rw [mem_singleton.mp hnew] at hholds
      exact absurd hholds (not_holds_none id stem)
  | startSegment writer uuid time =>
    obtain ⟨w, _, hguard⟩ := bind_eq_some_iff.mp hstep
    obtain ⟨⟨_, hfresh⟩, rfl⟩ := Option.ite_some_none_eq_some.mp hguard
    refine ⟨rfl, rfl, subset_append_left .., fun w' hw' stem hholds => ?_, fun f hf => ?_⟩
    · rcases mem_or_eq_of_mem_set hw' with hold | rfl
      · exact .inl ⟨w', hold, rfl, hholds⟩
      · obtain rfl := (holds_some_iff ..).mp hholds
        exact .inr ⟨hfresh, mem_append_right _ (mem_singleton_self _)⟩
    · rcases mem_append.mp hf with hold | hnew
      · exact .inl ⟨f, hold, rfl⟩
      · right
        intro stem hstem
        rw [mem_singleton.mp hnew, stem?_partial, some.injEq] at hstem
        exact mem_append_right _ (mem_singleton.mpr hstem.symm)
  | append writer rows bytes time =>
    obtain ⟨w, hw, hmap⟩ := bind_eq_some_iff.mp hstep
    obtain ⟨seg, hseg, heq⟩ := map_eq_some_iff.mp hmap
    cases heq
    refine ⟨rfl, rfl, List.Subset.refl _, fun w' hw' stem hholds => .inl ?_, fun f hf => .inl (stem?_of_mem_grow hf)⟩
    refine holds_of_mem_set hw (fun seg' hseg' => ?_) w' hw' stem hholds
    cases hseg'
    exact ⟨seg, hseg, rfl⟩
  | sealCurrent writer unlinked =>
    obtain ⟨w, hw, hmap⟩ := bind_eq_some_iff.mp hstep
    obtain ⟨seg, _, heq⟩ := map_eq_some_iff.mp hmap
    cases heq
    refine ⟨rfl, rfl, List.Subset.refl _, fun w' hw' stem hholds => .inl ?_, fun f hf => .inl ⟨f, ?_, rfl⟩⟩
    · exact holds_of_mem_set hw (fun seg' hseg' => by cases hseg') w' hw' stem hholds
    · cases unlinked with
      | false => exact hf
      | true => exact mem_of_mem_without hf
  | sealFails writer =>
    obtain ⟨w, hw, heq⟩ := map_eq_some_iff.mp hstep
    cases heq
    refine ⟨rfl, rfl, List.Subset.refl _, fun w' hw' stem hholds => .inl ?_, fun f hf => .inl ⟨f, hf, rfl⟩⟩
    exact holds_of_mem_set hw (fun seg' hseg' => by cases hseg') w' hw' stem hholds
  | crash writer =>
    cases hstep
    exact ⟨rfl, rfl, List.Subset.refl _, fun w' hw' stem hholds => .inl ⟨w', mem_of_mem_eraseIdx hw', rfl, hholds⟩,
      fun f hf => .inl ⟨f, hf, rfl⟩⟩
  | recover | inspect | take | finish => cases ha

/-! ## The invariant -/

/-- Every open segment and every partial was drawn, the partial the recovery is about to take is no live writer's of another id,
and none was taken from one. -/
structure Undisturbed (s : PartialsState) : Prop where
  drawn : ∀ w ∈ s.writers, ∀ stem, w.Holds stem → stem ∈ s.drawn
  named : ∀ f ∈ s.active, ∀ stem, f.stem? = some stem → stem ∈ s.drawn
  taking : ∀ r, s.recovery = some r → ∀ taken, r.taking = some taken → taken.1 ∈ s.drawn ∧ ¬ s.Steals r.owner taken.1
  stolen : s.stolen = []

theorem undisturbed_leftBehind (active : List ActiveFile) (sealedStems : List Text) :
    Undisturbed (leftBehind active sealedStems) := by
  refine ⟨fun w hw => absurd hw not_mem_nil, fun f hf stem hstem => ?_, fun r hr => ?_, rfl⟩
  · exact mem_filterMap.mpr ⟨f, hf, hstem⟩
  · cases hr

theorem WriterStep.undisturbed (hw : WriterStep s s') (h : Undisturbed s) : Undisturbed s' := by
  refine ⟨fun w' hw' stem hholds => ?_, fun f hf stem hstem => ?_, fun r hr taken htaken => ?_, ?_⟩
  · rcases hw.holds w' hw' stem hholds with ⟨w, hmem, _, hold⟩ | ⟨_, hnew⟩
    · exact hw.drawn (h.drawn w hmem stem hold)
    · exact hnew
  · rcases hw.named f hf with ⟨g, hg, hsame⟩ | hnew
    · exact hw.drawn (h.named g hg stem (hsame.trans hstem))
    · exact hnew stem hstem
  · rw [hw.recovery] at hr
    obtain ⟨hdrawn, hfree⟩ := h.taking r hr taken htaken
    refine ⟨hw.drawn hdrawn, ?_⟩
    rintro ⟨w', hw', hid, hholds⟩
    rcases hw.holds w' hw' taken.1 hholds with ⟨w, hmem, hsame, hold⟩ | ⟨hfresh, _⟩
    · exact hfree ⟨w, hmem, hsame ▸ hid, hold⟩
    · exact hfresh hdrawn
  · rw [hw.stolen]
    exact h.stolen

theorem Undisturbed.setRecovery (h : Undisturbed s) (recovery : Option PartialRecovery)
    (hnone : ∀ r, recovery = some r → r.taking = none) : Undisturbed { s with recovery := recovery } := by
  refine { h with taking := fun r hr taken htaken => ?_ }
  rw [hnone r hr] at htaken
  cases htaken

theorem Undisturbed.takeAway (h : Undisturbed s) {owner : Text} (hfree : ¬ s.Steals owner stem) :
    Undisturbed (s.takeAway owner stem) := by
  refine ⟨h.drawn, fun f hf => h.named f (mem_of_mem_without hf), h.taking, ?_⟩
  change (if s.Steals owner stem then s.stolen ++ [stem] else s.stolen) = []
  rw [if_neg hfree]
  exact h.stolen

theorem Undisturbed.takePartial (h : Undisturbed s) {r : PartialRecovery} {size : Nat} {succeeds : Bool}
    (hfree : ¬ s.Steals r.owner stem) (htake : s.takePartial r stem size succeeds = some s') : Undisturbed s' := by
  simp only [PartialsState.takePartial] at htake
  split at htake
  · cases htake
  · split at htake
    · cases htake
      cases succeeds with
      | false => exact h.setRecovery _ fun r' hr' => by cases hr'; rfl
      | true => exact (h.takeAway hfree).setRecovery _ fun r' hr' => by cases hr'; rfl
    · split at htake
      · cases htake
        have hnext := (h.takeAway hfree).setRecovery (some { r with taking := none, recovered := r.recovered + 1 })
          fun r' hr' => by cases hr'; rfl
        exact { hnext with }
      · cases htake
        exact h.setRecovery _ fun r' hr' => by cases hr'

theorem inspectEntry_taking {r : PartialRecovery} {now : Nat} {known : Bool} (hidle : r.taking = none)
    (hapart : ∀ stem ∈ f.stem?, s.Steals r.owner stem → carriesId r.owner stem = false ∧ f.idle now known < adoptAfter)
    {taken : Text × Nat} (htaken : (inspectEntry adoptAfter r f now known).taking = some taken) :
    f.stem? = some taken.1 ∧ ¬ s.Steals r.owner taken.1 := by
  unfold inspectEntry at htaken
  split at htaken
  · rw [hidle] at htaken
    cases htaken
  · rename_i stem hstem
    split at htaken
    · rename_i htest
      cases htaken
      refine ⟨hstem, fun hsteals => ?_⟩
      obtain ⟨hname, hfresh⟩ := hapart stem hstem hsteals
      rw [hname, Bool.false_or, decide_eq_true_eq] at htest
      omega
    · change r.taking = some taken at htaken
      rw [hidle] at htaken
      cases htaken

theorem inspectEntry_owner (adoptAfter : Nat) (r : PartialRecovery) (f : ActiveFile) (now : Nat) (known : Bool) :
    (inspectEntry adoptAfter r f now known).owner = r.owner := by
  unfold inspectEntry
  split
  · rfl
  · split
    · rfl
    · rfl

theorem Undisturbed.step {a : PartialsAction} (h : Undisturbed s) (hok : ToldApart adoptAfter s a)
    (hstep : partialsStep adoptAfter s a = some s') : Undisturbed s' := by
  cases ha : a.ofWriter with
  | true => exact (writerStep_of_step hstep ha).undisturbed h
  | false =>
    cases a with
    | recover owner =>
      obtain ⟨_, rfl⟩ := Option.ite_some_none_eq_some.mp hstep
      exact h.setRecovery _ fun r hr => by cases hr; rfl
    | inspect entry now known =>
      obtain ⟨r, hr, hrest⟩ := bind_eq_some_iff.mp hstep
      obtain ⟨f, hf, hguard⟩ := bind_eq_some_iff.mp hrest
      obtain ⟨hidle, rfl⟩ := Option.ite_some_none_eq_some.mp hguard
      refine { h with taking := fun r' hr' taken htaken => ?_ }
      cases hr'
      obtain ⟨hstem, hfree⟩ := inspectEntry_taking hidle (hok r hr f hf) htaken
      rw [inspectEntry_owner]
      exact ⟨h.named f (mem_of_getElem? hf) taken.1 hstem, hfree⟩
    | take succeeds =>
      obtain ⟨r, hr, hrest⟩ := bind_eq_some_iff.mp hstep
      obtain ⟨taken, htaken, htake⟩ := bind_eq_some_iff.mp hrest
      exact h.takePartial (h.taking r hr taken htaken).2 htake
    | finish =>
      obtain ⟨r, _, hguard⟩ := bind_eq_some_iff.mp hstep
      obtain ⟨_, rfl⟩ := Option.ite_some_none_eq_some.mp hguard
      exact h.setRecovery _ fun r' hr' => by cases hr'
    | spawn | startSegment | append | sealCurrent | sealFails | crash => cases ha

end PartialsState

/-! ## The recovery -/

/-- In every interleaving of live writers and recoveries in which the recovery can tell the partials of live writers of other ids
from abandoned ones, it removes and renames none of them. -/
theorem recovery_leaves_live_partials {adoptAfter : Nat} {active : List ActiveFile} {sealedStems : List Text}
    {as : List PartialsAction} {s : PartialsState}
    (hrun : run (partialsStep adoptAfter) (.leftBehind active sealedStems) as = some s)
    (hmeets : Meets (partialsStep adoptAfter) (ToldApart adoptAfter) (.leftBehind active sealedStems) as) : s.stolen = [] :=
  (Transition.invariant_run (I := PartialsState.Undisturbed) (fun _ _ _ h hok hstep => h.step hok hstep)
    (PartialsState.undisturbed_leftBehind active sealedStems) hmeets hrun).stolen

def restartBesideSibling : List PartialsAction :=
  [.spawn "pod-a".toList, .spawn "pod-b".toList, .startSegment 0 "0192".toList 0, .append 0 0 52 0, .append 0 3 900 1,
    .startSegment 1 "0193".toList 2, .append 1 0 52 2, .crash 0, .recover "pod-a".toList, .inspect 0 60 true,
    .append 0 2 700 61, .take true, .inspect 0 62 true, .finish]

theorem sibling_left_alone :
    ∃ s, run (partialsStep 120) (.leftBehind [] []) restartBesideSibling = some s ∧
      s.sealedStems = ["pod-a-0192".toList] ∧ s.active.filterMap ActiveFile.stem? = ["pod-b-0193".toList] ∧
      s.stolen = [] := by
  have hend : (run (partialsStep 120) (.leftBehind [] []) restartBesideSibling).map
      (fun s => (s.sealedStems, s.active.filterMap ActiveFile.stem?)) =
      some (["pod-a-0192".toList], ["pod-b-0193".toList]) := by decide +kernel
  obtain ⟨s, hs, hparts⟩ := map_eq_some_iff.mp hend
  have hmeets : Meets (partialsStep 120) (ToldApart 120) (.leftBehind [] []) restartBesideSibling := by decide +kernel
  exact ⟨s, hs, congrArg Prod.fst hparts, congrArg Prod.snd hparts, recovery_leaves_live_partials hs hmeets⟩

/-- A restart of `pod` seals the partial that the live writer `pod-s0` has just written to. And a restart of `pod-b` seals the
partial of the live writer `pod-a`, whose own age limit lets it wait longer than the adoption time for its next rows. -/
theorem recovery_takes_live_partial :
    (run (partialsStep 120) (.leftBehind [] [])
        [.spawn "pod-s0".toList, .startSegment 0 "0192".toList 0, .append 0 0 52 0, .append 0 3 900 5,
          .recover "pod".toList, .inspect 0 5 true, .take true]).map
      (fun s => (s.writers, s.sealedStems, s.stolen)) =
        some ([⟨"pod-s0".toList, some ⟨"pod-s0-0192".toList, 3⟩⟩], ["pod-s0-0192".toList], ["pod-s0-0192".toList]) ∧
    (run (partialsStep 120) (.leftBehind [] [])
        [.spawn "pod-a".toList, .startSegment 0 "0192".toList 0, .append 0 0 52 0, .append 0 3 900 5,
          .recover "pod-b".toList, .inspect 0 200 true, .take true]).map
      (fun s => (s.writers, s.sealedStems, s.stolen)) =
        some ([⟨"pod-a".toList, some ⟨"pod-a-0192".toList, 3⟩⟩], ["pod-a-0192".toList], ["pod-a-0192".toList]) := by
  decide +kernel

end LogLake
