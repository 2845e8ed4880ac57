import LogLake.Lemmas.Consumer

/-! # No segment is skipped by a consumer -/

namespace LogLake

open List Option

def NamesInOrder (s : ConsumerState) : ConsumerAction → Prop
  | .sealActive writer => ∀ n, s.current.get? writer = some n →
      (∀ last ∈ s.cursor, last < n) ∧ (∀ p ∈ s.phase.names, p < n) ∧
        (s.phase.isPolling = true → ∀ p, s.dirs.Holds p → p < n)
  | .claim name => s.phase.isPolling = true → name ∈ s.phase.names
  | .release name => s.phase.isPolling = true → name ∈ s.phase.names
  | _ => True

instance decidableForallHolds (dirs : WalDirs) (P : Text → Prop) [DecidablePred P] :
    Decidable (∀ p, dirs.Holds p → P p) :=
  decidable_of_iff (∀ p ∈ dirs.entries.map Prod.fst, P p)
    (forall_congr' fun _ => imp_congr_left (SortedMap.mem_map_fst_entries.trans isSome_iff_exists))

instance decidableNamesInOrder (s : ConsumerState) : ∀ a, Decidable (NamesInOrder s a)
  | .sealActive writer => inferInstanceAs (Decidable (∀ n ∈ s.current.get? writer, _))
  | .claim _ => inferInstanceAs (Decidable (_ → _))
  | .release _ => inferInstanceAs (Decidable (_ → _))
  | .startSegment _ _ | .finish _ | .sweep _ | .listSealed | .listProcessing | .listCommitted | .commit => isTrue trivial

variable {s : ConsumerState}

theorem Delivery.rename {s' : ConsumerState} {source target : SegmentDir} {name : Text} (h : Delivery s)
    (hok : s.phase.isPolling = true → name ∈ s.phase.names ∨ (source = .processing ∧ target = .committed))
    (hstep : ((s.dirs.rename source target name).map fun dirs => { s with dirs := dirs }) = some s') : Delivery s' := by
  obtain ⟨dirs, hdirs, rfl⟩ := map_eq_some_iff.mp hstep
  obtain ⟨hsrc, hget⟩ := WalDirs.rename_eq_some hdirs
  constructor
  · exact fun n hn => h.afterCursor n ((WalDirs.holds_of_rename hdirs).mp hn)
  · intro n hn hc
    exact (h.accounted n ((WalDirs.holds_of_rename hdirs).mp hn) hc).rename hsrc hget hok
  · exact h.ascending

theorem Delivery.commit {name : Text} {rest : List Text} (h : Delivery s) (hphase : s.phase = .idle (name :: rest)) :
    Delivery { s with cursor := commitName s.cursor name, consumed := name :: s.consumed, phase := .idle rest } := by
  have hafter : ∀ n, s.dirs.Holds n → n ∉ name :: s.consumed → name < n ∧ (n ∈ rest ∨ ∀ p ∈ rest, p < n) := by
    intro n hn hc
    rw [mem_cons, not_or] at hc
    have hacc := h.accounted n hn hc.2
    rw [hphase] at hacc
    rcases hacc with hmem | hall
    · have hrest := (mem_cons.mp hmem).resolve_left hc.1
      exact ⟨rel_of_pairwise_cons (h.ascending _ hphase) hrest, Or.inl hrest⟩
    · exact ⟨hall name mem_cons_self, Or.inr fun p hp => hall p (mem_cons_of_mem _ hp)⟩
  constructor
  · intro n hn hc last hlast
    dsimp only at hn hc hlast
    unfold commitName at hlast
    split at hlast
    · exact h.afterCursor n hn (fun hin => hc (mem_cons_of_mem _ hin)) last hlast
    · rw [mem_some_iff] at hlast
      exact hlast ▸ (hafter n hn hc).1
  · exact fun n hn hc => (hafter n hn hc).2
  · intro pending hp
    cases hp
    exact (h.ascending _ hphase).of_cons

variable {ingester : Nat → Text}

theorem Delivery.step {s' : ConsumerState} {a : ConsumerAction} (h : Delivery s)
    (hfresh : FreshNames s) (hok : NamesInOrder s a) (hstep : consumerStep ingester s a = some s') : Delivery s' := by
  cases a with
  | startSegment w uuid =>
    simp only [consumerStep] at hstep
    split at hstep
    · rw [some.injEq] at hstep
      exact hstep ▸ ⟨h.afterCursor, h.accounted, h.ascending⟩
    · cases hstep
  | sealActive w =>
    obtain ⟨name, hw, hmap⟩ := bind_eq_some_iff.mp hstep
    obtain ⟨dirs, hdirs, rfl⟩ := map_eq_some_iff.mp hmap
    obtain ⟨-, hget⟩ := sealSegment_eq_some hdirs
    obtain ⟨hcur, hnames, hpoll⟩ := hok name hw
    have hheld : ∀ n, dirs.Holds n → n ≠ name → s.dirs.Holds n := by
      rintro n ⟨d, hd⟩ hn
      rw [hget, if_neg hn] at hd
      exact ⟨d, hd⟩
    constructor
    · intro n hn hc last hlast
      by_cases heq : n = name
      · exact heq ▸ hcur last hlast
      · exact h.afterCursor n (hheld n hn heq) hc last hlast
    · intro n hn hc
      exact Accounted.sealActive hget (hfresh.current_new w name hw).2 hnames hpoll
        fun hne => h.accounted n (hheld n hn hne) hc
    · exact h.ascending
  | claim name | release name => exact h.rename (fun hp => Or.inl (hok hp)) hstep
  | finish name => exact h.rename (fun _ => Or.inr ⟨rfl, rfl⟩) hstep
  | sweep name =>
    obtain ⟨dirs, hdirs, rfl⟩ := map_eq_some_iff.mp hstep
    obtain ⟨-, hget⟩ := sweepSegment_eq_some hdirs
    have hheld : ∀ n, dirs.Holds n → n ≠ name ∧ s.dirs.Holds n := by
      rintro n ⟨d, hd⟩
      rw [hget] at hd
      split at hd
      · cases hd
      · next hne => exact ⟨hne, d, hd⟩
    constructor
    · exact fun n hn => h.afterCursor n (hheld n hn).2
    · exact fun n hn hc => (h.accounted n (hheld n hn).2 hc).sweep hget (hheld n hn).1
    · exact h.ascending
  | listSealed =>
    simp only [consumerStep] at hstep
    split at hstep
    · rw [some.injEq] at hstep
      subst hstep
      refine ⟨h.afterCursor, fun n hn _ => ?_, fun _ hp => by cases hp⟩
      obtain ⟨d, hd⟩ := hn
      by_cases hsealed : d = .sealed
      · exact Or.inl (WalDirs.mem_list.mpr (hsealed ▸ hd))
      · exact Or.inr (Or.inl ⟨d, hd, hsealed⟩)
    · cases hstep
  | listProcessing =>
    simp only [consumerStep] at hstep
    split at hstep
    · next atStart listed hphase =>
      rw [some.injEq] at hstep
      subst hstep
      refine ⟨h.afterCursor, fun n hn hc => ?_, fun _ hp => by cases hp⟩
      have hacc := h.accounted n hn hc
      rw [hphase] at hacc
      rcases hacc with hlisted | ⟨d, hd, hne⟩ | hlate
      · exact Or.inl (mem_append_left _ hlisted)
      · cases d with
        | sealed => exact absurd rfl hne
        | processing => exact Or.inl (mem_append_right _ (WalDirs.mem_list.mpr hd))
        | committed => exact Or.inr (Or.inl hd)
      · refine Or.inr (Or.inr ⟨hlate.notAtStart, hlate.inSealed, fun p hp => ?_, hlate.afterMoved⟩)
        rcases mem_append.mp hp with hp | hp
        · exact hlate.afterListed p hp
        · exact hlate.afterMoved p _ (WalDirs.mem_list.mp hp) (by decide)
    · cases hstep
  | listCommitted =>
    simp only [consumerStep] at hstep
    split at hstep
    · next atStart listed hphase =>
      rw [some.injEq] at hstep
      subst hstep
      refine ⟨h.afterCursor, fun n hn hc => ?_, fun pending hp => ?_⟩
      · have hacc := h.accounted n hn hc
        have hcursor : ∀ last ∈ s.cursor, ¬ n ≤ last := fun last hl => not_le.mpr (h.afterCursor n hn hc last hl)
        rw [hphase] at hacc
        rcases hacc with hlisted | hcom | hlate
        · exact Or.inl (mem_pollResult.mpr ⟨mem_append_left _ hlisted, hcursor⟩)
        · exact Or.inl (mem_pollResult.mpr ⟨mem_append_right _ (WalDirs.mem_list.mpr hcom), hcursor⟩)
        · refine Or.inr fun p hp => ?_
          rcases mem_append.mp (mem_pollResult.mp hp).1 with hp | hp
          · exact hlate.afterListed p hp
          · exact hlate.afterMoved p _ (WalDirs.mem_list.mp hp) (by decide)
      · cases hp
        exact pairwise_sortDedup _
    · cases hstep
  | commit =>
    simp only [consumerStep] at hstep
    split at hstep
    · next name rest hphase =>
      rw [some.injEq] at hstep
      exact hstep ▸ h.commit hphase
    · cases hstep

theorem delivery_of_run {acts : List ConsumerAction}
    (hmeets : Transition.Meets (consumerStep ingester) NamesInOrder .init acts)
    (hrun : Transition.run (consumerStep ingester) .init acts = some s) : FreshNames s ∧ Delivery s := by
  refine Transition.invariant_run (I := fun s => FreshNames s ∧ Delivery s) ?_ ?_ hmeets hrun
  · exact fun s a s' hinv hok hstep => ⟨hinv.1.step hstep, hinv.2.step hinv.1 hok hstep⟩
  · have hnone : ∀ n, ¬ ConsumerState.init.dirs.Holds n := fun n ⟨_, hd⟩ => by cases hd
    refine ⟨⟨fun n hn => absurd hn (hnone n), ?_, ?_, ?_, ?_⟩, ⟨fun n hn => absurd hn (hnone n), fun n hn => absurd hn (hnone n), ?_⟩⟩
    · exact fun w n hn => by cases hn
    · exact fun w w' n hn => by cases hn
    · exact fun w n hn => by cases hn
    · exact fun n hn => absurd hn not_mem_nil
    · intro pending hp
      cases hp
      exact List.Pairwise.nil

/-- In every run whose steps meet the condition, every poll that ends returns every segment that was visible when it
began, is still there and has not been committed. -/
theorem poll_returns_all_of_namesInOrder (ingester : Nat → Text) (acts : List ConsumerAction) (s s' : ConsumerState)
    (hmeets : Transition.Meets (consumerStep ingester) NamesInOrder .init acts)
    (hrun : Transition.run (consumerStep ingester) .init acts = some s)
    (hpoll : consumerStep ingester s .listCommitted = some s') : PollReturnsAll s s' := by
  intro atStart listed pending hphase hphase' n hstart hheld hc
  obtain ⟨-, hdel⟩ := delivery_of_run hmeets hrun
  simp only [consumerStep, hphase, some.injEq] at hpoll
  subst hpoll
  cases hphase'
  have hacc := hdel.accounted n hheld hc
  have hcursor : ∀ last ∈ s.cursor, ¬ n ≤ last := fun last hl => not_le.mpr (hdel.afterCursor n hheld hc last hl)
  rw [hphase] at hacc
  rcases hacc with hlisted | hcom | hlate
  · exact mem_pollResult.mpr ⟨mem_append_left _ hlisted, hcursor⟩
  · exact mem_pollResult.mpr ⟨mem_append_right _ (WalDirs.mem_list.mpr hcom), hcursor⟩
  · exact absurd hstart hlate.notAtStart

/-! ## Two writers -/

def twoWriters : Nat → Text
  | 0 => "b".toList
  | _ => "a".toList

def uuid1 : Text := "01980000-0000-7000-8000-000000000001".toList

def uuid2 : Text := "01980000-0001-7000-8000-000000000002".toList

def twoWritersRun : List ConsumerAction :=
  [.startSegment 0 uuid1, .sealActive 0, .listSealed, .listProcessing, .listCommitted, .commit,
    .startSegment 1 uuid2, .sealActive 1, .listSealed, .listProcessing]

/-- The two writers in the order of their names: the consumer polls and commits between their seals, and polls again. -/
def writersInOrder : List ConsumerAction :=
  [.startSegment 1 uuid1, .sealActive 1, .listSealed, .listProcessing, .listCommitted, .commit,
    .startSegment 0 uuid2, .sealActive 0, .listSealed, .listProcessing]

theorem poll_returns_second_segment :
    ∃ s s', Transition.run (consumerStep twoWriters) .init writersInOrder = some s ∧
      consumerStep twoWriters s .listCommitted = some s' ∧ s.cursor = some (segmentFileName "a".toList uuid1) ∧
      s'.phase = .idle [segmentFileName "b".toList uuid2] ∧ PollReturnsAll s s' := by
  have hview : ((Transition.run (consumerStep twoWriters) .init writersInOrder).bind fun s =>
      (consumerStep twoWriters s .listCommitted).map fun s' => (s.cursor, s'.phase)) =
        some (some (segmentFileName "a".toList uuid1), .idle [segmentFileName "b".toList uuid2]) := by decide +kernel
  obtain ⟨s, hrun, hmap⟩ := bind_eq_some_iff.mp hview
  obtain ⟨s', hpoll, heq⟩ := map_eq_some_iff.mp hmap
  obtain ⟨hcursor, hphase⟩ := Prod.mk.inj heq
  exact ⟨s, s', hrun, hpoll, hcursor, hphase,
    poll_returns_all_of_namesInOrder twoWriters _ s s' (by decide +kernel) hrun hpoll⟩

/-- The second poll does not return the segment of writer `a`: its name lies before the cursor. -/
theorem poll_skips_segment_of_second_writer :
    ∃ s s', Transition.run (consumerStep twoWriters) .init twoWritersRun = some s ∧
      consumerStep twoWriters s .listCommitted = some s' ∧ s'.phase = .idle [] ∧
      s'.dirs.Holds (segmentFileName "a".toList uuid2) ∧ segmentFileName "a".toList uuid2 ∉ s'.consumed ∧
      ¬ PollReturnsAll s s' := by
  have hbefore : (Transition.run (consumerStep twoWriters) .init twoWritersRun).map ConsumerState.phase =
      some (.listedProcessing [segmentFileName "a".toList uuid2, segmentFileName "b".toList uuid1]
        [segmentFileName "a".toList uuid2, segmentFileName "b".toList uuid1]) := by decide +kernel
  have hafter : ((Transition.run (consumerStep twoWriters) .init twoWritersRun).bind fun s =>
      consumerStep twoWriters s .listCommitted).map (fun s' =>
        (s'.phase, s'.dirs.get? (segmentFileName "a".toList uuid2), s'.consumed)) =
      some (.idle [], some .sealed, [segmentFileName "b".toList uuid1]) := by decide +kernel
  obtain ⟨s, hrun, hphase⟩ := map_eq_some_iff.mp hbefore
  rw [hrun, bind_some] at hafter
  obtain ⟨s', hstep, hview⟩ := map_eq_some_iff.mp hafter
  obtain ⟨hphase', hview⟩ := Prod.mk.inj hview
  obtain ⟨hheld, hconsumed⟩ := Prod.mk.inj hview
  have hnot : segmentFileName "a".toList uuid2 ∉ s'.consumed := by rw [hconsumed]; decide
  refine ⟨s, s', hrun, hstep, hphase', ⟨_, hheld⟩, hnot, fun hall => ?_⟩
  exact absurd (hall _ _ _ hphase hphase' _ mem_cons_self ⟨_, hheld⟩ hnot) not_mem_nil

end LogLake
