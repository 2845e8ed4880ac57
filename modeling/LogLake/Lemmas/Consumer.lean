import LogLake.Wal.Consumer

/-! # What holds along the runs of a consumer -/

namespace LogLake

open List Option

/-! ## Fresh names -/

def ConsumerPhase.atStart : ConsumerPhase → List Text
  | .idle _ => []
  | .listedSealed atStart _ => atStart
  | .listedProcessing atStart _ => atStart

/-- Active segments have names of their own that no directory holds and no poll has seen. -/
structure FreshNames (s : ConsumerState) : Prop where
  held_used : ∀ n, s.dirs.Holds n → n ∈ s.used
  current_used : ∀ w n, s.current.get? w = some n → n ∈ s.used
  current_inj : ∀ w w' n, s.current.get? w = some n → s.current.get? w' = some n → w = w'
  current_new : ∀ w n, s.current.get? w = some n → ¬ s.dirs.Holds n ∧ n ∉ s.phase.atStart
  atStart_used : ∀ n ∈ s.phase.atStart, n ∈ s.used

variable {s : ConsumerState} {dirs : WalDirs}

theorem FreshNames.of_dirs (h : FreshNames s)
    (hsub : ∀ n, dirs.Holds n → s.dirs.Holds n) : FreshNames { s with dirs := dirs } where
  __ := h
  held_used n hn := h.held_used n (hsub n hn)
  current_new w n hw := ⟨fun hn => (h.current_new w n hw).1 (hsub n hn), (h.current_new w n hw).2⟩

variable {phase : ConsumerPhase}

theorem FreshNames.of_phase {cursor : Option Text} {consumed : List Text}
    (h : FreshNames s) (hstart : ∀ n ∈ phase.atStart, s.dirs.Holds n ∨ n ∈ s.phase.atStart) :
    FreshNames { s with cursor := cursor, consumed := consumed, phase := phase } where
  __ := h
  current_new w n hw := by
    refine ⟨(h.current_new w n hw).1, fun hn => ?_⟩
    rcases hstart n hn with hheld | hold
    · exact (h.current_new w n hw).1 hheld
    · exact (h.current_new w n hw).2 hold
  atStart_used n hn := (hstart n hn).elim (h.held_used n) (h.atStart_used n)

variable {dirs' : WalDirs} {target : SegmentDir} {name n : Text}

theorem WalDirs.holds_of_rename {source : SegmentDir}
    (h : dirs.rename source target name = some dirs') : dirs'.Holds n ↔ dirs.Holds n := by
  obtain ⟨hsrc, hget⟩ := WalDirs.rename_eq_some h
  unfold WalDirs.Holds
  rw [hget]
  by_cases hn : n = name
  · subst hn
    simp [hsrc]
  · rw [if_neg hn]

theorem FreshNames.startSegment {w : Nat} (h : FreshNames s) (hw : s.current.get? w = none) (hname : name ∉ s.used) :
    FreshNames { s with current := s.current.upsert w fun _ => name, used := name :: s.used } := by
  have hcur : ∀ w' n, (s.current.upsert w fun _ => name).get? w' = some n →
      (w' = w ∧ n = name) ∨ (w' ≠ w ∧ s.current.get? w' = some n) := by
    intro w' n hn
    rw [SortedMap.get?_upsert] at hn
    split at hn
    · next heq => exact .inl ⟨heq, (some.inj hn).symm⟩
    · next hne => exact .inr ⟨hne, hn⟩
  constructor
  · exact fun n hn => mem_cons_of_mem _ (h.held_used n hn)
  · intro w' n hn
    rcases hcur w' n hn with ⟨-, rfl⟩ | ⟨-, hold⟩
    · exact mem_cons_self
    · exact mem_cons_of_mem _ (h.current_used w' n hold)
  · intro w₁ w₂ n h₁ h₂
    rcases hcur w₁ n h₁ with ⟨rfl, rfl⟩ | ⟨-, hold₁⟩
    · rcases hcur w₂ n h₂ with ⟨rfl, -⟩ | ⟨-, hold₂⟩
      · rfl
      · exact absurd (h.current_used w₂ n hold₂) hname
    · rcases hcur w₂ n h₂ with ⟨-, rfl⟩ | ⟨-, hold₂⟩
      · exact absurd (h.current_used w₁ n hold₁) hname
      · exact h.current_inj w₁ w₂ n hold₁ hold₂
  · intro w' n hn
    rcases hcur w' n hn with ⟨-, rfl⟩ | ⟨-, hold⟩
    · exact ⟨fun hheld => hname (h.held_used n hheld), fun hs => hname (h.atStart_used n hs)⟩
    · exact h.current_new w' n hold
  · exact fun n hn => mem_cons_of_mem _ (h.atStart_used n hn)

theorem FreshNames.sealActive {w : Nat} (h : FreshNames s)
    (hw : s.current.get? w = some name) (hseal : sealSegment s.dirs name = some dirs) :
    FreshNames { s with current := s.current.erase w, dirs := dirs } := by
  obtain ⟨-, hget⟩ := sealSegment_eq_some hseal
  have hcur : ∀ w' n, (s.current.erase w).get? w' = some n → w' ≠ w ∧ s.current.get? w' = some n := by
    intro w' n hn
    rw [SortedMap.get?_erase] at hn
    split at hn
    · cases hn
    · next hne => exact ⟨hne, hn⟩
  have hheld : ∀ n, dirs.Holds n → n = name ∨ s.dirs.Holds n := by
    rintro n ⟨d, hd⟩
    rw [hget] at hd
    split at hd
    · next heq => exact .inl heq
    · exact .inr ⟨d, hd⟩
  constructor
  · intro n hn
    rcases hheld n hn with rfl | hn
    · exact h.current_used w n hw
    · exact h.held_used n hn
  · exact fun w' n hn => h.current_used w' n (hcur w' n hn).2
  · exact fun w₁ w₂ n h₁ h₂ => h.current_inj w₁ w₂ n (hcur w₁ n h₁).2 (hcur w₂ n h₂).2
  · intro w' n hn
    obtain ⟨hne, hold⟩ := hcur w' n hn
    refine ⟨fun hh => ?_, (h.current_new w' n hold).2⟩
    rcases hheld n hh with rfl | hh
    · exact hne (h.current_inj w' w n hold hw)
    · exact (h.current_new w' n hold).1 hh
  · exact h.atStart_used

/-- No step uses a name twice. -/
theorem FreshNames.step {ingester : Nat → Text} {s' : ConsumerState} {a : ConsumerAction} (h : FreshNames s)
    (hstep : consumerStep ingester s a = some s') : FreshNames s' := by
  have hrename : ∀ {source target : SegmentDir} {name : Text},
      ((s.dirs.rename source target name).map fun dirs => { s with dirs := dirs }) = some s' → FreshNames s' := by
    intro source target name hmap
    obtain ⟨dirs, hdirs, rfl⟩ := map_eq_some_iff.mp hmap
    exact h.of_dirs fun n => (WalDirs.holds_of_rename hdirs).mp
  cases a with
  | startSegment w uuid =>
    simp only [consumerStep] at hstep
    split at hstep
    · next hok =>
      rw [some.injEq] at hstep
      exact hstep ▸ h.startSegment hok.1 hok.2
    · cases hstep
  | sealActive w =>
    obtain ⟨name, hw, hmap⟩ := bind_eq_some_iff.mp hstep
    obtain ⟨dirs, hdirs, rfl⟩ := map_eq_some_iff.mp hmap
    exact h.sealActive hw hdirs
  | claim name | release name | finish name => exact hrename hstep
  | sweep name =>
    obtain ⟨dirs, hdirs, rfl⟩ := map_eq_some_iff.mp hstep
    refine h.of_dirs fun n hn => ?_
    obtain ⟨d, hd⟩ := hn
    rw [(sweepSegment_eq_some hdirs).2] at hd
    split at hd
    · cases hd
    · exact ⟨d, hd⟩
  | listSealed =>
    simp only [consumerStep] at hstep
    split at hstep
    · rw [some.injEq] at hstep
      subst hstep
      refine h.of_phase fun n hn => .inl ?_
      have hkey : n ∈ s.dirs.keysWith fun _ => true := hn
      obtain ⟨d, hd, -⟩ := SortedMap.mem_keysWith.mp hkey
      exact ⟨d, hd⟩
    · cases hstep
  | listProcessing =>
    simp only [consumerStep] at hstep
    split at hstep
    · next atStart listed hphase =>
      rw [some.injEq] at hstep
      subst hstep
      refine h.of_phase fun n hn => .inr ?_
      rw [hphase]
      exact hn
    · cases hstep
  | listCommitted | commit =>
    simp only [consumerStep] at hstep
    split at hstep
    · rw [some.injEq] at hstep
      subst hstep
      exact h.of_phase fun n hn => absurd hn not_mem_nil
    · cases hstep

/-! ## Delivery -/

/-- A segment sealed since the poll began, under a name after everything the poll lists. -/
structure LateSegment (dirs : WalDirs) (atStart listed : List Text) (n : Text) : Prop where
  notAtStart : n ∉ atStart
  inSealed : dirs.get? n = some .sealed
  afterListed : ∀ p ∈ listed, p < n
  afterMoved : ∀ p d, dirs.get? p = some d → d ≠ .sealed → p < n

/-- The consumer accounts for a visible segment: it will be committed in its turn, or the running poll has listed it or
will list it, or nothing the consumer commits before it polls again lies after it. -/
def Accounted (dirs : WalDirs) (n : Text) : ConsumerPhase → Prop
  | .idle pending => n ∈ pending ∨ ∀ p ∈ pending, p < n
  | .listedSealed atStart listed =>
    n ∈ listed ∨ (∃ d, dirs.get? n = some d ∧ d ≠ .sealed) ∨ LateSegment dirs atStart listed n
  | .listedProcessing atStart listed => n ∈ listed ∨ dirs.get? n = some .committed ∨ LateSegment dirs atStart listed n

/-- Every visible segment that the consumer has not committed lies after the cursor and is accounted for. -/
structure Delivery (s : ConsumerState) : Prop where
  afterCursor : ∀ n, s.dirs.Holds n → n ∉ s.consumed → ∀ last ∈ s.cursor, last < n
  accounted : ∀ n, s.dirs.Holds n → n ∉ s.consumed → Accounted s.dirs n s.phase
  ascending : ∀ pending, s.phase = .idle pending → pending.Pairwise (· < ·)

variable {m : Text}

theorem LateSegment.rename {atStart listed : List Text}
    (h : LateSegment dirs atStart listed n) (hget : ∀ k, dirs'.get? k = if k = m then some target else dirs.get? k)
    (hm : m < n) : LateSegment dirs' atStart listed n where
  __ := h
  inSealed := by rw [hget, if_neg hm.ne', h.inSealed]
  afterMoved := by
    intro p d hp hd
    rw [hget] at hp
    split at hp
    · next heq => rw [heq]; exact hm
    · exact h.afterMoved p d hp hd

theorem Accounted.mono (hsame : dirs'.get? n = dirs.get? n) (hlate : phase.isPolling = true →
      LateSegment dirs phase.atStart phase.names n → LateSegment dirs' phase.atStart phase.names n)
    (h : Accounted dirs n phase) : Accounted dirs' n phase := by
  cases phase with
  | idle pending => exact h
  | listedSealed atStart listed =>
    rcases h with h | ⟨d, hd, hne⟩ | hl
    · exact .inl h
    · exact .inr (.inl ⟨d, hsame.trans hd, hne⟩)
    · exact .inr (.inr (hlate rfl hl))
  | listedProcessing atStart listed =>
    rcases h with h | hcom | hl
    · exact .inl h
    · exact .inr (.inl (hsame.trans hcom))
    · exact .inr (.inr (hlate rfl hl))

/-- A rename during a poll keeps a segment accounted for. -/
theorem Accounted.rename {source : SegmentDir}
    (hsrc : dirs.get? m = some source) (hget : ∀ k, dirs'.get? k = if k = m then some target else dirs.get? k)
    (hok : phase.isPolling = true → m ∈ phase.names ∨ (source = .processing ∧ target = .committed))
    (h : Accounted dirs n phase) : Accounted dirs' n phase := by
  by_cases hnm : n = m
  · subst hnm
    cases phase with
    | idle pending => exact h
    | listedSealed atStart listed =>
      rcases hok rfl with hlisted | ⟨-, rfl⟩
      · exact .inl hlisted
      · exact .inr (.inl ⟨.committed, by rw [hget, if_pos rfl], by decide⟩)
    | listedProcessing atStart listed =>
      rcases hok rfl with hlisted | ⟨-, rfl⟩
      · exact .inl hlisted
      · exact .inr (.inl (by rw [hget, if_pos rfl]))
  · refine h.mono (by rw [hget, if_neg hnm]) fun hpolling hlate => ?_
    rcases hok hpolling with hlisted | ⟨rfl, rfl⟩
    · exact hlate.rename hget (hlate.afterListed m hlisted)
    · exact hlate.rename hget (hlate.afterMoved m _ hsrc (by decide))

theorem Accounted.sweep
    (hget : ∀ k, dirs'.get? k = if k = m then none else dirs.get? k) (hn : n ≠ m) (h : Accounted dirs n phase) :
    Accounted dirs' n phase := by
  refine h.mono (by rw [hget, if_neg hn]) fun _ hl =>
    ⟨hl.notAtStart, by rw [hget, if_neg hn, hl.inSealed], hl.afterListed, ?_⟩
  intro p d hp hd
  rw [hget] at hp
  split at hp
  · cases hp
  · exact hl.afterMoved p d hp hd

theorem Accounted.sealActive
    (hget : ∀ k, dirs'.get? k = if k = m then some .sealed else dirs.get? k) (hstart : m ∉ phase.atStart)
    (hnames : ∀ p ∈ phase.names, p < m)
    (hpoll : phase.isPolling = true → ∀ p, dirs.Holds p → p < m) (h : n ≠ m → Accounted dirs n phase) :
    Accounted dirs' n phase := by
  have hmoved : ∀ p d, dirs'.get? p = some d → d ≠ .sealed → dirs.get? p = some d := by
    intro p d hp hd
    rw [hget] at hp
    split at hp
    · exact absurd (some.inj hp).symm hd
    · exact hp
  by_cases hn : n = m
  · subst hn
    have hlate : phase.isPolling = true → LateSegment dirs' phase.atStart phase.names n := fun hp =>
      ⟨hstart, by rw [hget, if_pos rfl], hnames, fun p d hpd hd => hpoll hp p ⟨d, hmoved p d hpd hd⟩⟩
    cases phase with
    | idle pending => exact .inr hnames
    | listedSealed atStart listed | listedProcessing atStart listed => exact .inr (.inr (hlate rfl))
  · exact (h hn).mono (by rw [hget, if_neg hn]) fun _ hl =>
      ⟨hl.notAtStart, by rw [hget, if_neg hn, hl.inSealed], hl.afterListed,
        fun p d hp hd => hl.afterMoved p d (hmoved p d hp hd) hd⟩

/-- A poll returns what it listed past the cursor. -/
theorem mem_pollResult {cursor : Option Text} {listed : List Text} :
    n ∈ pollResult cursor listed ↔ n ∈ listed ∧ ∀ last ∈ cursor, ¬ n ≤ last := by
  rw [pollResult, mem_sortDedup, mem_filter, decide_eq_true_iff]

end LogLake
