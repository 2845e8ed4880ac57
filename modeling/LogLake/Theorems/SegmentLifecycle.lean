import LogLake.Wal.Lifecycle

/-! # Segments are conserved -/

namespace LogLake.Lifecycle

open List Option Renames Prod

variable {s s' : State} {d d' : Dir} {name : Text} {phase : Phase} {durable : Bool}

/-! ## Files -/

/-- The files are those of the segments that were sealed, each in one directory. -/
structure FilesOk (s : State) : Prop where
  once : s.files.OncePerName
  held : ∀ x ∈ s.sealed, ∃ d, ((d, x.1), x.2) ∈ s.files
  segment : ∀ e ∈ s.files, (e.1.2, e.2) ∈ s.sealed
  overwritten : s.overwritten = []
  removed : s.removed = []

/-- Nothing is renamed from these directories. -/
def Dir.Final (d : Dir) : Prop := d = .orphans ∨ ∃ owner, d = .stale owner

/-- The files of the final directories stay. -/
def Stays (files files' : Files Dir Text Nat) : Prop := ∀ e ∈ files, e.1.1.Final → e ∈ files'

theorem not_final_of_held (h : d.Held) : ¬d.Final := by
  rcases h with rfl | rfl
  · rintro (h | ⟨owner, h⟩) <;> cases h
  · rintro (h | ⟨owner, h⟩) <;> cases h

theorem exists_of_exist {s : State} {d : Dir} {name : Text} (h : s.exist d name = true) : ∃ c, ((d, name), c) ∈ s.files := by
  obtain ⟨c, hc⟩ := isSome_iff_exists.mp h
  exact ⟨c, AssocList.lookup_mem hc⟩

theorem move_ok (hs : FilesOk s) (h : s.move d d' name = some s') :
    ∃ c, ((d, name), c) ∈ s.files ∧ FilesOk s' ∧ s' = { s with files := s'.files } ∧
      ∀ e, e ∈ s'.files ↔ e = ((d', name), c) ∨ (e ∈ s.files ∧ e.1.2 ≠ name) := by
  obtain ⟨moved, hmoved, rfl⟩ := map_eq_some_iff.mp h
  obtain ⟨c, hmem, hlost, honce, hfiles⟩ := Files.rename_of_once hs.once hmoved
  rw [hlost, toList_none, append_nil]
  refine ⟨c, hmem, ⟨honce, fun x hx => ?_, fun e he => ?_, hs.overwritten, hs.removed⟩, rfl, hfiles⟩
  · obtain ⟨d₀, hd₀⟩ := hs.held x hx
    by_cases hname : x.1 = name
    · have hsame := hs.once.unique hd₀ hmem hname
      refine ⟨d', (hfiles _).mpr (.inl ?_)⟩
      rw [hname, show x.2 = c from congrArg snd hsame]
    · exact ⟨d₀, (hfiles _).mpr (.inr ⟨hd₀, hname⟩)⟩
  · rcases (hfiles e).mp he with rfl | ⟨he, -⟩
    · exact hs.segment ((d, name), c) hmem
    · exact hs.segment e he

theorem move_stays (hs : FilesOk s) (hd : ¬d.Final) (h : s.move d d' name = some s') : Stays s.files s'.files := by
  obtain ⟨c, hmem, -, -, hfiles⟩ := move_ok hs h
  intro e he hfinal
  refine (hfiles e).mpr (.inr ⟨he, fun hname => hd ?_⟩)
  rw [← show e.1.1 = d from congrArg (fun e => e.1.1) (hs.once.unique he hmem hname)]
  exact hfinal

theorem remove_eq (hs : FilesOk s) {c : Nat} (hmem : ((d, name), c) ∈ s.files) (hne : d' ≠ d) : s.remove d' name = s := by
  rw [State.remove, Files.unlink_of_elsewhere hs.once hmem hne, toList_none, append_nil]

/-! ## Claims -/

/-- The segment was put back. -/
def Returned (name : Text) (events : List Event) : Prop := .release name ∈ events ∨ .requeue name ∈ events

theorem Returned.cons {events : List Event} (h : Returned name events) (e : Event) : Returned name (e :: events) :=
  h.imp (mem_cons_of_mem e) (mem_cons_of_mem e)

/-- Between two claims of a segment it was put back; and it was since its last claim, if it is in `sealed/`. -/
structure ClaimsOk (s : State) : Prop where
  known : ∀ e ∈ s.history, e.name ∈ s.sealed.map fst
  between : ∀ name h₁ a h₂ b h₃, s.history = h₁ ++ .claim name a :: (h₂ ++ .claim name b :: h₃) → Returned name h₂
  since : ∀ name c h₂ b h₃, ((.sealed, name), c) ∈ s.files → s.history = h₂ ++ .claim name b :: h₃ → Returned name h₂

theorem ClaimsOk.away (hs : ClaimsOk s) (hsealed : s'.sealed = s.sealed) (hhistory : s'.history = s.history)
    (hfiles : ∀ name c, ((.sealed, name), c) ∈ s'.files → ((.sealed, name), c) ∈ s.files) : ClaimsOk s' where
  known := by rw [hsealed, hhistory]; exact hs.known
  between := by rw [hhistory]; exact hs.between
  since name c h₂ b h₃ hmem := by rw [hhistory]; exact hs.since name c h₂ b h₃ (hfiles name c hmem)

theorem ClaimsOk.claim (hs : ClaimsOk s) {c : Nat} (hmem : ((.sealed, name), c) ∈ s.files)
    (hknown : name ∈ s.sealed.map fst) (hsealed : s'.sealed = s.sealed)
    (hhistory : s'.history = .claim name durable :: s.history)
    (hfiles : ∀ other c, ((.sealed, other), c) ∈ s'.files → other ≠ name ∧ ((.sealed, other), c) ∈ s.files) : ClaimsOk s' := by
  refine ⟨fun e he => ?_, fun other h₁ a h₂ b h₃ hsplit => ?_, fun other c' h₂ b h₃ hmem' hsplit => ?_⟩
  · rw [hhistory] at he
    rw [hsealed]
    rcases mem_cons.mp he with rfl | he
    · exact hknown
    · exact hs.known e he
  · rw [hhistory] at hsplit
    rcases cons_eq_append_iff.mp hsplit with ⟨rfl, hnew⟩ | ⟨h₁', rfl, hold⟩
    · obtain ⟨hevent, hrest⟩ := List.cons.inj hnew
      cases hevent
      exact hs.since name c h₂ b h₃ hmem hrest.symm
    · exact hs.between other h₁' a h₂ b h₃ hold
  · obtain ⟨hne, hbefore⟩ := hfiles other c' hmem'
    rw [hhistory] at hsplit
    rcases cons_eq_append_iff.mp hsplit with ⟨rfl, hnew⟩ | ⟨h₂', rfl, hold⟩
    · cases (List.cons.inj hnew).1
      exact absurd rfl hne
    · exact (hs.since other c' h₂' b h₃ hbefore hold).cons _

theorem ClaimsOk.putBack (hs : ClaimsOk s) {e : Event} (he : e = .release name ∨ e = .requeue name)
    (hknown : name ∈ s.sealed.map fst) (hsealed : s'.sealed = s.sealed) (hhistory : s'.history = e :: s.history)
    (hfiles : ∀ other c, ((.sealed, other), c) ∈ s'.files → other = name ∨ ((.sealed, other), c) ∈ s.files) : ClaimsOk s' := by
  have hnot : ∀ other a, e ≠ .claim other a := by
    rintro other a rfl
    rcases he with he | he <;> cases he
  refine ⟨fun e' he' => ?_, fun other h₁ a h₂ b h₃ hsplit => ?_, fun other c h₂ b h₃ hmem hsplit => ?_⟩
  · rw [hhistory] at he'
    rw [hsealed]
    rcases mem_cons.mp he' with rfl | he'
    · rcases he with rfl | rfl <;> exact hknown
    · exact hs.known e' he'
  · rw [hhistory] at hsplit
    rcases cons_eq_append_iff.mp hsplit with ⟨rfl, hnew⟩ | ⟨h₁', rfl, hold⟩
    · exact absurd (List.cons.inj hnew).1.symm (hnot other a)
    · exact hs.between other h₁' a h₂ b h₃ hold
  · rw [hhistory] at hsplit
    rcases cons_eq_append_iff.mp hsplit with ⟨rfl, hnew⟩ | ⟨h₂', rfl, hold⟩
    · exact absurd (List.cons.inj hnew).1.symm (hnot other b)
    · rcases hfiles other c hmem with rfl | hbefore
      · rcases he with rfl | rfl
        · exact .inl mem_cons_self
        · exact .inr mem_cons_self
      · exact (hs.since other c h₂' b h₃ hbefore hold).cons e

/-! ## Operations -/

/-- Everything but where the processes stand. -/
structure Sound (s : State) : Prop extends FilesOk s where
  claims : ClaimsOk s

/-- What an operation has found out. -/
def PhaseOk (files : Files Dir Text Nat) : Phase → Prop
  | .staling source _ _ => source.Held
  | .staleChecked source owner name found => source.Held ∧ (found = true → ∃ c, ((.stale owner, name), c) ∈ files)
  | .poisoning source _ => source.Held
  | .poisonChecked source _ => source.Held
  | .poisonNoted source _ => source.Held
  | .recoverChecked name found _ => found = true → ∃ c, ((.orphans, name), c) ∈ files
  | _ => True

theorem PhaseOk.stays {files files' : Files Dir Text Nat} (h : PhaseOk files phase) (hstays : Stays files files') :
    PhaseOk files' phase := by
  cases phase with
  | staleChecked source owner name found =>
    refine ⟨h.1, fun hfound => ?_⟩
    obtain ⟨c, hc⟩ := h.2 hfound
    exact ⟨c, hstays _ hc (.inr ⟨owner, rfl⟩)⟩
  | recoverChecked name found unread =>
    intro hfound
    obtain ⟨c, hc⟩ := h hfound
    exact ⟨c, hstays _ hc (.inl rfl)⟩
  | idle | claiming name | claimed name durable | releasing name | finishing name | staling source owner name
  | poisoning source name | poisonChecked source name | poisonNoted source name | requeueing name | requeueChecked name
  | requeued name | recovering unread | recoverFound name unread => exact h

structure Keeps (s s' : State) (phase : Phase) : Prop where
  sound : Sound s'
  stays : Stays s.files s'.files
  phase : PhaseOk s'.files phase
  sealed : s'.sealed = s.sealed

theorem Keeps.same (hs : Sound s) (hphase : PhaseOk s.files phase) : Keeps s s phase :=
  ⟨hs, fun _ he _ => he, hphase, rfl⟩

theorem mem_sealed_of_mem_files (hs : FilesOk s) {c : Nat} (hmem : ((d, name), c) ∈ s.files) : name ∈ s.sealed.map fst :=
  mem_map.mpr ⟨_, hs.segment _ hmem, rfl⟩

theorem move_away (hs : Sound s) (hd : ¬d.Final) (hd' : d' ≠ .sealed) (h : s.move d d' name = some s')
    (hphase : PhaseOk s'.files phase) : Keeps s s' phase := by
  obtain ⟨c, _, hok, heq, hfiles⟩ := move_ok hs.toFilesOk h
  have hsealed : s'.sealed = s.sealed := by rw [heq]
  have hhistory : s'.history = s.history := by rw [heq]
  refine ⟨⟨hok, hs.claims.away hsealed hhistory fun other c' hmem' => ?_⟩, move_stays hs.toFilesOk hd h, hphase, hsealed⟩
  rcases (hfiles _).mp hmem' with hnew | ⟨hold, -⟩
  · exact absurd (congrArg (fun e => e.1.1) hnew).symm hd'
  · exact hold

theorem move_away_getD (hs : Sound s) (hd : ¬d.Final) (hd' : d' ≠ .sealed) : Keeps s ((s.move d d' name).getD s) .idle := by
  cases h : s.move d d' name with
  | none => exact Keeps.same hs trivial
  | some s' => exact move_away hs hd hd' h trivial

theorem Keeps.record (hs : Sound s) (hd : ¬d.Final) (h : s.move d d' name = some s') {e : Event}
    (hclaims : s'.sealed = s.sealed → (s'.record e).history = e :: s.history → ClaimsOk (s'.record e))
    (hphase : PhaseOk s'.files phase) : Keeps s (s'.record e) phase := by
  obtain ⟨c, -, hok, heq, -⟩ := move_ok hs.toFilesOk h
  have hsealed : s'.sealed = s.sealed := by rw [heq]
  have hhistory : (s'.record e).history = e :: s.history := by rw [State.record, heq]
  have hstays : Stays s.files s'.files := move_stays hs.toFilesOk hd h
  exact ⟨⟨{ hok with }, hclaims hsealed hhistory⟩, hstays, hphase, hsealed⟩

theorem move_back (hs : Sound s) (hd : ¬d.Final) (h : s.move d .sealed name = some s') {e : Event}
    (he : e = .release name ∨ e = .requeue name) (hphase : PhaseOk s'.files phase) : Keeps s (s'.record e) phase := by
  obtain ⟨c, hmem, -, -, hfiles⟩ := move_ok hs.toFilesOk h
  refine .record hs hd h (fun hsealed hhistory => ?_) hphase
  refine hs.claims.putBack he (mem_sealed_of_mem_files hs.toFilesOk hmem) hsealed hhistory fun other c' hmem' => ?_
  rcases (hfiles _).mp hmem' with hnew | ⟨hold, -⟩
  · exact .inl (congrArg (fun e => e.1.2) hnew)
  · exact .inr hold

theorem move_claim (hs : Sound s) (h : s.move .sealed .processing name = some s') :
    Keeps s (s'.record (.claim name durable)) (.claimed name durable) := by
  obtain ⟨c, hmem, -, -, hfiles⟩ := move_ok hs.toFilesOk h
  refine .record hs (not_final_of_held (.inl rfl)) h (fun hsealed hhistory => ?_) trivial
  refine hs.claims.claim hmem (mem_sealed_of_mem_files hs.toFilesOk hmem) hsealed hhistory fun other c' hmem' => ?_
  rcases (hfiles _).mp hmem' with hnew | ⟨hold, hne⟩
  · cases (congrArg (fun e => e.1.1) hnew : Dir.sealed = .processing)
  · exact ⟨hne, hold⟩

theorem not_final_processing : ¬Dir.processing.Final := not_final_of_held (.inr rfl)

theorem not_final_poison : ¬Dir.poison.Final := by
  rintro (h | ⟨owner, h⟩) <;> cases h

theorem advance_keeps (hs : Sound s) (hphase : PhaseOk s.files phase) :
    Keeps s (advance s durable phase).1 (advance s durable phase).2 := by
  cases phase with
  | idle => exact Keeps.same hs trivial
  | claiming name =>
    simp only [advance]
    cases h : s.move .sealed .processing name with
    | none => exact Keeps.same hs trivial
    | some s' => exact move_claim hs h
  | claimed name durable => cases durable <;> exact Keeps.same hs trivial
  | releasing name =>
    simp only [advance]
    cases h : s.move .processing .sealed name with
    | none => exact Keeps.same hs trivial
    | some s' => exact move_back hs not_final_processing h (.inl rfl) trivial
  | finishing name => exact move_away_getD hs not_final_processing (by decide)
  | staling source owner name => exact Keeps.same hs ⟨hphase, exists_of_exist⟩
  | staleChecked source owner name found =>
    simp only [advance]
    split
    · next hfound =>
      -- the name was in the quarantine, and has stayed there, so it is not at the source
      obtain ⟨c, hc⟩ := hphase.2 hfound
      have hne : source ≠ .stale owner := fun heq => not_final_of_held hphase.1 (.inr ⟨owner, heq⟩)
      rw [remove_eq hs.toFilesOk hc hne]
      exact Keeps.same hs trivial
    · exact move_away_getD hs (not_final_of_held hphase.1) (fun h => by cases h)
  | poisoning source name =>
    simp only [advance]
    split
    · exact Keeps.same hs trivial
    · exact Keeps.same hs hphase
  | poisonChecked source name =>
    exact ⟨⟨{ hs with },
      { hs.claims with }⟩, fun _ he _ => he, hphase, rfl⟩
  | poisonNoted source name => exact move_away_getD hs (not_final_of_held hphase) (by decide)
  | requeueing name =>
    simp only [advance]
    split <;> exact Keeps.same hs trivial
  | requeueChecked name =>
    simp only [advance]
    cases h : s.move .poison .sealed name with
    | none => exact Keeps.same hs trivial
    | some s' => exact move_back hs not_final_poison h (.inr rfl) trivial
  | requeued name =>
    exact ⟨⟨{ hs with },
      { hs.claims with }⟩, fun _ he _ => he, trivial, rfl⟩
  | recovering unread =>
    cases unread with
    | nil => exact Keeps.same hs trivial
    | cons name unread =>
      simp only [advance]
      split <;> exact Keeps.same hs trivial
  | recoverFound name unread => exact Keeps.same hs exists_of_exist
  | recoverChecked name found unread =>
    simp only [advance]
    split
    · next hfound =>
      obtain ⟨c, hc⟩ := hphase hfound
      rw [remove_eq hs.toFilesOk hc (by decide)]
      exact Keeps.same hs trivial
    · cases h : s.move .processing .orphans name with
      | none => exact Keeps.same hs trivial
      | some s' => exact move_away hs not_final_processing (by decide) h trivial

/-! ## Runs -/

structure AllSound (s : State) : Prop extends Sound s where
  phases : ∀ phase ∈ s.procs, PhaseOk s.files phase

theorem Sound.withProcs (h : Sound s) (procs : List Phase) : Sound { s with procs := procs } :=
  ⟨{ h with }, { h.claims with }⟩

theorem sound_seal (hs : Sound s) {segment : Nat} (hnew : name ∉ s.sealed.map fst)
    (h : lifecycleStep s (.sealing name segment) = some s') : Sound s' ∧ Stays s.files s'.files := by
  obtain ⟨-, h⟩ := ite_none_left_eq_some.mp h
  have hfresh : ∀ e ∈ s.files, e.1.2 ≠ name := fun e he heq => hnew (heq ▸ mem_sealed_of_mem_files hs.toFilesOk he)
  obtain ⟨hlost, honce, hfiles⟩ := Files.install_of_fresh hs.once hfresh .sealed segment
  cases h
  have hover : s.overwritten ++ (s.files.install (.sealed, name) segment).2.toList = [] := by
    rw [hlost, hs.overwritten]
    rfl
  refine ⟨⟨⟨honce, fun x hx => ?_, fun e he => ?_, hover, hs.removed⟩, ⟨fun e he => ?_, hs.claims.between, ?_⟩⟩,
    fun e he _ => (hfiles e).mpr (.inr he)⟩
  · rcases mem_cons.mp hx with rfl | hx
    · exact ⟨.sealed, (hfiles _).mpr (.inl rfl)⟩
    · obtain ⟨d, hd⟩ := hs.held x hx
      exact ⟨d, (hfiles _).mpr (.inr hd)⟩
  · rcases (hfiles e).mp he with rfl | he
    · exact mem_cons_self
    · exact mem_cons_of_mem _ (hs.segment e he)
  · exact mem_cons_of_mem _ (hs.claims.known e he)
  · intro other c h₂ b h₃ hmem hsplit
    rcases (hfiles _).mp hmem with hsame | hold
    · -- a new name has no claim
      have hclaim : Event.claim other b ∈ s.history := by
        rw [hsplit]
        exact mem_append_right _ mem_cons_self
      have hname : other = name := congrArg (fun e => e.1.2) hsame
      exact absurd (hs.claims.known _ hclaim) (hname ▸ hnew)
    · exact hs.claims.since other c h₂ b h₃ hold hsplit

theorem allSound_step (hs : AllSound s) {a : Action} (h : lifecycleStep s a = some s') : AllSound s' := by
  cases a with
  | sealing name segment =>
    have hnew : name ∉ s.sealed.map fst := (ite_none_left_eq_some.mp h).1
    obtain ⟨hsound, hstays⟩ := sound_seal hs.toSound hnew h
    have hprocs : s'.procs = s.procs := by
      rw [← some.inj (ite_none_left_eq_some.mp h).2]
    exact ⟨hsound, fun phase hphase => (hs.phases phase (hprocs ▸ hphase)).stays hstays⟩
  | begin p op =>
    obtain ⟨-, h⟩ := ite_none_right_eq_some.mp h
    obtain ⟨first, hfirst, rfl⟩ := map_eq_some_iff.mp h
    have hok : PhaseOk s.files first := by
      cases op with
      | claim name | release name | finish name | requeue name | recover entries => cases hfirst; exact trivial
      | stale source owner name | poison source name =>
        obtain ⟨hheld, rfl⟩ := Option.ite_some_none_eq_some.mp hfirst
        exact hheld
    refine ⟨hs.toSound.withProcs _, fun phase hphase => ?_⟩
    rcases mem_or_eq_of_mem_set hphase with hphase | rfl
    · exact hs.phases phase hphase
    · exact hok
  | step p durable =>
    obtain ⟨phase, hphase, rfl⟩ := map_eq_some_iff.mp h
    have hkeeps : Keeps s (advance s durable phase).1 (advance s durable phase).2 :=
      advance_keeps hs.toSound (hs.phases phase (mem_of_getElem? hphase))
    refine ⟨hkeeps.sound.withProcs _, fun phase' hphase' => ?_⟩
    rcases mem_or_eq_of_mem_set hphase' with hphase' | rfl
    · exact (hs.phases phase' hphase').stays hkeeps.stays
    · exact hkeeps.phase
  | crash p =>
    obtain ⟨-, rfl⟩ := Option.ite_some_none_eq_some.mp h
    refine ⟨hs.toSound.withProcs _, fun phase hphase => ?_⟩
    rcases mem_or_eq_of_mem_set hphase with hphase | rfl
    · exact hs.phases phase hphase
    · exact trivial

theorem allSound_start (procs : Nat) : AllSound (State.start procs) where
  once := nodup_nil
  held _ hx := (not_mem_nil hx).elim
  segment _ he := (not_mem_nil he).elim
  overwritten := rfl
  removed := rfl
  claims := ⟨fun _ he => (not_mem_nil he).elim, fun _ h₁ _ _ _ _ h => by simp [State.start] at h,
    fun _ _ _ _ _ hmem => (not_mem_nil hmem).elim⟩
  phases phase hphase := by
    rw [eq_of_mem_replicate hphase]
    exact trivial

/-- In every run, of any number of processes that may die between any two steps: a segment that was sealed is in exactly one of the
directories, under its own name; nothing was overwritten or removed; and between two claims of a segment it was released, or
requeued from `poison/`. -/
theorem segments_conserved (procs : Nat) (actions : List Action) (s : State)
    (hrun : Transition.run lifecycleStep (.start procs) actions = some s) :
    (∀ x ∈ s.sealed, ∃ d, ((d, x.1), x.2) ∈ s.files ∧ ∀ e ∈ s.files, e.1.2 = x.1 → e = ((d, x.1), x.2)) ∧
      s.overwritten = [] ∧ s.removed = [] ∧
      ∀ name h₁ a h₂ b h₃, s.history = h₁ ++ .claim name a :: (h₂ ++ .claim name b :: h₃) →
        .release name ∈ h₂ ∨ .requeue name ∈ h₂ := by
  have hs : AllSound s := Transition.invariant_run_of_step (fun _ _ _ h hstep => allSound_step h hstep) (allSound_start procs) hrun
  refine ⟨fun x hx => ?_, hs.overwritten, hs.removed, hs.claims.between⟩
  obtain ⟨d, hd⟩ := hs.held x hx
  exact ⟨d, hd, fun e he hname => hs.once.unique he hd hname⟩

def segmentName : Text := "a-0192.arrow".toList

/-- An operation of the first process on it, with as many steps as it needs. -/
def performing (op : Operation) (steps : Nat) : List Action := .begin 0 op :: List.replicate steps (.step 0 true)

def otherName : Text := "b-0193.arrow".toList

/-- Two processes race for a segment, and the one that gets it dies and recovers it; the other claims and finishes another. -/
def raceAndRecovery : List Action :=
  [.sealing segmentName 0, .sealing otherName 1, .begin 0 (.claim segmentName), .begin 1 (.claim segmentName), .step 0 true,
    .step 1 true, .crash 0] ++ performing (.recover [segmentName]) 4 ++
  [.begin 1 (.claim otherName), .step 1 true, .step 1 true, .begin 1 (.finish otherName), .step 1 true]

theorem finished_segment_conserved :
    ∃ s, Transition.run lifecycleStep (.start 2) raceAndRecovery = some s ∧
      s.files = [((.committed, otherName), 1), ((.orphans, segmentName), 0)] ∧ s.overwritten = [] ∧ s.removed = [] := by
  have hrun : (Transition.run lifecycleStep (.start 2) raceAndRecovery).map State.files =
      some [((.committed, otherName), 1), ((.orphans, segmentName), 0)] := by decide +kernel
  obtain ⟨s, hs, hfiles⟩ := map_eq_some_iff.mp hrun
  obtain ⟨-, hoverwritten, hremoved, -⟩ := segments_conserved 2 _ s hs
  exact ⟨s, hs, hfiles, hoverwritten, hremoved⟩

/-- Between two releases the segment is claimed, set aside under `poison/`, requeued and claimed again: two claims succeed. -/
theorem claimed_twice_between_releases :
    (Transition.run lifecycleStep (.start 1)
      (.sealing segmentName 0 :: performing (.claim segmentName) 2 ++ performing (.release segmentName) 1 ++
        performing (.claim segmentName) 2 ++ performing (.poison .processing segmentName) 3 ++
        performing (.requeue segmentName) 3 ++ performing (.claim segmentName) 2 ++
        performing (.release segmentName) 1)).map (fun s => (s.history, s.procs)) =
      some ([.release segmentName, .claim segmentName true, .requeue segmentName, .claim segmentName true,
        .release segmentName, .claim segmentName true], [.idle]) := by
  decide +kernel

end LogLake.Lifecycle
