import LogLake.Lemmas.Buffer

/-! # The base snapshot and the buffer return each row once -/

namespace LogLake

open List Option
open Transition (run)

def UndisturbedScan (s : BufferState) : BufferAction → Prop
  | .claim name => s.scan.MayMove (some .processing) name
  | .release name => s.scan.MayMove (some .sealed) name
  | .finish name => s.scan.MayMove (some .committed) name
  | .sweep name => s.scan.MayMove none name
  | .takeSuperseded index => ∀ p ∈ s.history[index]?, ∀ n ∈ s.consumed, ¬ s.dirs.Holds n → n ∈ p.2
  | .listNext => match s.scan with
    | .listing base begun (.committed :: _) _ => ∀ n ∈ begun, n ∉ base → s.dirs.get? n = some .committed →
        (s.mtime.get? n).any (fun t => s.now < t + recentCommittedWindow) = true
    | _ => True
  | _ => True

instance decidableUndisturbedScan (s : BufferState) (a : BufferAction) : Decidable (UndisturbedScan s a) := by
  unfold UndisturbedScan
  split
  case h_6 => split <;> infer_instance
  all_goals infer_instance

def ScanPhase.begun : ScanPhase → List Text
  | .idle => []
  | .listing _ begun _ _ => begun
  | .reading _ begun _ _ => begun

structure BufferInv (s : BufferState) : Prop where
  log : LogInv s
  scan : s.scan.Inv s.dirs
  begun_sealed : ∀ n ∈ s.scan.begun, (s.mtime.get? n).isSome

variable {s : BufferState} {name : Text}

section

variable (h : BufferInv s)
include h

theorem BufferInv.move {dirs : WalDirs} {target : Option SegmentDir}
    (hget : ∀ n, dirs.get? n = if n = name then target else s.dirs.get? n)
    (hsafe : target = none ∨ target = some .committed → name ∈ s.consumed) (hmay : s.scan.MayMove target name) :
    BufferInv { s with dirs := dirs } :=
  ⟨h.log.move hget hsafe, h.scan.move hget hmay, h.begun_sealed⟩

theorem BufferInv.rename {s' : BufferState} {source target : SegmentDir}
    (hsafe : target = .committed → name ∈ s.consumed) (hmay : s.scan.MayMove (some target) name)
    (hstep : ((s.dirs.rename source target name).map fun dirs => { s with dirs := dirs }) = some s') : BufferInv s' := by
  obtain ⟨dirs, hdirs, rfl⟩ := map_eq_some_iff.mp hstep
  obtain ⟨-, hget⟩ := WalDirs.rename_eq_some hdirs
  refine h.move hget (fun htarget => ?_) hmay
  rcases htarget with hnone | hcom
  · cases hnone
  · exact hsafe (some.inj hcom)

theorem BufferInv.begin {base : List Text} (hnodup : base.Nodup)
    (hswept : ∀ n ∈ s.consumed, ¬ s.dirs.Holds n → n ∈ base) : BufferInv (s.begin base) := by
  have hsealed : ∀ n ∈ s.mtime.keysWith fun _ => true, (s.mtime.get? n).isSome := by
    intro n hn
    obtain ⟨t, ht, -⟩ := SortedMap.mem_keysWith.mp hn
    rw [ht, isSome_some]
  refine ⟨⟨h.log.consumed_nodup, h.log.history_nodup, h.log.committed_consumed, h.log.held_or_consumed⟩, ?_, hsealed⟩
  refine ⟨hnodup, by decide, nodup_nil, fun p hp => absurd hp not_mem_nil, fun n hn hbase => ?_⟩
  by_cases hheld : s.dirs.Holds n
  · obtain ⟨d, hd⟩ := hheld
    refine ⟨d, hd, Or.inl ?_⟩
    cases d <;> decide
  · have hconsumed := (h.log.held_or_consumed n (hsealed n hn)).resolve_left hheld
    exact absurd (hswept n hconsumed hheld) hbase

theorem BufferInv.commit {names : List Text} (hnames : names.Nodup) (hnew : ∀ n ∈ names, n ∉ s.consumed) :
    BufferInv { s with consumed := names ++ s.consumed, history := (s.now, s.consumed) :: s.history } := by
  refine ⟨⟨?_, ?_, ?_, ?_⟩, h.scan, h.begun_sealed⟩
  · exact nodup_append'.mpr ⟨hnames, h.log.consumed_nodup, fun n hn hold => hnew n hn hold⟩
  · intro p hp
    rcases mem_cons.mp hp with rfl | hp
    · exact h.log.consumed_nodup
    · exact h.log.history_nodup p hp
  · exact fun n hn => mem_append_right _ (h.log.committed_consumed n hn)
  · exact fun n hn => (h.log.held_or_consumed n hn).imp id (mem_append_right _)

theorem BufferInv.sealNew {dirs : WalDirs} (hfree : s.mtime.get? name = none) (hdirs : sealSegment s.dirs name = some dirs) :
    BufferInv { s with dirs := dirs, mtime := s.mtime.upsert name fun _ => s.now } := by
  obtain ⟨-, hget⟩ := sealSegment_eq_some hdirs
  have hnew : name ∉ s.scan.begun := fun hin => by simpa [hfree] using h.begun_sealed name hin
  have hmay : s.scan.MayMove (some .sealed) name := by
    cases hscan : s.scan with
    | idle => trivial
    | listing base begun rest paths | reading base begun paths out => exact fun hin => absurd (hscan ▸ hin) hnew
  have hmoved := h.move hget (fun htarget => absurd htarget (by decide)) hmay
  have hmtime : ∀ n, ((s.mtime.upsert name fun _ => s.now).get? n).isSome → n = name ∨ (s.mtime.get? n).isSome := by
    intro n hn
    rw [SortedMap.get?_upsert] at hn
    split at hn
    · next heq => exact .inl heq
    · exact .inr hn
  refine ⟨⟨hmoved.log.consumed_nodup, hmoved.log.history_nodup, hmoved.log.committed_consumed, ?_⟩, hmoved.scan, ?_⟩
  · intro n hn
    rcases hmtime n hn with rfl | hn
    · exact .inl ⟨.sealed, by rw [hget, if_pos rfl]⟩
    · exact hmoved.log.held_or_consumed n hn
  · intro n hn
    dsimp only
    rw [SortedMap.get?_upsert]
    split
    · rfl
    · exact h.begun_sealed n hn

theorem BufferInv.step {s' : BufferState} {a : BufferAction} (hok : UndisturbedScan s a)
    (hstep : bufferStep s a = some s') : BufferInv s' := by
  cases a with
  | tick seconds =>
    simp only [bufferStep, some.injEq] at hstep
    exact hstep ▸ ⟨⟨h.log.1, h.log.2, h.log.3, h.log.4⟩, h.scan, h.begun_sealed⟩
  | sealNew name =>
    simp only [bufferStep] at hstep
    split at hstep
    · next hfree =>
      obtain ⟨dirs, hdirs, rfl⟩ := map_eq_some_iff.mp hstep
      exact h.sealNew hfree hdirs
    · cases hstep
  | claim name => exact h.rename (fun htarget => by cases htarget) hok hstep
  | release name =>
    simp only [bufferStep] at hstep
    split at hstep
    · cases hstep
    · exact h.rename (fun htarget => by cases htarget) hok hstep
  | commit names =>
    simp only [bufferStep] at hstep
    split at hstep
    · next hnames =>
      rw [some.injEq] at hstep
      exact hstep ▸ h.commit hnames.1 fun n hn => (hnames.2 n hn).2
    · cases hstep
  | finish name =>
    simp only [bufferStep] at hstep
    split at hstep
    · next hconsumed => exact h.rename (fun _ => hconsumed) hok hstep
    · cases hstep
  | sweep name =>
    simp only [bufferStep] at hstep
    split at hstep
    · obtain ⟨dirs, hdirs, rfl⟩ := map_eq_some_iff.mp hstep
      obtain ⟨hcom, hget⟩ := sweepSegment_eq_some hdirs
      exact h.move hget (fun _ => h.log.committed_consumed name hcom) hok
    · cases hstep
  | takeCurrent =>
    simp only [bufferStep] at hstep
    split at hstep
    · rw [some.injEq] at hstep
      exact hstep ▸ h.begin h.log.consumed_nodup fun n hn _ => hn
    · cases hstep
  | takeSuperseded index =>
    simp only [bufferStep] at hstep
    split at hstep
    · obtain ⟨⟨superseded, base⟩, hbase, htake⟩ := bind_eq_some_iff.mp hstep
      dsimp only at htake
      split at htake
      · rw [some.injEq] at htake
        exact htake ▸ h.begin (h.log.history_nodup _ (mem_of_getElem? hbase)) (hok _ hbase)
      · cases htake
    · cases hstep
  | listNext =>
    have hscan := h.scan
    have hbegun := h.begun_sealed
    simp only [bufferStep] at hstep
    split at hstep
    · next base begun dir rest paths hphase =>
      rw [some.injEq] at hstep
      rw [hphase] at hscan hbegun
      refine hstep ▸ ⟨⟨h.log.1, h.log.2, h.log.3, h.log.4⟩, ?_, hbegun⟩
      refine ListingInv.listNext hscan fun n hn hbase hdir => ?_
      cases dir with
      | sealed | processing => simp [BufferState.eligible, hbase]
      | committed =>
        simp only [UndisturbedScan, hphase] at hok
        simp [BufferState.eligible, hbase, hok n hn hbase hdir]
    · next base begun paths hphase =>
      rw [some.injEq] at hstep
      rw [hphase] at hscan hbegun
      exact hstep ▸ ⟨⟨h.log.1, h.log.2, h.log.3, h.log.4⟩, ListingInv.startReading hscan, hbegun⟩
    · cases hstep
  | readNext =>
    have hscan := h.scan
    have hbegun := h.begun_sealed
    simp only [bufferStep] at hstep
    split at hstep
    · next base begun dir name rest out hphase =>
      rw [some.injEq] at hstep
      rw [hphase] at hscan hbegun
      exact hstep ▸ ⟨⟨h.log.1, h.log.2, h.log.3, h.log.4⟩, ReadingInv.readNext hscan, hbegun⟩
    · cases hstep

end

theorem bufferInv_init : BufferInv .init := by
  refine ⟨⟨nodup_nil, ?_, ?_, ?_⟩, trivial, ?_⟩
  · exact fun p hp => absurd hp not_mem_nil
  · exact fun n hn => by cases hn
  · exact fun n hn => by cases hn
  · exact fun n hn => absurd hn not_mem_nil

/-- In every state of every run whose steps meet the condition, a finished scan has returned every row of every segment
sealed before it began exactly once. -/
theorem scan_sees_each_row_once_of_undisturbed {ρ : Type*} (rowsOf : Text → List ρ) (acts : List BufferAction)
    (s : BufferState) (hmeets : Transition.Meets bufferStep UndisturbedScan .init acts)
    (hrun : run bufferStep .init acts = some s) : ScanSeesEachRowOnce rowsOf s := by
  have hinv : BufferInv s :=
    Transition.invariant_run (fun s a s' hinv hok hstep => hinv.step hok hstep) bufferInv_init hmeets hrun
  intro base begun out hscan n hn
  have hread := hinv.scan
  rw [hscan] at hread
  have hcount : base.count n + out.count n = 1 := by
    by_cases hbase : n ∈ base
    · have hout : n ∉ out := fun hin => hread.out_new n hin hbase
      rw [count_eq_one_of_mem hread.base_nodup hbase, count_eq_zero_of_not_mem hout]
    · rw [count_eq_zero_of_not_mem hbase]
      rcases hread.once n hn hbase with ⟨-, d, -, hd⟩ | ⟨hone, -⟩
      · exact absurd hd not_mem_nil
      · rw [hone]
  rw [filter_scanRows, hcount, replicate_one, flatten_singleton]

/-! ## A segment that waited for the drain -/

def waitingSegment : Text := "a-01980000-0000-7000-8000-000000000001.arrow".toList

def claimedBetweenListings : List BufferAction :=
  [.sealNew waitingSegment, .takeCurrent, .listNext, .claim waitingSegment, .listNext, .listNext, .listNext,
    .readNext, .readNext]

def drainedAfterWaiting : List BufferAction :=
  [.sealNew waitingSegment, .tick 300, .claim waitingSegment, .commit [waitingSegment], .finish waitingSegment,
    .takeSuperseded 0, .listNext, .listNext, .listNext, .listNext]

theorem scan_sees_claimed_segment_once :
    ∃ s, run bufferStep .init claimedBetweenListings = some s ∧
      s.scan = .reading [] [waitingSegment] [] [waitingSegment] ∧ ScanSeesEachRowOnce (fun _ => [0, 1]) s := by
  have hmeets : Transition.Meets bufferStep UndisturbedScan .init claimedBetweenListings := by decide +kernel
  have hview : (run bufferStep .init claimedBetweenListings).map BufferState.scan =
      some (.reading [] [waitingSegment] [] [waitingSegment]) := by decide +kernel
  obtain ⟨s, hrun, hscan⟩ := map_eq_some_iff.mp hview
  exact ⟨s, hrun, hscan, scan_sees_each_row_once_of_undisturbed _ _ s hmeets hrun⟩

/-- The segment is in `committed/` but no longer recent, and the base snapshot does not name it: its row is not
returned. -/
theorem scan_misses_segment_that_waited :
    ∃ s, run bufferStep .init drainedAfterWaiting = some s ∧
      s.scan = .reading [] [waitingSegment] [] [] ∧ ¬ ScanSeesEachRowOnce (fun _ => [0]) s := by
  have hview : (run bufferStep .init drainedAfterWaiting).map BufferState.scan =
      some (.reading [] [waitingSegment] [] []) := by decide +kernel
  obtain ⟨s, hrun, hscan⟩ := map_eq_some_iff.mp hview
  refine ⟨s, hrun, hscan, fun honce => ?_⟩
  have hrows := honce [] [waitingSegment] [] hscan waitingSegment mem_cons_self
  exact absurd hrows (by simp [scanRows])

end LogLake
