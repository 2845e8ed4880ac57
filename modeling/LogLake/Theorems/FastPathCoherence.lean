import LogLake.Lemmas.FastPath
import LogLake.Theorems.BufferVisibility

/-! # Fast paths answer from one snapshot -/

namespace LogLake

open List Option
open Transition (run)

/-- The condition on a step. The delta is loaded inside its budget from a log that has swept no segment the served snapshot
lacks, or has nothing to add; while it is loaded the listing finds every such segment, no listed file moves before it is read,
and the cache serves the same snapshot. While there are still committed rows to read, the cache is refreshed only to a
snapshot that holds no segment of the request's delta, and once a part has been read only to the one it serves. -/
def CoherentReads (s : CountState) : CountAction → Prop
  | .log action => UndisturbedScan s.log action ∧ ∀ name ∈ action.moved, ∀ p ∈ s.log.scan.unread, p.2 ≠ name
  | .refresh => match s.request with
    | .loading _ => s.log.consumed = s.cached
    | .reading _ _ delta parts committed =>
      parts = [] ∨ if committed = [] then ∀ n ∈ delta, n ∉ s.log.consumed else s.log.consumed = s.cached
    | _ => True
  | .loadDelta _ withinBudget =>
    if withinBudget then ∀ n ∈ s.log.consumed, ¬ s.log.dirs.Holds n → n ∈ s.cached else ∀ n ∈ s.log.sealedNames, n ∈ s.cached
  | _ => True

instance decidableCoherentReads (s : CountState) (a : CountAction) : Decidable (CoherentReads s a) := by
  unfold CoherentReads
  split
  case h_2 => split <;> infer_instance
  all_goals infer_instance

/-- What a request that reads has: its delta is what the buffer adds to one snapshot, and the parts read so far are that
snapshot's; the parts still to read will be, too. -/
structure ReadingFrom (rowsOf : Text → List CountedRow) (log : BufferState) (snapshot : List Text) (path : FastPath)
    (begun delta : List Text) (parts : List TimeRange) (committed : List (List CountedRow)) : Prop where
  wellFormed : path.WellFormed
  buffered : Buffered log snapshot begun delta
  parts_eq : ∃ read, read ++ parts = path.parts ∧
    committed = read.map fun part => (segmentRows rowsOf snapshot).filter part.contains

structure CountInv (rowsOf : Text → List CountedRow) (s : CountState) : Prop where
  log : BufferInv s.log
  reads : ReadsOnce s.log
  cached_mem : s.cached ∈ s.log.snapshots
  cached_subset : s.cached ⊆ s.log.consumed
  loading : ∀ path, s.request = .loading path → path.WellFormed ∧ s.log.scan.base = some s.cached
  reading : ∀ path begun delta parts committed, s.request = .reading path begun delta parts committed →
    ∃ snapshot ∈ s.log.snapshots, ReadingFrom rowsOf s.log snapshot path begun delta parts committed ∧
      (parts ≠ [] → snapshot = s.cached)
  answered : AnswersFromOneSnapshot rowsOf s

/-! ## What the log does beside a request -/

/-- Snapshots and sealed segments stay, and a scan keeps to its snapshot. -/
structure LogGrows (log log' : BufferState) : Prop where
  snapshots : log.snapshots ⊆ log'.snapshots
  consumed : log.consumed ⊆ log'.consumed
  wasSealed : ∀ n, (log.mtime.get? n).isSome → (log'.mtime.get? n).isSome
  base : log'.scan.base = log.scan.base

theorem LogGrows.of_dirs (log : BufferState) (dirs : WalDirs) : LogGrows log { log with dirs := dirs } :=
  ⟨fun _ h => h, fun _ h => h, fun _ h => h, rfl⟩

theorem LogGrows.of_scan {log : BufferState} {phase : ScanPhase} (hbase : phase.base = log.scan.base) :
    LogGrows log { log with scan := phase } :=
  ⟨fun _ h => h, fun _ h => h, fun _ h => h, hbase⟩

theorem LogGrows.of_move {log log' : BufferState} {moved : Option WalDirs}
    (h : (moved.map fun dirs => { log with dirs := dirs }) = some log') : LogGrows log log' := by
  obtain ⟨dirs, -, rfl⟩ := map_eq_some_iff.mp h
  exact .of_dirs log dirs

theorem LogGrows.of_bufferStep {log log' : BufferState} {action : BufferAction} (hcurrent : action ≠ .takeCurrent)
    (hsuperseded : ∀ index, action ≠ .takeSuperseded index) (h : bufferStep log action = some log') : LogGrows log log' := by
  cases action with
  | tick seconds =>
    cases h
    exact ⟨fun _ h => h, fun _ h => h, fun _ h => h, rfl⟩
  | sealNew name =>
    obtain ⟨-, hmap⟩ := ite_none_right_eq_some.mp h
    obtain ⟨dirs, -, rfl⟩ := map_eq_some_iff.mp hmap
    refine ⟨fun _ h => h, fun _ h => h, fun n hn => ?_, rfl⟩
    dsimp only
    rw [SortedMap.get?_upsert]
    split
    · rfl
    · exact hn
  | claim name => exact .of_move h
  | release name => exact .of_move (ite_none_left_eq_some.mp h).2
  | commit names =>
    obtain ⟨-, heq⟩ := ite_none_right_eq_some.mp h
    cases heq
    exact ⟨fun _ hn => mem_cons_of_mem _ hn, fun _ hn => mem_append_right _ hn, fun _ hn => hn, rfl⟩
  | finish name => exact .of_move (ite_none_right_eq_some.mp h).2
  | sweep name => exact .of_move (ite_none_right_eq_some.mp h).2
  | takeCurrent => exact absurd rfl hcurrent
  | takeSuperseded index => exact absurd rfl (hsuperseded index)
  | listNext =>
    simp only [bufferStep] at h
    split at h
    · next hphase =>
      cases h
      exact .of_scan (by rw [hphase]; rfl)
    · next hphase =>
      cases h
      exact .of_scan (by rw [hphase]; rfl)
    · cases h
  | readNext =>
    simp only [bufferStep] at h
    split at h
    · next hphase =>
      cases h
      exact .of_scan (by rw [hphase]; rfl)
    · cases h

theorem Buffered.grows {log log' : BufferState} {snapshot begun names : List Text} (h : Buffered log snapshot begun names)
    (hgrows : LogGrows log log') : Buffered log' snapshot begun names :=
  { h with wasSealed := fun n hn => hgrows.wasSealed n (h.wasSealed n hn) }

/-- A request whose committed rows have not been read yet can go on from a later snapshot without a segment of its delta. -/
theorem Buffered.advance {log : BufferState} {snapshot later begun names : List Text} (h : Buffered log snapshot begun names)
    (hsubset : snapshot ⊆ later) (hfresh : ∀ n ∈ names, n ∉ later) : Buffered log later begun names :=
  { h with fresh := hfresh, complete := fun n hn hlater => h.complete n hn fun hin => hlater (hsubset hin) }

theorem BufferInv.nodup_unread {s : BufferState} (h : BufferInv s) : s.scan.unread.Nodup := by
  have hscan := h.scan
  cases hphase : s.scan with
  | idle | listing base begun dirs paths => exact nodup_nil
  | reading base begun paths out =>
    rw [hphase] at hscan
    exact hscan.paths_nodup

/-! ## The steps -/

section

variable {rowsOf : Text → List CountedRow} {s s' : CountState} (h : CountInv rowsOf s)
include h

theorem CountInv.logStep {log : BufferState} {action : BufferAction} (hok : CoherentReads s (.log action))
    (hcurrent : action ≠ .takeCurrent) (hsuperseded : ∀ index, action ≠ .takeSuperseded index)
    (hstep : bufferStep s.log action = some log) : CountInv rowsOf { s with log := log } := by
  have hgrows := LogGrows.of_bufferStep hcurrent hsuperseded hstep
  refine ⟨h.log.step hok.1 hstep, h.reads.step h.log.nodup_unread hok.2 hstep, hgrows.snapshots h.cached_mem,
    fun n hn => hgrows.consumed (h.cached_subset hn), ?_, ?_, ?_⟩
  · intro path hreq
    exact ⟨(h.loading path hreq).1, hgrows.base.trans (h.loading path hreq).2⟩
  · intro path begun delta parts committed hreq
    obtain ⟨snapshot, hmem, hfrom, hserved⟩ := h.reading path begun delta parts committed hreq
    exact ⟨snapshot, hgrows.snapshots hmem, { hfrom with buffered := hfrom.buffered.grows hgrows }, hserved⟩
  · intro path begun answer hreq
    obtain ⟨snapshot, hmem, names, hbuffered, heq⟩ := h.answered path begun answer hreq
    exact ⟨snapshot, hgrows.snapshots hmem, names, hbuffered.grows hgrows, heq⟩

theorem CountInv.refresh (hok : CoherentReads s .refresh) : CountInv rowsOf { s with cached := s.log.consumed } := by
  refine ⟨h.log, h.reads, mem_cons_self, fun n hn => hn, fun path hreq => ?_, ?_, h.answered⟩
  · have hreq' : s.request = .loading path := hreq
    simp only [CoherentReads, hreq'] at hok
    rw [hok]
    exact h.loading path hreq
  · intro path begun delta parts committed hreq
    obtain ⟨snapshot, hmem, hfrom, hserved⟩ := h.reading path begun delta parts committed hreq
    have hreq' : s.request = .reading path begun delta parts committed := hreq
    simp only [CoherentReads, hreq'] at hok
    by_cases hparts : parts = []
    · exact ⟨snapshot, hmem, hfrom, fun hne => absurd hparts hne⟩
    have hrest := hok.resolve_left hparts
    split at hrest
    · next hnone =>
      -- Nothing has been read yet, so the request goes on from the new snapshot.
      have hsubset : snapshot ⊆ s.log.consumed := hserved hparts ▸ h.cached_subset
      refine ⟨s.log.consumed, mem_cons_self, ⟨hfrom.wellFormed, hfrom.buffered.advance hsubset hrest, ?_⟩, fun _ => rfl⟩
      obtain ⟨read, hread, hcommitted⟩ := hfrom.parts_eq
      have hnil : read = [] := by
        rw [hnone] at hcommitted
        exact map_eq_nil_iff.mp hcommitted.symm
      exact ⟨read, hread, by rw [hnone, hnil, map_nil]⟩
    · exact ⟨snapshot, hmem, hfrom, fun hne => by rw [hserved hne, hrest]⟩

theorem CountInv.nodup_cached : s.cached.Nodup := by
  rcases mem_cons.mp h.cached_mem with heq | hold
  · exact heq ▸ h.log.log.consumed_nodup
  · obtain ⟨p, hp, heq⟩ := mem_map.mp hold
    exact heq ▸ h.log.log.history_nodup p hp

theorem CountInv.loadDelta {path : FastPath} {withinBudget : Bool} (hok : CoherentReads s (.loadDelta path withinBudget))
    (hstep : countStep rowsOf s (.loadDelta path withinBudget) = some s') : CountInv rowsOf s' := by
  obtain ⟨⟨-, hpath⟩, hload⟩ := ite_none_right_eq_some.mp hstep
  cases withinBudget with
  | true =>
    cases hload
    exact ⟨h.log.begin h.nodup_cached hok, h.reads.begin s.cached, h.cached_mem, h.cached_subset,
      fun _ hreq => (by cases hreq; exact ⟨hpath, rfl⟩), fun _ _ _ _ _ hreq => (by cases hreq), fun _ _ _ hreq => (by cases hreq)⟩
  | false =>
    cases hload
    refine { h with loading := fun _ hreq => (by cases hreq), reading := ?_, answered := fun _ _ _ hreq => by cases hreq }
    intro path' begun delta parts committed hreq
    cases hreq
    refine ⟨s.cached, h.cached_mem, ⟨hpath, ?_, ⟨[], rfl, rfl⟩⟩, fun _ => rfl⟩
    exact ⟨nodup_nil, fun _ hn => absurd hn not_mem_nil, fun _ hn => absurd hn not_mem_nil, fun n hn hout => absurd (hok n hn) hout⟩

theorem CountInv.loaded (hstep : countStep rowsOf s .loaded = some s') : CountInv rowsOf s' := by
  simp only [countStep] at hstep
  split at hstep
  · next path base begun out hreq hscan =>
    cases hstep
    have hinv := h.log.scan
    have hnodup := h.reads.nodup
    have hread := h.reads.read
    obtain ⟨hpath, hbase⟩ := h.loading path hreq
    rw [hscan] at hinv hnodup hread hbase
    obtain rfl : base = s.cached := some.inj hbase
    refine { h with loading := fun _ hreq => (by cases hreq), reading := ?_, answered := fun _ _ _ hreq => by cases hreq }
    intro path' begun' delta parts committed hreq'
    cases hreq'
    refine ⟨s.cached, h.cached_mem, ⟨hpath, ⟨hnodup, hinv.out_new, hread, fun n hn hout => ?_⟩, ⟨[], rfl, rfl⟩⟩, fun _ => rfl⟩
    rcases hinv.once n hn hout with ⟨-, d, -, hd⟩ | ⟨hone, -⟩
    · exact absurd hd not_mem_nil
    · exact one_le_count_iff.mp hone.ge
  · cases hstep

theorem CountInv.readPart (hstep : countStep rowsOf s .readPart = some s') : CountInv rowsOf s' := by
  simp only [countStep] at hstep
  split at hstep
  · next path begun delta part rest committed hreq =>
    rw [some.injEq] at hstep
    subst hstep
    refine { h with loading := fun _ hreq => (by cases hreq), reading := ?_, answered := fun _ _ _ hreq => by cases hreq }
    intro path' begun' delta' parts' committed' hreq'
    cases hreq'
    obtain ⟨snapshot, hmem, hfrom, hserved⟩ := h.reading _ _ _ _ _ hreq
    have hcached : snapshot = s.cached := hserved (cons_ne_nil _ _)
    obtain ⟨read, hread, hcommitted⟩ := hfrom.parts_eq
    refine ⟨snapshot, hmem, ⟨hfrom.wellFormed, hfrom.buffered, read ++ [part], ?_, ?_⟩, fun _ => hcached⟩
    · rw [append_assoc]
      exact hread
    · rw [hcommitted, hcached, map_append]
      rfl
  · cases hstep

theorem CountInv.respond (hstep : countStep rowsOf s .respond = some s') : CountInv rowsOf s' := by
  simp only [countStep] at hstep
  split at hstep
  · next path begun delta committed hreq =>
    rw [some.injEq] at hstep
    subst hstep
    refine { h with
      loading := fun _ hreq => (by cases hreq), reading := fun _ _ _ _ _ hreq => (by cases hreq), answered := ?_ }
    intro path' begun' answer hreq'
    cases hreq'
    obtain ⟨snapshot, hmem, hfrom, -⟩ := h.reading _ _ _ _ _ hreq
    obtain ⟨read, hread, hcommitted⟩ := hfrom.parts_eq
    refine ⟨snapshot, hmem, delta, hfrom.buffered, ?_⟩
    rw [append_nil] at hread
    rw [hcommitted, hread, FastPath.respond_eq_answer hfrom.wellFormed]
  · cases hstep

end

theorem CountInv.step {rowsOf : Text → List CountedRow} {s s' : CountState} {a : CountAction} (h : CountInv rowsOf s)
    (hok : CoherentReads s a) (hstep : countStep rowsOf s a = some s') : CountInv rowsOf s' := by
  cases a with
  | log action =>
    have hlog : action ≠ .takeCurrent ∧ (∀ index, action ≠ .takeSuperseded index) ∧
        ∃ log, bufferStep s.log action = some log ∧ { s with log := log } = s' := by
      cases action with
      | takeCurrent | takeSuperseded index => cases hstep
      | _ => exact ⟨nofun, nofun, map_eq_some_iff.mp hstep⟩
    obtain ⟨hcurrent, hsuperseded, log, hbuffer, rfl⟩ := hlog
    exact h.logStep hok hcurrent hsuperseded hbuffer
  | refresh =>
    simp only [countStep, some.injEq] at hstep
    exact hstep ▸ h.refresh hok
  | loadDelta path withinBudget => exact h.loadDelta hok hstep
  | loaded => exact h.loaded hstep
  | readPart => exact h.readPart hstep
  | respond => exact h.respond hstep

theorem countInv_init (rowsOf : Text → List CountedRow) : CountInv rowsOf .init where
  log := bufferInv_init
  reads := ⟨fun _ hn => (by obtain ⟨_, hd⟩ := hn; cases hd), fun _ hp => absurd hp not_mem_nil,
    fun _ hn => absurd hn not_mem_nil, fun _ => .inl rfl⟩
  cached_mem := mem_cons_self
  cached_subset _ hn := hn
  loading _ hreq := by cases hreq
  reading _ _ _ _ _ hreq := by cases hreq
  answered _ _ _ hreq := by cases hreq

def drainedSegment : Text := "a-01980000-0000-7000-8000-000000000001.arrow".toList

/-- Every segment holds one error event. -/
def oneError (_ : Text) : List CountedRow := [⟨some "error".toList, some 0⟩]

def errorCount : FastPath := .negationCount (.set ["error".toList] false)

def loadsErrors : List CountAction :=
  [.log (.sealNew drainedSegment), .loadDelta errorCount true, .log .listNext, .log .listNext, .log .listNext, .log .listNext,
    .log .readNext, .loaded, .log (.claim drainedSegment), .log (.commit [drainedSegment])]

def committedBetweenReads : List CountAction := loadsErrors ++ [.log (.finish drainedSegment), .readPart, .respond]

def refreshedBetweenReads : List CountAction := loadsErrors ++ [.refresh, .readPart, .respond]

end LogLake
