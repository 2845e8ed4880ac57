import LogLake.Wal.Buffer

/-! # What holds while a scan runs -/

namespace LogLake

open List

/-! ## The condition on a move -/

/-- A segment may be moved (to `target`, or removed) beside the scan: the base snapshot names it, the scan began before
it was sealed, its target is still to be listed, or no path of it is left to read. -/
def ScanPhase.MayMove (target : Option SegmentDir) (name : Text) : ScanPhase → Prop
  | .idle => True
  | .listing base begun dirs _ => name ∈ begun → name ∉ base → ∃ d ∈ target, d ∈ dirs
  | .reading base begun paths _ => name ∈ begun → name ∉ base → ∀ d, (d, name) ∉ paths

instance ScanPhase.decidableMayMove (target : Option SegmentDir) (name : Text) :
    ∀ phase : ScanPhase, Decidable (phase.MayMove target name)
  | .idle => isTrue trivial
  | .listing base begun dirs _ =>
    decidable_of_iff (name ∈ begun → name ∉ base → target.any (fun d => dirs.contains d) = true)
      (by simp [ScanPhase.MayMove, Option.any_eq_true])
  | .reading base begun paths _ =>
    decidable_of_iff (name ∈ begun → name ∉ base → ∀ p ∈ paths, p.2 ≠ name)
      (by simp [ScanPhase.MayMove]; grind)

/-! ## The log and the table -/

structure LogInv (s : BufferState) : Prop where
  consumed_nodup : s.consumed.Nodup
  history_nodup : ∀ p ∈ s.history, p.2.Nodup
  committed_consumed : ∀ n, s.dirs.get? n = some .committed → n ∈ s.consumed
  held_or_consumed : ∀ n, (s.mtime.get? n).isSome → s.dirs.Holds n ∨ n ∈ s.consumed

variable {s : BufferState} {name : Text} {target : Option SegmentDir}

theorem LogInv.move {dirs : WalDirs} (h : LogInv s) (hget : ∀ n, dirs.get? n = if n = name then target else s.dirs.get? n)
    (hsafe : target = none ∨ target = some .committed → name ∈ s.consumed) : LogInv { s with dirs := dirs } := by
  refine ⟨h.consumed_nodup, h.history_nodup, ?_, ?_⟩
  · intro n hn
    dsimp only at hn
    rw [hget] at hn
    split at hn
    · next heq => exact heq ▸ hsafe (.inr hn)
    · exact h.committed_consumed n hn
  · intro n hn
    unfold WalDirs.Holds
    rw [hget]
    split
    · next heq =>
      cases htarget : target with
      | none => exact .inr (heq ▸ hsafe (.inl htarget))
      | some d => exact .inl ⟨d, rfl⟩
    · exact h.held_or_consumed n hn

/-! ## The scan -/

structure ListingInv (walDirs : WalDirs) (base begun : List Text) (dirs : List SegmentDir)
    (paths : List (SegmentDir × Text)) : Prop where
  base_nodup : base.Nodup
  dirs_nodup : dirs.Nodup
  paths_nodup : paths.Nodup
  path_listed : ∀ p ∈ paths, p.1 ∉ dirs ∧ p.2 ∉ base
  reachable : ∀ n ∈ begun, n ∉ base → ∃ d, walDirs.get? n = some d ∧ (d ∈ dirs ∨ (d, n) ∈ paths)

structure ReadingInv (walDirs : WalDirs) (base begun : List Text) (paths : List (SegmentDir × Text))
    (out : List Text) : Prop where
  base_nodup : base.Nodup
  paths_nodup : paths.Nodup
  path_new : ∀ p ∈ paths, p.2 ∉ base
  out_new : ∀ n ∈ out, n ∉ base
  once : ∀ n ∈ begun, n ∉ base →
    (out.count n = 0 ∧ ∃ d, walDirs.get? n = some d ∧ (d, n) ∈ paths) ∨
    (out.count n = 1 ∧ ∀ d, walDirs.get? n = some d → (d, n) ∉ paths)

def ScanPhase.Inv (walDirs : WalDirs) : ScanPhase → Prop
  | .idle => True
  | .listing base begun dirs paths => ListingInv walDirs base begun dirs paths
  | .reading base begun paths out => ReadingInv walDirs base begun paths out

variable {walDirs : WalDirs}

theorem ScanPhase.Inv.move {walDirs' : WalDirs} {phase : ScanPhase}
    (h : phase.Inv walDirs) (hget : ∀ n, walDirs'.get? n = if n = name then target else walDirs.get? n)
    (hmay : phase.MayMove target name) : phase.Inv walDirs' := by
  cases phase with
  | idle => trivial
  | listing base begun dirs paths =>
    refine { h with reachable := fun n hn hbase => ?_ }
    rw [hget]
    split
    · next heq =>
      subst heq
      obtain ⟨d, htarget, hd⟩ := hmay hn hbase
      exact ⟨d, htarget, Or.inl hd⟩
    · exact h.reachable n hn hbase
  | reading base begun paths out =>
    refine { h with once := fun n hn hbase => ?_ }
    rw [hget]
    split
    · next heq =>
      subst heq
      -- No path of the segment is left, so it has been read.
      rcases h.once n hn hbase with ⟨-, d, -, hd⟩ | ⟨hcount, -⟩
      · exact absurd hd (hmay hn hbase d)
      · exact .inr ⟨hcount, fun d _ => hmay hn hbase d⟩
    · exact h.once n hn hbase

theorem WalDirs.nodup_list (walDirs : WalDirs) (dir : SegmentDir) : (walDirs.list dir).Nodup := by
  have hsorted := (walDirs.sorted.filter fun e => decide (e.2 = dir)).map Prod.fst fun _ _ h => h
  exact hsorted.imp fun h => ne_of_lt h

variable {base : List Text} {dir : SegmentDir}

theorem mem_listUncommittedSegments {p : SegmentDir × Text} :
    p ∈ s.listUncommittedSegments base dir ↔ p.1 = dir ∧ s.dirs.get? p.2 = some dir ∧ s.eligible base dir p.2 = true := by
  obtain ⟨d, n⟩ := p
  simp only [BufferState.listUncommittedSegments, mem_map, mem_filter, WalDirs.mem_list, Prod.mk.injEq]
  constructor
  · intro ⟨m, hm, hd, hn⟩
    exact ⟨hd.symm, hn ▸ hm⟩
  · intro ⟨hd, hm⟩
    exact ⟨n, hm, hd.symm, rfl⟩

variable {begun : List Text} {paths : List (SegmentDir × Text)}

/-- The listing of one more directory misses no segment. -/
theorem ListingInv.listNext {rest : List SegmentDir} (h : ListingInv s.dirs base begun (dir :: rest) paths)
    (hrecent : ∀ n ∈ begun, n ∉ base → s.dirs.get? n = some dir → s.eligible base dir n = true) :
    ListingInv s.dirs base begun rest (s.listUncommittedSegments base dir ++ paths) := by
  obtain ⟨hdir, hrest⟩ := nodup_cons.mp h.dirs_nodup
  refine ⟨h.base_nodup, hrest, ?_, ?_, ?_⟩
  · refine nodup_append'.mpr ⟨?_, h.paths_nodup, ?_⟩
    · exact ((s.dirs.nodup_list dir).filter _).map fun _ _ heq => (Prod.mk.inj heq).2
    · intro p hp hold
      exact (h.path_listed p hold).1 ((mem_listUncommittedSegments.mp hp).1 ▸ mem_cons_self)
  · intro p hp
    rcases mem_append.mp hp with hnew | hold
    · obtain ⟨hpd, -, helig⟩ := mem_listUncommittedSegments.mp hnew
      refine ⟨hpd ▸ hdir, fun hbase => ?_⟩
      simp [BufferState.eligible, hbase] at helig
    · obtain ⟨hlisted, hbase⟩ := h.path_listed p hold
      exact ⟨fun hin => hlisted (mem_cons_of_mem _ hin), hbase⟩
  · intro n hn hbase
    obtain ⟨d, hd, hwhere⟩ := h.reachable n hn hbase
    refine ⟨d, hd, ?_⟩
    rcases hwhere with hin | hpath
    · rcases mem_cons.mp hin with rfl | hin
      · exact .inr (mem_append_left _ (mem_listUncommittedSegments.mpr ⟨rfl, hd, hrecent n hn hbase hd⟩))
      · exact .inl hin
    · exact .inr (mem_append_right _ hpath)

theorem ListingInv.startReading (h : ListingInv walDirs base begun [] paths) : ReadingInv walDirs base begun paths [] := by
  refine ⟨h.base_nodup, h.paths_nodup, fun p hp => (h.path_listed p hp).2, fun n hn => absurd hn not_mem_nil, ?_⟩
  intro n hn hbase
  obtain ⟨d, hd, hwhere⟩ := h.reachable n hn hbase
  exact .inl ⟨rfl, d, hd, hwhere.resolve_left not_mem_nil⟩

/-- Reading one more file loses no segment. -/
theorem ReadingInv.readNext
    {rest : List (SegmentDir × Text)} {out : List Text} (h : ReadingInv walDirs base begun ((dir, name) :: rest) out) :
    ReadingInv walDirs base begun rest (if walDirs.get? name = some dir then name :: out else out) := by
  obtain ⟨hhead, hrest⟩ := nodup_cons.mp h.paths_nodup
  refine ⟨h.base_nodup, hrest, fun p hp => h.path_new p (mem_cons_of_mem _ hp), ?_, ?_⟩
  · intro n hn
    split at hn
    · rcases mem_cons.mp hn with rfl | hn
      · exact h.path_new _ mem_cons_self
      · exact h.out_new n hn
    · exact h.out_new n hn
  · intro n hn hbase
    have hold := h.once n hn hbase
    by_cases hread : walDirs.get? name = some dir
    · rw [if_pos hread]
      by_cases heq : n = name
      · subst heq
        rcases hold with ⟨hcount, -⟩ | ⟨-, hnone⟩
        · refine .inr ⟨by rw [count_cons_self, hcount], fun d hd => ?_⟩
          rw [hread, Option.some.injEq] at hd
          exact hd ▸ hhead
        · exact absurd mem_cons_self (hnone dir hread)
      · rw [count_cons_of_ne (Ne.symm heq)]
        simpa [heq] using hold
    · rw [if_neg hread]
      rcases hold with ⟨hcount, d, hd, hmem⟩ | ⟨hcount, hnone⟩
      · refine .inl ⟨hcount, d, hd, (mem_cons.mp hmem).resolve_left fun heq => ?_⟩
        obtain ⟨rfl, rfl⟩ := Prod.mk.inj heq
        exact hread hd
      · exact .inr ⟨hcount, fun d hd hmem => hnone d hd (mem_cons_of_mem _ hmem)⟩

/-! ## Segments read once -/

/-- A scan meets sealed segments only, and reads none twice, not even one sealed after it began. -/
structure ReadsOnce (s : BufferState) : Prop where
  held : ∀ n, s.dirs.Holds n → (s.mtime.get? n).isSome
  listed : ∀ p ∈ s.scan.paths, (s.mtime.get? p.2).isSome
  read : ∀ n ∈ s.scan.out, (s.mtime.get? n).isSome
  once : ∀ n, s.scan.out.count n = 0 ∨ (s.scan.out.count n = 1 ∧ ∀ d, s.dirs.get? n = some d → (d, n) ∉ s.scan.unread)

section ReadsOnce

variable (h : ReadsOnce s)
include h

theorem ReadsOnce.move {dirs : WalDirs} (hget : ∀ n, dirs.get? n = if n = name then target else s.dirs.get? n)
    (hheld : (s.mtime.get? name).isSome) (hmoved : ∀ p ∈ s.scan.unread, p.2 ≠ name) : ReadsOnce { s with dirs := dirs } := by
  refine ⟨fun n hn => ?_, h.listed, h.read, fun n => ?_⟩
  · by_cases heq : n = name
    · exact heq ▸ hheld
    · refine h.held n ?_
      obtain ⟨d, hd⟩ := hn
      rw [hget, if_neg heq] at hd
      exact ⟨d, hd⟩
  · refine (h.once n).imp id fun hone => ⟨hone.1, fun d hd hmem => ?_⟩
    have hne : n ≠ name := hmoved (d, n) hmem
    dsimp only at hd
    rw [hget, if_neg hne] at hd
    exact hone.2 d hd hmem

theorem ReadsOnce.rename {s' : BufferState} {source target : SegmentDir} (hmoved : ∀ p ∈ s.scan.unread, p.2 ≠ name)
    (hstep : ((s.dirs.rename source target name).map fun dirs => { s with dirs := dirs }) = some s') : ReadsOnce s' := by
  obtain ⟨dirs, hdirs, rfl⟩ := Option.map_eq_some_iff.mp hstep
  obtain ⟨hsource, hget⟩ := WalDirs.rename_eq_some hdirs
  exact h.move hget (h.held name ⟨source, hsource⟩) hmoved

theorem ReadsOnce.sealNew {dirs : WalDirs} (hfree : s.mtime.get? name = none) (hdirs : sealSegment s.dirs name = some dirs) :
    ReadsOnce { s with dirs := dirs, mtime := s.mtime.upsert name fun _ => s.now } := by
  obtain ⟨-, hget⟩ := sealSegment_eq_some hdirs
  have hmono : ∀ n, n = name ∨ (s.mtime.get? n).isSome → ((s.mtime.upsert name fun _ => s.now).get? n).isSome := by
    intro n hn
    rw [SortedMap.get?_upsert]
    split
    · rfl
    · next hne => exact hn.resolve_left hne
  have hunread : ∀ p ∈ s.scan.unread, p.2 ≠ name := by
    intro p hp heq
    have hpath : p ∈ s.scan.paths := by
      cases hscan : s.scan <;> rw [hscan] at hp
      · cases hp
      · cases hp
      · exact hp
    have hlisted := h.listed p hpath
    rw [heq, hfree] at hlisted
    cases hlisted
  refine ⟨fun n hn => hmono n ?_, fun p hp => hmono _ (.inr (h.listed p hp)), fun n hn => hmono n (.inr (h.read n hn)), fun n => ?_⟩
  · by_cases heq : n = name
    · exact .inl heq
    · obtain ⟨d, hd⟩ := hn
      rw [hget, if_neg heq] at hd
      exact .inr (h.held n ⟨d, hd⟩)
  · refine (h.once n).imp id fun hone => ⟨hone.1, fun d hd hmem => ?_⟩
    dsimp only at hd
    rw [hget, if_neg (hunread (d, n) hmem)] at hd
    exact hone.2 d hd hmem

theorem ReadsOnce.begin (base : List Text) : ReadsOnce (s.begin base) :=
  ⟨h.held, fun _ hp => absurd hp not_mem_nil, fun _ hn => absurd hn not_mem_nil, fun _ => .inl rfl⟩

theorem ReadsOnce.listNext {s' : BufferState} (hstep : bufferStep s .listNext = some s') : ReadsOnce s' := by
  have hlisted := h.listed
  simp only [bufferStep] at hstep
  split at hstep
  · next base begun dir rest paths hphase =>
    cases hstep
    rw [hphase] at hlisted
    refine ⟨h.held, fun p hp => ?_, fun _ hn => absurd hn not_mem_nil, fun _ => .inl rfl⟩
    rcases mem_append.mp hp with hnew | hold
    · obtain ⟨-, hdir, -⟩ := mem_listUncommittedSegments.mp hnew
      exact h.held p.2 ⟨dir, hdir⟩
    · exact hlisted p hold
  · next base begun paths hphase =>
    cases hstep
    rw [hphase] at hlisted
    exact ⟨h.held, hlisted, fun _ hn => absurd hn not_mem_nil, fun _ => .inl rfl⟩
  · cases hstep

theorem ReadsOnce.readNext {s' : BufferState} (hnodup : s.scan.unread.Nodup) (hstep : bufferStep s .readNext = some s') :
    ReadsOnce s' := by
  obtain ⟨hheld, hlisted, hread, honce⟩ := h
  simp only [bufferStep] at hstep
  split at hstep
  · next base begun dir name rest out hphase =>
    cases hstep
    rw [hphase] at hnodup hlisted hread honce
    obtain ⟨hhead, -⟩ := nodup_cons.mp hnodup
    have hrest : ∀ n, out.count n = 0 ∨ (out.count n = 1 ∧ ∀ d, s.dirs.get? n = some d → (d, n) ∉ rest) :=
      fun n => (honce n).imp id fun hone => ⟨hone.1, fun d hd hmem => hone.2 d hd (mem_cons_of_mem _ hmem)⟩
    refine ⟨hheld, fun p hp => hlisted p (mem_cons_of_mem _ hp), fun n hn => ?_, fun n => ?_⟩
    · dsimp only [ScanPhase.out] at hn
      split at hn
      · rcases mem_cons.mp hn with rfl | hn
        · exact hlisted (dir, n) mem_cons_self
        · exact hread n hn
      · exact hread n hn
    · dsimp only [ScanPhase.out, ScanPhase.unread]
      split
      · next hthere =>
        by_cases heq : n = name
        · -- It was not read before: its one file is where this path says.
          subst heq
          have hzero : out.count n = 0 := (honce n).resolve_right fun hone => hone.2 dir hthere mem_cons_self
          refine .inr ⟨by rw [count_cons_self, hzero], fun d hd => ?_⟩
          rw [hthere, Option.some.injEq] at hd
          exact hd ▸ hhead
        · rw [count_cons_of_ne (Ne.symm heq)]
          exact hrest n
      · exact hrest n
  · cases hstep

/-- Every step keeps that a load reads no segment twice. -/
theorem ReadsOnce.step {s' : BufferState} {a : BufferAction} (hnodup : s.scan.unread.Nodup)
    (hmoved : ∀ name ∈ a.moved, ∀ p ∈ s.scan.unread, p.2 ≠ name) (hstep : bufferStep s a = some s') : ReadsOnce s' := by
  cases a with
  | tick seconds =>
    cases hstep
    exact { h with }
  | sealNew name =>
    obtain ⟨hfree, hmap⟩ := Option.ite_none_right_eq_some.mp hstep
    obtain ⟨dirs, hdirs, rfl⟩ := Option.map_eq_some_iff.mp hmap
    exact h.sealNew hfree hdirs
  | claim name => exact h.rename (hmoved name rfl) hstep
  | release name => exact h.rename (hmoved name rfl) (Option.ite_none_left_eq_some.mp hstep).2
  | commit names =>
    obtain ⟨-, heq⟩ := Option.ite_none_right_eq_some.mp hstep
    cases heq
    exact { h with }
  | finish name => exact h.rename (hmoved name rfl) (Option.ite_none_right_eq_some.mp hstep).2
  | sweep name =>
    obtain ⟨-, hmap⟩ := Option.ite_none_right_eq_some.mp hstep
    obtain ⟨dirs, hdirs, rfl⟩ := Option.map_eq_some_iff.mp hmap
    obtain ⟨hcommitted, hget⟩ := sweepSegment_eq_some hdirs
    exact h.move hget (h.held name ⟨_, hcommitted⟩) (hmoved name rfl)
  | takeCurrent =>
    obtain ⟨-, heq⟩ := Option.ite_none_right_eq_some.mp hstep
    cases heq
    exact h.begin s.consumed
  | takeSuperseded index =>
    obtain ⟨-, hbind⟩ := Option.ite_none_right_eq_some.mp hstep
    obtain ⟨⟨superseded, base⟩, -, htake⟩ := Option.bind_eq_some_iff.mp hbind
    obtain ⟨-, heq⟩ := Option.ite_none_right_eq_some.mp htake
    cases heq
    exact h.begin base
  | listNext => exact h.listNext hstep
  | readNext => exact h.readNext hnodup hstep

theorem ReadsOnce.nodup : s.scan.out.Nodup := nodup_iff_count_le_one.mpr fun n => by rcases h.once n with hn | hn <;> omega

end ReadsOnce

/-! ## Rows -/

theorem filter_scanRows {ρ : Type*} (rowsOf : Text → List ρ) (base out : List Text) (n : Text) :
    (scanRows rowsOf base out).filter (fun r => r.1 = n) =
      (List.replicate (base.count n + out.count n) ((rowsOf n).map fun row => (n, row))).flatten := by
  unfold scanRows
  rw [← count_append]
  induction base ++ out with
  | nil => rfl
  | cons m names ih =>
    rw [flatMap_cons, filter_append, ih]
    by_cases heq : m = n
    · subst heq
      have hall : ((rowsOf m).map fun row => (m, row)).filter (fun r => r.1 = m) = (rowsOf m).map fun row => (m, row) := by
        simp
      rw [hall, count_cons_self, replicate_succ, flatten_cons]
    · have hnone : ((rowsOf m).map fun row => (m, row)).filter (fun r => r.1 = n) = [] := by
        simp [heq]
      rw [hnone, count_cons_of_ne heq, nil_append]

end LogLake
