import LogLake.Theorems.DeltaFolding

/-! # A base that does not parse is kept only while nothing is folded -/

namespace LogLake

open List Transition

variable {κ δ : Type} {m : WideMerge κ δ} {delta : Int → GroupCountDelta δ} {minBacklog : Nat}
variable {parses : WideGroupCounts κ → Bool} {base : WideGroupCounts κ} {s s' : DeltaState κ} {a : DeltaAction}

/-- The folder has written nothing and holds no counts. -/
def FolderPhase.HoldsNothing (m : WideMerge κ δ) : FolderPhase κ → Prop
  | .idle => True
  | .statted _ => True
  | .loaded _ wide => wide = .empty m
  | _ => False

/-- The base is in the store, no write of it was sent, and no folder holds counts. -/
structure Untouched (m : WideMerge κ δ) (base : WideGroupCounts κ) (s : DeltaState κ) : Prop where
  object : s.bucket.base.object = some base
  sent : s.bucket.base.sent = []
  folders : ∀ phase ∈ s.folders, phase.HoldsNothing m

theorem untouched_pending (version : Nat) (deltas : List Int) (folders : Nat) :
    Untouched m base (.pending base version deltas folders) where
  object := rfl
  sent := rfl
  folders := by
    intro phase hphase
    rw [eq_of_mem_replicate hphase]
    trivial

/-- Under an empty base nothing is listed as done, so that all the deltas are outstanding. -/
theorem folderListed_empty {present : List Int} (version : Nat) (hfew : present = [] ∨ present.length < minBacklog) :
    folderListed minBacklog version (.empty m) present = .idle := by
  have houtstanding : (WideGroupCounts.empty m).outstanding present = present :=
    filter_eq_self.mpr fun seq _ => by simp [WideGroupCounts.empty, WideGroupCounts.Redundant]
  refine if_pos ⟨?_, rfl, by rwa [houtstanding]⟩
  exact filter_eq_nil_iff.mpr fun seq _ => by simp [WideGroupCounts.empty, WideGroupCounts.Redundant]

theorem parsingFolderStep_holdsNothing {b b' : DeltaBucket κ} {phase phase' : FolderPhase κ} {act : FolderAction}
    (hobject : b.base.object = some base) (hbase : parses base = false) (hphase : phase.HoldsNothing m)
    (hfew : act = .list → b.objects = [] ∨ b.objects.length < minBacklog)
    (h : parsingFolderStep m delta minBacklog parses b phase act = some (b', phase')) : b' = b ∧ phase'.HoldsNothing m := by
  cases phase with
  | idle =>
    cases act with
    | stat =>
      simp only [parsingFolderStep, folderStep, hobject] at h
      cases h
      exact ⟨rfl, trivial⟩
    | stop =>
      cases h
      exact ⟨rfl, trivial⟩
    | _ => nomatch h
  | statted version =>
    cases act with
    | load =>
      cases h
      refine ⟨rfl, ?_⟩
      simp [FolderPhase.HoldsNothing, hobject, Option.filter, hbase]
    | stop =>
      cases h
      exact ⟨rfl, trivial⟩
    | _ => nomatch h
  | loaded version wide =>
    obtain rfl : wide = .empty m := hphase
    cases act with
    | list =>
      cases h
      have hlisted : b.list = [] ∨ b.list.length < minBacklog := by
        simpa [DeltaBucket.list, ← length_eq_zero_iff] using hfew rfl
      rw [folderListed_empty version hlisted]
      exact ⟨rfl, trivial⟩
    | stop =>
      cases h
      exact ⟨rfl, trivial⟩
    | _ => nomatch h
  | folding version acc present toFold unread | stored pos toDelete | deleting toDelete => exact hphase.elim

theorem Untouched.step (hbase : parses base = false) (hs : Untouched m base s) (hfew : BelowBacklog minBacklog s a)
    (h : parsingStep m delta minBacklog parses s a = some s') :
    Untouched m base s' ∧ s.bucket.objects ⊆ s'.bucket.objects := by
  cases a with
  | put seq =>
    cases h
    exact ⟨{ hs with }, fun _ hseq => mem_insert_of_mem hseq⟩
  | land pos =>
    simp [parsingStep, deltaStep, ConditionalStore.land, hs.sent] at h
  | folder f act =>
    obtain ⟨phase, hphase, hnext⟩ := Option.bind_eq_some_iff.mp h
    obtain ⟨⟨bucket, phase'⟩, hstep, rfl⟩ := Option.map_eq_some_iff.mp hnext
    have hlist : act = .list → s.bucket.objects = [] ∨ s.bucket.objects.length < minBacklog := by
      rintro rfl
      exact hfew
    obtain ⟨rfl, hholds⟩ :=
      parsingFolderStep_holdsNothing hs.object hbase (hs.folders phase (mem_of_getElem? hphase)) hlist hstep
    refine ⟨⟨hs.object, hs.sent, fun other hother => ?_⟩, Subset.refl _⟩
    rcases mem_or_eq_of_mem_set hother with hother | rfl
    · exact hs.folders other hother
    · exact hholds
  | reader r act => nomatch h

/-- In every run of writers and folders on a base that does not parse, in which every folder that lists finds fewer deltas than
it folds, the base stays as it is and no delta is deleted. -/
theorem unreadable_base_kept (m : WideMerge κ δ) (delta : Int → GroupCountDelta δ) (minBacklog : Nat)
    (parses : WideGroupCounts κ → Bool) (base : WideGroupCounts κ) (version : Nat) (deltas : List Int) (folders : Nat)
    (actions : List DeltaAction) (s : DeltaState κ) (hbase : parses base = false)
    (hmeets : Meets (parsingStep m delta minBacklog parses) (BelowBacklog minBacklog)
      (.pending base version deltas folders) actions)
    (hrun : run (parsingStep m delta minBacklog parses) (.pending base version deltas folders) actions = some s) :
    s.bucket.base.object = some base ∧ deltas ⊆ s.bucket.objects := by
  have hkept : Untouched m base s ∧ deltas ⊆ s.bucket.objects := by
    refine invariant_run (I := fun s => Untouched m base s ∧ deltas ⊆ s.bucket.objects) ?_
      ⟨untouched_pending version deltas folders, Subset.refl _⟩ hmeets hrun
    intro s a s' hI hfew h
    obtain ⟨huntouched, hobjects⟩ := hI.1.step hbase hfew h
    exact ⟨huntouched, Subset.trans hI.2 hobjects⟩
  exact ⟨hkept.1.object, hkept.2⟩

/-- Five rows folded so far. -/
def fiveRows : WideGroupCounts Nat := ⟨⟨none, [], 5⟩, [], none, []⟩

/-- One delta is too little for a fold of two. -/
theorem one_delta_below_backlog :
    ∃ s, run (parsingStep addedUp rowDelta 2 fun w => w.counts ≠ 5) (.pending fiveRows 3 [1] 1)
        [.folder 0 .stat, .folder 0 .load, .folder 0 .list] = some s ∧
      s.bucket.base.object = some fiveRows ∧ [1] ⊆ s.bucket.objects := by
  refine ⟨_, rfl, ?_⟩
  exact unreadable_base_kept addedUp rowDelta 2 (fun w => w.counts ≠ 5) fiveRows 3 [1] 1
    [.folder 0 .stat, .folder 0 .load, .folder 0 .list] _ rfl (by decide +kernel) rfl

/-- The five rows do not parse and one delta is pending: the folder stores the one row over them under their version, and its
next cycle deletes the delta. -/
theorem unreadable_base_overwritten :
    (run (parsingStep addedUp rowDelta 1 fun w => w.counts ≠ 5) (.pending fiveRows 3 [1] 1)
      [.folder 0 .stat, .folder 0 .load, .folder 0 .list, .folder 0 .read, .folder 0 .store, .land 0,
        .folder 0 .acknowledge, .folder 0 .stop, .folder 0 .stat, .folder 0 .load, .folder 0 .list, .folder 0 .store,
        .folder 0 .delete]).map (fun s => (s.bucket.base.object.map fun w => w.counts, s.bucket.objects)) =
      some (some 1, []) := by
  decide +kernel

end LogLake
