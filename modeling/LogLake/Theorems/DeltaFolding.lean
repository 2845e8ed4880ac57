import LogLake.Lemmas.Deltas
import LogLake.Lib.Transition

/-! # Counting every delta once -/

namespace LogLake

open List Option DeltaState

open Transition (run Meets)

variable {κ δ : Type} {m : WideMerge κ δ} {delta : Int → GroupCountDelta δ} {minBacklog : Nat} {initial : κ}
  {through : Option Int} {b b' : DeltaBucket κ}

/-! ## One step -/

theorem folderStep_sound {phase phase' : FolderPhase κ} {a : FolderAction} (hb : SoundBucket m delta initial through b)
    (hknows : FolderKnows m delta initial through b phase)
    (hstep : folderStep m delta minBacklog b phase a = some (b', phase')) :
    Advance m b b' ∧ SoundBucket m delta initial through b' ∧ FolderKnows m delta initial through b' phase' ∧
      ∀ seq ∈ b.objects, seq ∉ b'.objects → a = .delete ∧ phase.next? = some seq := by
  -- most steps leave the store as it is
  have hquiet : b' = b → FolderKnows m delta initial through b phase' →
      Advance m b b' ∧ SoundBucket m delta initial through b' ∧ FolderKnows m delta initial through b' phase' ∧
        ∀ seq ∈ b.objects, seq ∉ b'.objects → a = .delete ∧ phase.next? = some seq := by
    rintro rfl hphase
    exact ⟨.refl _, hb, hphase, fun seq hseq hnot => absurd hseq hnot⟩
  unfold folderStep at hstep
  split at hstep
  · -- stat
    split at hstep
    · rename_i habsent
      cases hstep
      have hcurrent : b.current m = .empty m := by rw [DeltaBucket.current, habsent, getD_none]
      exact hquiet rfl ⟨hcurrent ▸ hb.current, le_rfl, fun seq hseq => hcurrent ▸ hseq, fun _ seq hseq => hcurrent ▸ hseq⟩
    · cases hstep
      exact hquiet rfl le_rfl
  · -- load
    cases hstep
    exact hquiet rfl ⟨hb.current, hknows, fun _ hseq => hseq, fun _ _ hseq => hseq⟩
  · -- list
    cases hstep
    refine hquiet rfl ?_
    unfold folderListed
    split
    · trivial
    · exact hb.list hknows
  · -- read
    split at hstep
    · cases hstep
      exact hquiet rfl (Folding.read hknows)
    · cases hstep
      exact hquiet rfl trivial
  · -- store
    split at hstep
    · cases hstep
      exact hquiet rfl (Folding.toDelete hknows)
    · cases hstep
      have hfold : Folding m delta initial through b _ _ _ _ [] := hknows
      obtain ⟨hadv, hb'⟩ := hb.sendAt hfold.before hfold.settle hfold.extends_current
      exact ⟨hadv, hb', hfold.toDelete.mono hadv, fun seq hseq hnot => absurd hseq hnot⟩
  · -- acknowledge
    obtain ⟨-, hstep⟩ := ite_none_right_eq_some.mp hstep
    cases hstep
    exact hquiet rfl hknows
  · -- delete
    rename_i seq rest
    cases hstep
    obtain ⟨hadv, hb'⟩ := hb.delete (hknows seq mem_cons_self)
    refine ⟨hadv, hb', fun other hother => (hknows other (mem_cons_of_mem _ hother)).imp_left (hadv.merged other), ?_⟩
    intro other hother hnot
    refine ⟨rfl, ?_⟩
    have hsame : other = seq := by
      by_contra hne
      exact hnot (mem_filter.mpr ⟨hother, by simpa using hne⟩)
    rw [hsame]
    rfl
  · -- skip
    cases hstep
    exact hquiet rfl fun other hother => hknows other (mem_cons_of_mem _ hother)
  · -- stop
    cases hstep
    exact hquiet rfl trivial
  · exact absurd hstep (by simp)

theorem readerStep_sound {phase phase' : ReaderPhase κ} {a : ReaderAction} (hb : SoundBucket m delta initial through b)
    (hknows : ReaderKnows m delta initial through b phase) (hstep : readerStep m delta b phase a = some phase') :
    ReaderKnows m delta initial through b phase' := by
  have hlist : b.list.Nodup := (perm_insertionSort _ _).nodup_iff.mpr hb.objects_nodup
  unfold readerStep at hstep
  split at hstep
  · -- a listing before the base is read
    cases hstep
    refine ⟨hlist, fun seq hseq => hb.objects_written seq (mem_list.mp hseq), fun seq hseq => ?_⟩
    rw [mem_list]
    exact hb.kept seq hseq
  · -- the base
    cases hstep
    exact ⟨hb.current, hb.kept⟩
  · -- the base after a listing
    cases hstep
    obtain ⟨hnodup, hwritten, hsince⟩ := hknows
    exact hb.current.reading hnodup hwritten hsince
  · -- the listing after the base
    cases hstep
    obtain ⟨hsound, hsince⟩ := hknows
    refine hsound.reading hlist (fun seq hseq => hb.objects_written seq (mem_list.mp hseq)) fun seq hseq => ?_
    rw [mem_list]
    exact hsince seq hseq
  · -- one delta
    split at hstep
    · rename_i hobject
      cases hstep
      exact Reading.read hknows hobject
    · cases hstep
      trivial
  · -- the end
    cases hstep
    exact Reading.finish hknows
  · -- stop
    cases hstep
    trivial
  · exact absurd hstep (by simp)

/-! ## Runs -/

/-- The store is sound and every folder and reader knows what its phase says. -/
structure SoundState (m : WideMerge κ δ) (delta : Int → GroupCountDelta δ) (initial : κ) (through : Option Int)
    (s : DeltaState κ) : Prop where
  bucket : SoundBucket m delta initial through s.bucket
  folders : ∀ phase ∈ s.folders, FolderKnows m delta initial through s.bucket phase
  readers : ∀ phase ∈ s.readers, ReaderKnows m delta initial through s.bucket phase

theorem SoundState.step {s s' : DeltaState κ} {a : DeltaAction} (h : SoundState m delta initial through s)
    (hintime : DeltasInTime s a) (hstep : deltaStep m delta minBacklog s a = some s') :
    SoundState m delta initial through s' := by
  cases a with
  | put seq =>
    cases hstep
    obtain ⟨hadv, hb⟩ := h.bucket.put hintime
    refine ⟨hb, fun phase hphase => (h.folders phase hphase).mono hadv, fun phase hphase => ?_⟩
    exact (h.readers phase hphase).mono hadv fun other hother hnot => absurd (mem_insert_of_mem hother) hnot
  | land pos =>
    obtain ⟨⟨wide, base⟩, hland, rfl⟩ := map_eq_some_iff.mp hstep
    obtain ⟨hadv, hb⟩ := h.bucket.land hland (pos :: s.bucket.landed)
    refine ⟨hb, fun phase hphase => (h.folders phase hphase).mono hadv, fun phase hphase => ?_⟩
    exact (h.readers phase hphase).mono hadv fun other hother hnot => absurd hother hnot
  | folder f a =>
    obtain ⟨phase, hphase, hmap⟩ := bind_eq_some_iff.mp hstep
    obtain ⟨⟨b', phase'⟩, hfolder, rfl⟩ := map_eq_some_iff.mp hmap
    obtain ⟨hadv, hb, hknows, hdeleted⟩ :=
      folderStep_sound h.bucket (h.folders phase (mem_of_getElem? hphase)) hfolder
    refine ⟨hb, fun other hother => ?_, fun reader hreader => ?_⟩
    · rcases mem_or_eq_of_mem_set hother with hother | rfl
      · exact (h.folders other hother).mono hadv
      · exact hknows
    · refine (h.readers reader hreader).mono hadv fun seq hseq hnot => ?_
      obtain ⟨rfl, hnext⟩ := hdeleted seq hseq hnot
      exact hintime phase hphase seq hnext reader hreader
  | reader r a =>
    obtain ⟨phase, hphase, hmap⟩ := bind_eq_some_iff.mp hstep
    obtain ⟨phase', hreader, rfl⟩ := map_eq_some_iff.mp hmap
    have hknows := readerStep_sound h.bucket (h.readers phase (mem_of_getElem? hphase)) hreader
    refine ⟨h.bucket, h.folders, fun other hother => ?_⟩
    rcases mem_or_eq_of_mem_set hother with hother | rfl
    · exact h.readers other hother
    · exact hknows

/-- The counts a run starts with. -/
def initialCounts (m : WideMerge κ δ) (rebuilt : Option (Int × SnapshotAggregates κ)) : κ :=
  (rebuilt.map fun r => r.2.counts).getD m.empty

theorem soundBase_of_unmerged (wide : WideGroupCounts κ) (hmerged : wide.merged = []) (habsorbed : wide.absorbed = []) :
    SoundBase m delta wide.counts wide.rebuiltThrough b wide where
  rebuilt := rfl
  written := by simp [hmerged]
  fresh := by simp [hmerged]
  built := hmerged ▸ .start
  nodup := hmerged ▸ nodup_nil
  absorbed := by simp [habsorbed]
  pruned := by simp [hmerged]

theorem soundState_start (rebuilt : Option (Int × SnapshotAggregates κ)) (folders readers : Nat) :
    SoundState m delta (initialCounts m rebuilt) (rebuilt.map Prod.fst) (.start rebuilt folders readers) where
  bucket := by
    refine ⟨nodup_nil, by simp [start, DeltaBucket.start], ?_, ?_, ConditionalStore.current_init _⟩
    · cases rebuilt with
      | none => exact soundBase_of_unmerged (.empty m) rfl rfl
      | some r => exact soundBase_of_unmerged ⟨r.2, [], some r.1, []⟩ rfl rfl
    · simp [start, DeltaBucket.start]
  folders := by
    intro phase hphase
    obtain rfl := eq_of_mem_replicate hphase
    trivial
  readers := by
    intro phase hphase
    obtain rfl := eq_of_mem_replicate hphase
    trivial

/-- In every run that meets the condition, the counts a reader returns are made of the base and of deltas above the rebuild
watermark, none of them twice, and among them is every one that had been written when the reader began. -/
theorem reader_counts_deltas_once (m : WideMerge κ δ) (delta : Int → GroupCountDelta δ) (minBacklog : Nat)
    (rebuilt : Option (Int × SnapshotAggregates κ)) (folders readers : Nat) (actions : List DeltaAction) (s : DeltaState κ)
    (hintime : Meets (deltaStep m delta minBacklog) DeltasInTime (.start rebuilt folders readers) actions)
    (hrun : run (deltaStep m delta minBacklog) (.start rebuilt folders readers) actions = some s)
    (wide : WideGroupCounts κ) (since : List Int) (hdone : .done (some wide) since ∈ s.readers) :
    Built m delta (initialCounts m rebuilt) wide.counts wide.merged ∧ wide.merged.Nodup ∧
      (∀ seq ∈ wide.merged, ¬Covered (rebuilt.map Prod.fst) seq) ∧
      ∀ seq ∈ since, ¬Covered (rebuilt.map Prod.fst) seq → seq ∈ wide.merged := by
  have h : SoundState m delta (initialCounts m rebuilt) (rebuilt.map Prod.fst) s :=
    Transition.invariant_run (fun _ _ _ h hok hstep => h.step hok hstep) (soundState_start rebuilt folders readers)
      hintime hrun
  have hexact := h.readers _ hdone wide rfl
  exact ⟨hexact.built, hexact.nodup, hexact.fresh, hexact.complete⟩

def addedUp : WideMerge Nat Nat := ⟨0, (· + ·), id, (0 < ·)⟩

def rowDelta (_ : Int) : GroupCountDelta Nat := ⟨none, 1⟩

def firstDeltaFolded : List DeltaAction :=
  [.put 1, .folder 0 .stat, .folder 0 .list, .folder 0 .read, .folder 0 .store, .land 0, .folder 0 .acknowledge,
    .folder 0 .stop]

def deleteCycle : List DeltaAction :=
  [.folder 0 .stat, .folder 0 .load, .folder 0 .list, .folder 0 .store, .folder 0 .delete, .folder 0 .stop]

def readerRound : List DeltaAction := [.reader 0 .load, .reader 0 .list, .reader 0 .read, .reader 0 .finish]

/-- What the first reader returned: the deltas in its counts, the counts, and the deltas written when it began. -/
def DeltaState.firstResult (s : DeltaState Nat) : Option (List Int × Nat × List Int) :=
  match s.readers[0]? with
  | some (ReaderPhase.done (some wide) since) => some (wide.merged, wide.counts, since)
  | _ => none

theorem DeltaState.firstResult_eq_some {s : DeltaState Nat} {merged since : List Int} {counts : Nat}
    (h : s.firstResult = some (merged, counts, since)) :
    ∃ wide, .done (some wide) since ∈ s.readers ∧ wide.merged = merged ∧ wide.counts = counts := by
  unfold firstResult at h
  split at h
  · rename_i wide since' hreader
    obtain ⟨rfl, rfl, rfl⟩ : wide.merged = merged ∧ wide.counts = counts ∧ since' = since := by simpa using h
    exact ⟨wide, mem_of_getElem? hreader, rfl, rfl⟩
  · exact absurd h (by simp)

/-- The first delta is written again before the next cycle, which deletes its object; the second one is read from its own. -/
theorem rewritten_before_delete :
    ∃ s, run (deltaStep addedUp rowDelta 1) (.start none 1 1)
        (firstDeltaFolded ++ [.put 1] ++ deleteCycle ++ [.put 2] ++ readerRound) = some s ∧
      ∃ wide, .done (some wide) [2, 1] ∈ s.readers ∧ wide.merged = [2, 1] ∧ wide.counts = 2 ∧ wide.merged.Nodup := by
  have hrun : (run (deltaStep addedUp rowDelta 1) (.start none 1 1)
      (firstDeltaFolded ++ [.put 1] ++ deleteCycle ++ [.put 2] ++ readerRound)).bind firstResult =
        some ([2, 1], 2, [2, 1]) := by
    decide +kernel
  obtain ⟨s, hs, hresult⟩ := bind_eq_some_iff.mp hrun
  obtain ⟨wide, hdone, hmerged, hcounts⟩ := firstResult_eq_some hresult
  exact ⟨s, hs, wide, hdone, hmerged, hcounts, (reader_counts_deltas_once addedUp rowDelta 1 none 1 1 _ s
    (by decide +kernel) hs wide _ hdone).2.1⟩

def rewrittenAfterPrune : List DeltaAction :=
  firstDeltaFolded ++ deleteCycle ++
    [.folder 0 .stat, .folder 0 .load, .folder 0 .list, .folder 0 .store, .land 1, .put 1] ++ readerRound

def listedAfterDelete : List DeltaAction :=
  firstDeltaFolded ++ [.put 2, .reader 0 .load] ++
    [.folder 0 .stat, .folder 0 .load, .folder 0 .list, .folder 0 .read, .folder 0 .store, .land 1,
      .folder 0 .acknowledge, .folder 0 .delete, .folder 0 .stop] ++
    [.folder 0 .stat, .folder 0 .load, .folder 0 .list, .folder 0 .store, .land 2, .folder 0 .acknowledge,
      .folder 0 .delete] ++
    [.reader 0 .list, .reader 0 .finish]

/-- The first delta is written again after its object was deleted and its id pruned: a reader counts it twice. And a reader
reads the base before the second delta is absorbed, and lists after its object was deleted: it misses a delta that had been
written when it began. -/
theorem delta_counted_twice_or_missed :
    (∃ s, run (deltaStep addedUp rowDelta 1) (.start none 1 1) rewrittenAfterPrune = some s ∧
      ∃ wide, .done (some wide) [1] ∈ s.readers ∧ wide.merged = [1, 1] ∧ wide.counts = 2) ∧
    (∃ s, run (deltaStep addedUp rowDelta 1) (.start none 1 1) listedAfterDelete = some s ∧
      ∃ wide, .done (some wide) [2, 1] ∈ s.readers ∧ wide.merged = [1] ∧ wide.counts = 1) := by
  constructor
  · have hrun : (run (deltaStep addedUp rowDelta 1) (.start none 1 1) rewrittenAfterPrune).bind
        firstResult = some ([1, 1], 2, [1]) := by
      decide +kernel
    obtain ⟨s, hs, hresult⟩ := bind_eq_some_iff.mp hrun
    exact ⟨s, hs, firstResult_eq_some hresult⟩
  · have hrun : (run (deltaStep addedUp rowDelta 1) (.start none 1 1) listedAfterDelete).bind
        firstResult = some ([1], 1, [2, 1]) := by
      decide +kernel
    obtain ⟨s, hs, hresult⟩ := bind_eq_some_iff.mp hrun
    exact ⟨s, hs, firstResult_eq_some hresult⟩

end LogLake
