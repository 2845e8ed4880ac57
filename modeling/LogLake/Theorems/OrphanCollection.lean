import LogLake.Iceberg.OrphanGc

/-! # Orphan collection and live files -/

namespace LogLake.OrphanGc

open List

open Transition (run Meets)

variable {minAge : Nat} {s s' : State}

/-! ## The invariant -/

/-- What holds of a run after its reading of the clock: a referenced file is known as reachable or too young, and a marked file is
neither known as reachable nor referenced, and old. -/
structure Spares (minAge : Nat) (s : State) (reachable : List Text) (now : Nat) (toDelete : List Text) : Prop where
  young : ∀ f ∈ s.files, .under f.rel ∈ s.metadata.reachableFiles → f.rel ∉ reachable → ¬ OldEnough minAge now f.modified
  unreferenced : ∀ rel ∈ toDelete, rel ∈ s.written ∧ rel ∉ reachable ∧ .under rel ∉ s.metadata.reachableFiles
  old : ∀ rel ∈ toDelete, ∀ f ∈ s.files, f.rel = rel → OldEnough minAge now f.modified

/-- Nothing referenced was deleted, and nothing referenced will be. -/
structure NothingLost (minAge : Nat) (s : State) : Prop where
  stored : ∀ f ∈ s.files, f.rel ∈ s.written
  distinct : (s.files.map StoredFile.rel).Nodup
  referenced : ∀ rel, .under rel ∈ s.metadata.reachableFiles → rel ∈ s.written
  spares : ∀ reachable now toDelete, s.phase.aged? = some (reachable, now, toDelete) →
    Spares minAge s reachable now toDelete
  lost : s.lost = []

theorem nothingLost_init : NothingLost minAge .init := by
  refine ⟨fun f hf => absurd hf not_mem_nil, nodup_nil, fun rel hrel => absurd hrel not_mem_nil,
    fun reachable now toDelete haged => ?_, rfl⟩
  cases haged

/-! ## The writers -/

theorem NothingLost.write (h : NothingLost minAge s) {rel : Text} (hnew : rel ∉ s.written) :
    NothingLost minAge { s with files := s.files ++ [⟨rel, s.clock⟩], written := s.written ++ [rel] } := by
  have hgrow : ∀ path ∈ s.written, path ∈ s.written ++ [rel] := fun path hpath => mem_append_left _ hpath
  refine ⟨fun f hf => ?_, ?_, fun path hpath => hgrow path (h.referenced path hpath), fun reachable now toDelete haged => ?_,
    h.lost⟩
  · rcases mem_append.mp hf with hold | hadded
    · exact hgrow _ (h.stored f hold)
    · rw [mem_singleton.mp hadded]
      exact mem_append_right _ (mem_singleton_self rel)
  · change ((s.files ++ [(⟨rel, s.clock⟩ : StoredFile)]).map StoredFile.rel).Nodup
    rw [map_append, nodup_append]
    refine ⟨h.distinct, nodup_singleton _, fun path hpath added hadded => ?_⟩
    obtain ⟨f, hf, rfl⟩ := mem_map.mp hpath
    rw [map_singleton, mem_singleton] at hadded
    rintro rfl
    have hsame : f.rel = rel := hadded
    exact hnew (hsame ▸ h.stored f hf)
  · have hspares := h.spares reachable now toDelete haged
    refine ⟨fun f hf href => ?_, fun path hpath => ?_, fun path hpath f hf hrel => ?_⟩
    · rcases mem_append.mp hf with hold | hadded
      · exact hspares.young f hold href
      · rw [mem_singleton.mp hadded] at href
        exact absurd (h.referenced rel href) hnew
    · obtain ⟨hwritten, hfree⟩ := hspares.unreferenced path hpath
      exact ⟨hgrow path hwritten, hfree⟩
    · rcases mem_append.mp hf with hold | hadded
      · exact hspares.old path hpath f hold hrel
      · rw [mem_singleton.mp hadded] at hrel
        subst hrel
        exact absurd (hspares.unreferenced rel hpath).1 hnew

theorem NothingLost.commit (h : NothingLost minAge s) {metadata : TableMetadata} (hadmits : s.Admits metadata)
    (hyoung : YoungAtClock minAge s (.commit metadata)) : NothingLost minAge { s with metadata := metadata } := by
  refine ⟨h.stored, h.distinct, fun rel hrel => ?_, fun reachable now toDelete haged => ?_, h.lost⟩
  · rcases hadmits rel hrel with hold | hfile
    · exact h.referenced rel hold
    · obtain ⟨f, hf, rfl⟩ := mem_map.mp hfile
      exact h.stored f hf
  · have hspares := h.spares reachable now toDelete haged
    have hfresh : ∀ f ∈ s.files, .under f.rel ∈ metadata.reachableFiles → f.rel ∉ reachable →
        ¬ OldEnough minAge now f.modified := by
      intro f hf href hunknown
      by_cases hold : .under f.rel ∈ s.metadata.reachableFiles
      · exact hspares.young f hf hold hunknown
      · exact hyoung _ haged f hf href hold hunknown
    refine ⟨hfresh, fun rel hrel => ?_, hspares.old⟩
    obtain ⟨hwritten, hunknown, hfree⟩ := hspares.unreferenced rel hrel
    refine ⟨hwritten, hunknown, fun href => ?_⟩
    rcases hadmits rel href with hold | hfile
    · exact hfree hold
    · obtain ⟨f, hf, rfl⟩ := mem_map.mp hfile
      exact hfresh f hf href hunknown (hspares.old f.rel hrel f hf rfl)

/-! ## The collector -/

theorem NothingLost.setPhase (h : NothingLost minAge s) (phase : Phase)
    (hspares : ∀ reachable now toDelete, phase.aged? = some (reachable, now, toDelete) →
      Spares minAge s reachable now toDelete) : NothingLost minAge { s with phase := phase } := by
  refine { h with spares := fun reachable now toDelete haged => ?_ }
  have hkeep := hspares reachable now toDelete haged
  exact { hkeep with }

variable {reachable : List Text}

theorem Spares.mark (h : NothingLost minAge s) {now : Nat} {toDelete : List Text}
    (hspares : Spares minAge s reachable now toDelete) {f : StoredFile} (hf : f ∈ s.files) {known : Bool}
    (hmark : Marks minAge reachable now f known) : Spares minAge s reachable now (toDelete ++ [f.rel]) := by
  obtain ⟨_, hunknown, _, hold⟩ := hmark
  refine ⟨hspares.young, fun rel hrel => ?_, fun rel hrel g hg hsame => ?_⟩
  · rcases mem_append.mp hrel with hbefore | hadded
    · exact hspares.unreferenced rel hbefore
    · rw [mem_singleton.mp hadded]
      exact ⟨h.stored f hf, hunknown, fun href => hspares.young f hf href hunknown hold⟩
  · rcases mem_append.mp hrel with hbefore | hadded
    · exact hspares.old rel hbefore g hg hsame
    · rw [mem_singleton.mp hadded] at hsame
      rw [inj_on_of_nodup_map h.distinct hg hf hsame]
      exact hold

theorem NothingLost.delete (h : NothingLost minAge s) {now : Nat} {rel : Text} {toDelete : List Text}
    (hphase : s.phase = .deleting reachable now (rel :: toDelete)) : NothingLost minAge { s with
      files := s.files.filter fun f => f.rel ≠ rel
      phase := .deleting reachable now toDelete
      lost := if .under rel ∈ s.metadata.reachableFiles then s.lost ++ [rel] else s.lost } := by
  have hspares := h.spares reachable now (rel :: toDelete) (by rw [hphase]; rfl)
  have hkeep : ∀ f ∈ s.files.filter fun f => f.rel ≠ rel, f ∈ s.files := fun f hf => mem_of_mem_filter hf
  refine ⟨fun f hf => h.stored f (hkeep f hf), ?_, h.referenced, fun reachable' now' toDelete' haged => ?_, ?_⟩
  · exact h.distinct.sublist (filter_sublist.map StoredFile.rel)
  · cases haged
    exact ⟨fun f hf => hspares.young f (hkeep f hf), fun path hpath => hspares.unreferenced path (mem_cons_of_mem _ hpath),
      fun path hpath f hf => hspares.old path (mem_cons_of_mem _ hpath) f (hkeep f hf)⟩
  · change (if .under rel ∈ s.metadata.reachableFiles then s.lost ++ [rel] else s.lost) = []
    rw [if_neg (hspares.unreferenced rel mem_cons_self).2.2]
    exact h.lost

theorem NothingLost.step {a : Action} (h : NothingLost minAge s) (hyoung : YoungAtClock minAge s a)
    (hstep : OrphanGc.step minAge s a = some s') : NothingLost minAge s' := by
  cases a with
  | tick elapsed =>
    cases hstep
    refine { h with spares := fun reachable now toDelete haged => ?_ }
    have hspares := h.spares reachable now toDelete haged
    exact { hspares with }
  | write rel =>
    obtain ⟨hnew, rfl⟩ := Option.ite_some_none_eq_some.mp hstep
    exact h.write hnew
  | commit metadata =>
    obtain ⟨hadmits, rfl⟩ := Option.ite_some_none_eq_some.mp hstep
    exact h.commit hadmits hyoung
  | reach =>
    obtain ⟨_, rfl⟩ := Option.ite_some_none_eq_some.mp hstep
    exact h.setPhase _ fun reachable now toDelete haged => by cases haged
  | readClock =>
    simp only [OrphanGc.step] at hstep
    split at hstep
    · rename_i reachable hphase
      cases hstep
      refine h.setPhase _ fun reachable' now toDelete haged => ?_
      cases haged
      have hreached : reachable ∈ s.phase.reached? := by rw [hphase]; rfl
      exact ⟨hyoung reachable hreached, fun rel hrel => absurd hrel not_mem_nil, fun rel hrel => absurd hrel not_mem_nil⟩
    · cases hstep
  | visit file known =>
    simp only [OrphanGc.step] at hstep
    split at hstep
    · rename_i reachable now toDelete hphase
      obtain ⟨f, hf, heq⟩ := Option.map_eq_some_iff.mp hstep
      have hspares := h.spares reachable now toDelete (by rw [hphase]; rfl)
      by_cases hmark : Marks minAge reachable now f known
      · rw [if_pos hmark] at heq
        subst heq
        refine h.setPhase _ fun reachable' now' toDelete' haged => ?_
        cases haged
        exact hspares.mark h (mem_of_getElem? hf) hmark
      · rw [if_neg hmark] at heq
        exact heq ▸ h
    · cases hstep
  | listed =>
    simp only [OrphanGc.step] at hstep
    split at hstep
    · rename_i reachable now toDelete hphase
      cases hstep
      refine h.setPhase _ fun reachable' now' toDelete' haged => ?_
      cases haged
      exact h.spares reachable now toDelete (by rw [hphase]; rfl)
    · cases hstep
  | delete =>
    simp only [OrphanGc.step] at hstep
    split at hstep
    · rename_i reachable now rel toDelete hphase
      cases hstep
      exact h.delete hphase
    · cases hstep
  | stop =>
    cases hstep
    exact h.setPhase _ fun reachable now toDelete haged => by cases haged

/-! ## The collection -/

/-- In every interleaving of writers and runs of the collector in which every file that comes to be referenced after a run has
read the reachable files is too young at its reading of the clock, no file is deleted while the table references it. -/
theorem referenced_files_kept {minAge : Nat} {as : List Action} {s : State} (hrun : run (step minAge) .init as = some s)
    (hmeets : Meets (step minAge) (YoungAtClock minAge) .init as) : s.lost = [] :=
  (Transition.invariant_run (I := NothingLost minAge) (fun _ _ _ h hyoung hstep => h.step hyoung hstep) nothingLost_init hmeets
    hrun).lost

/-- A snapshot with one manifest that lists the alive data file and one that another snapshot removed. -/
def oneFile (added removed : Text) : TableMetadata :=
  ⟨[⟨.under "metadata/snap.avro".toList, [⟨.under "metadata/m.avro".toList,
    [(.added, .under added), (.deleted, .under removed)]⟩]⟩], []⟩

def minute : Nat := 60000000000

/-- A writer commits its young files after the run has read the reachable ones and before it reads the clock. -/
def committedYoung : List Action :=
  [.write "data/left.parquet".toList, .tick 59500000000, .write "data/new.parquet".toList, .write "metadata/m.avro".toList,
    .write "metadata/snap.avro".toList, .reach,
    .commit (oneFile "data/new.parquet".toList "data/left.parquet".toList), .tick 500000000, .readClock,
    .visit 0 true, .visit 1 true, .visit 2 true, .visit 3 true, .listed, .delete, .stop]

/-- The left-over file is collected and the referenced ones are kept. -/
theorem leftover_collected :
    ∃ s, run (step minute) .init committedYoung = some s ∧ s.files.map StoredFile.rel =
      ["data/new.parquet".toList, "metadata/m.avro".toList, "metadata/snap.avro".toList] ∧ s.lost = [] := by
  have hend : (run (step minute) .init committedYoung).map (fun s => s.files.map StoredFile.rel) =
      some ["data/new.parquet".toList, "metadata/m.avro".toList, "metadata/snap.avro".toList] := by decide +kernel
  have hmeets : Meets (step minute) (YoungAtClock minute) .init committedYoung := by decide +kernel
  obtain ⟨s, hs, hfiles⟩ := Option.map_eq_some_iff.mp hend
  exact ⟨s, hs, hfiles, referenced_files_kept hs hmeets⟩

def committedBeforeClock : List Action :=
  [.write "data/new.parquet".toList, .tick 59000000000, .write "metadata/m.avro".toList, .write "metadata/snap.avro".toList,
    .reach, .tick 500000000, .commit (oneFile "data/new.parquet".toList "data/left.parquet".toList),
    .tick 500000000, .readClock, .visit 0 true, .listed, .delete]

def committedAfterClock : List Action :=
  [.tick 900000000, .write "data/new.parquet".toList, .tick 59100000000, .write "metadata/m.avro".toList,
    .write "metadata/snap.avro".toList, .reach, .readClock, .visit 0 true, .tick 500000000,
    .commit (oneFile "data/new.parquet".toList "data/left.parquet".toList), .listed, .delete]

/-- In both runs every writer commits less than a minute after the file's last modification, and the collector deletes a file that
the current snapshot references. -/
theorem referenced_file_deleted :
    Meets (step minute) (CommitsInTime minute) .init committedBeforeClock ∧
    (run (step minute) .init committedBeforeClock).map (fun s => (s.metadata.reachableFiles, s.lost)) =
      some ([.under "metadata/snap.avro".toList, .under "metadata/m.avro".toList, .under "data/new.parquet".toList],
        ["data/new.parquet".toList]) ∧
    Meets (step minute) (CommitsInTime minute) .init committedAfterClock ∧
    (run (step minute) .init committedAfterClock).map (fun s => (s.metadata.reachableFiles, s.lost)) =
      some ([.under "metadata/snap.avro".toList, .under "metadata/m.avro".toList, .under "data/new.parquet".toList],
        ["data/new.parquet".toList]) := by
  decide +kernel

end LogLake.OrphanGc
