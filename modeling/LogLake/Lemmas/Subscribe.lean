import LogLake.Lib.AssocList
import LogLake.Subscribe

/-! # Walks, reads and histories -/

namespace LogLake.Subscribe

open List Commit
open Option (ite_none_right_eq_some map_eq_some_iff bind_eq_some_iff)

open Iceberg AssocList

variable {ρ : Type}

/-! ## The walk -/

section Walk

variable {σ : Type} {id : σ → Int} {parent : σ → Option Int} {lookup : Int → Option σ}

theorem not_mem_seen_cons {m : σ} {later rest : List σ} {seen : List Int} (hnodup : ((m :: later ++ rest).map id).Nodup)
    (hseen : ∀ m' ∈ m :: later, id m' ∉ seen) : ∀ m' ∈ later, id m' ∉ id m :: seen := by
  intro m' hm'
  rw [mem_cons, not_or]
  refine ⟨?_, hseen m' (mem_cons_of_mem _ hm')⟩
  intro heq
  exact (nodup_cons.mp hnodup).1 (mem_map.mpr ⟨m', mem_append_left _ hm', heq⟩)

/-- The walk reaches a cursor among the ancestors that are there. -/
theorem walkFrom_reached {cursor : σ} {older : List σ} {node : σ} {acc : List σ} {seen : List Int} {fuel : Nat}
    (hchain : (node :: older ++ [cursor]).IsChain fun n m => parent n = some (id m))
    (hnodup : ((node :: older ++ [cursor]).map id).Nodup) (hseen : ∀ m ∈ older, id m ∉ seen)
    (hlookup : ∀ m ∈ older, lookup (id m) = some m) (hfuel : older.length < fuel) :
    walkFrom id parent lookup (id cursor) fuel node acc seen = some (.reached (acc ++ node :: older)) := by
  induction older generalizing node acc seen fuel with
  | nil =>
    obtain ⟨fuel, rfl⟩ := Nat.exists_eq_add_of_lt hfuel
    have hparent : parent node = some (id cursor) := (isChain_cons_cons.mp hchain).1
    have hne : id node ≠ id cursor := by
      intro heq
      simp [heq] at hnodup
    simp [walkFrom, hparent, hne]
  | cons m older ih =>
    obtain ⟨fuel, rfl⟩ : ∃ k, fuel = k + 1 := ⟨fuel - 1, by simp only [length_cons] at hfuel; omega⟩
    obtain ⟨hparent, hchain⟩ := isChain_cons_cons.mp hchain
    obtain ⟨hnode, hnodup⟩ := nodup_cons.mp hnodup
    have hcursor : id node ≠ id cursor := by
      intro heq
      exact hnode (by simp [heq])
    have hm : id m ≠ id cursor := by
      intro heq
      exact (nodup_cons.mp hnodup).1 (by simp [heq])
    rw [walkFrom, if_neg hcursor, hparent]
    simp only [if_neg hm, if_neg (hseen m mem_cons_self), hlookup m mem_cons_self]
    rw [ih hchain hnodup (not_mem_seen_cons hnodup hseen) (fun m' hm' => hlookup m' (mem_cons_of_mem _ hm'))
      (by simp only [length_cons] at hfuel; omega), append_assoc, singleton_append]

/-- The walk ends at the first ancestor that is not there. -/
theorem walkFrom_gap {lost : σ} {found : List σ} {node : σ} {acc : List σ} {seen : List Int} {fuel : Nat} {cursorSnap : Int}
    (hchain : (node :: found ++ [lost]).IsChain fun n m => parent n = some (id m))
    (hnodup : ((node :: found ++ [lost]).map id).Nodup) (hcursor : cursorSnap ∉ (node :: found ++ [lost]).map id)
    (hseen : ∀ m ∈ found, id m ∉ seen) (hlookup : ∀ m ∈ found, lookup (id m) = some m)
    (hlost : lookup (id lost) = none) (hfuel : found.length < fuel) :
    ∃ child, walkFrom id parent lookup cursorSnap fuel node acc seen = some (.gap (id lost) child) := by
  induction found generalizing node acc seen fuel with
  | nil =>
    obtain ⟨fuel, rfl⟩ := Nat.exists_eq_add_of_lt hfuel
    have hparent : parent node = some (id lost) := (isChain_cons_cons.mp hchain).1
    simp only [nil_append, cons_append, map_cons, map_nil, mem_cons, not_mem_nil, or_false, not_or] at hcursor
    refine ⟨id node, ?_⟩
    simp [walkFrom, hparent, Ne.symm hcursor.1, Ne.symm hcursor.2, hlost]
  | cons m found ih =>
    obtain ⟨fuel, rfl⟩ : ∃ k, fuel = k + 1 := ⟨fuel - 1, by simp only [length_cons] at hfuel; omega⟩
    obtain ⟨hparent, hchain⟩ := isChain_cons_cons.mp hchain
    obtain ⟨hnode, hnodup⟩ := nodup_cons.mp hnodup
    rw [cons_append, map_cons, mem_cons, not_or] at hcursor
    have hm : id m ≠ cursorSnap := by
      intro heq
      exact hcursor.2 (by simp [heq])
    rw [walkFrom, if_neg (Ne.symm hcursor.1), hparent]
    simp only [if_neg hm, if_neg (hseen m mem_cons_self), hlookup m mem_cons_self]
    exact ih hchain hnodup hcursor.2 (not_mem_seen_cons hnodup hseen) (fun m' hm' => hlookup m' (mem_cons_of_mem _ hm'))
      (by simp only [length_cons] at hfuel; omega)

theorem walkFrom_isSome (ids : List Int) (hids : ∀ pid s, lookup pid = some s → pid ∈ ids) (cursorSnap : Int) :
    ∀ fuel node acc seen, (ids.filter fun i => i ∉ seen).length < fuel →
      (walkFrom id parent lookup cursorSnap fuel node acc seen).isSome
  | 0, _, _, _, h => absurd h (Nat.not_lt_zero _)
  | fuel + 1, node, acc, seen, h => by
    rw [walkFrom]
    split
    · rfl
    split
    · rfl
    split
    · rfl
    split
    · rfl
    split
    next pid _ _ hunseen _ s hs =>
      apply walkFrom_isSome ids hids
      have hlt : (ids.filter fun i => i ∉ pid :: seen).length < (ids.filter fun i => i ∉ seen).length := by
        have hsub : (ids.filter fun i => i ∉ pid :: seen) = (ids.filter fun i => i ∉ seen).filter fun i => i ≠ pid := by
          rw [filter_filter]
          apply filter_congr
          intro i _
          simp [not_or]
        rw [hsub]
        apply length_filter_lt_length_iff_exists.mpr
        exact ⟨pid, mem_filter.mpr ⟨hids pid s hs, by simpa using hunseen⟩, by simp⟩
      omega
    · rfl

end Walk

theorem walkAncestry_fuel (t : TableMetadata ρ) (current : Snapshot ρ) (cursorSnap : Int) :
    (walkFrom Snapshot.id Snapshot.parent t.snapshotById cursorSnap (t.snapshots.length + 1) current [] []).isSome := by
  apply walkFrom_isSome (t.snapshots.map Snapshot.id)
  · intro pid s hs
    have hid := List.find?_some hs
    exact mem_map.mpr ⟨s, mem_of_find?_eq_some hs, by simpa using hid⟩
  · refine lt_of_le_of_lt (length_filter_le _ _) ?_
    rw [length_map]
    exact Nat.lt_succ_self _

/-! ## Reads -/

def manifestFilesAdded (snapshotId : Int) (m : ManifestFile ρ) : List (DataFile ρ) :=
  if m.addedSnapshotId ≠ snapshotId then []
  else if m.content ≠ .data then []
  else (m.entries.filter fun e => e.status = .added && e.file.content = .data).map ManifestEntry.file

/-- The files of a snapshot that a subscription delivers. -/
def addedFiles (s : Snapshot ρ) : List (DataFile ρ) :=
  if (classifyCommit s.summary).deliversAddedFiles then s.manifests.flatMap (manifestFilesAdded s.id) else []

variable {reads : Reads ρ} {m : ManifestFile ρ} {files : List (DataFile ρ)} {id : Int}

theorem manifestTasks_eq (h : manifestTasks reads id m = some files) : files = manifestFilesAdded id m := by
  unfold manifestTasks at h
  unfold manifestFilesAdded
  split at h
  · next hne => rw [if_pos hne, ← Option.some.inj h]
  · next hne =>
    rw [if_neg hne]
    split at h
    · next hcontent => rw [if_pos hcontent, ← Option.some.inj h]
    · next hcontent =>
      rw [if_neg hcontent]
      obtain ⟨-, h⟩ := ite_none_right_eq_some.mp h
      exact (Option.some.inj h).symm

theorem snapshotTasks_eq {s : Snapshot ρ} (h : snapshotTasks reads s = some files) : files = addedFiles s := by
  unfold snapshotTasks at h
  unfold addedFiles
  split at h
  · next hkind =>
    obtain ⟨-, h⟩ := ite_none_right_eq_some.mp h
    obtain ⟨lists, hlists, rfl⟩ := map_eq_some_iff.mp h
    rw [mapM_eq_map (fun _ _ hm => manifestTasks_eq hm) hlists, if_pos hkind, flatMap_def]
  · next hkind => rw [if_neg hkind, ← Option.some.inj h]

variable {rows : List ρ}

/-- The rows read are those of the files the snapshots added. -/
theorem readAdded_eq {snapshots : List (Snapshot ρ)} (h : readAdded reads snapshots = some rows) :
    rows = snapshots.flatMap fun s => (addedFiles s).flatMap DataFile.rows := by
  obtain ⟨tasks, htasks, h⟩ := bind_eq_some_iff.mp h
  obtain ⟨lists, hlists, rfl⟩ := map_eq_some_iff.mp h
  rw [mapM_eq_map (fun a b hab => snapshotTasks_eq hab) htasks] at hlists
  have hrows : lists = _ := mapM_eq_map (g := DataFile.rows) ?_ hlists
  · rw [hrows, ← flatMap_def, ← flatMap_def, flatMap_assoc]
  · intro f rows hf
    obtain ⟨-, hf⟩ := ite_none_right_eq_some.mp hf
    exact (Option.some.inj hf).symm

theorem mapM_isSome {α β : Type} {f : α → Option β} (hf : ∀ a, (f a).isSome) (l : List α) : (l.mapM f).isSome := by
  induction l with
  | nil => rfl
  | cons a l ih =>
    obtain ⟨b, hb⟩ := Option.isSome_iff_exists.mp (hf a)
    obtain ⟨bs, hbs⟩ := Option.isSome_iff_exists.mp ih
    simp [mapM_cons, hb, hbs]

structure Reads.AllSucceed (reads : Reads ρ) : Prop where
  manifestList : ∀ s, reads.manifestList s = true
  manifest : ∀ m, reads.manifest m = true
  dataFile : ∀ f, reads.dataFile f = true
  scan : reads.scan = true

theorem snapshotTasks_isSome (h : reads.AllSucceed) (s : Snapshot ρ) : (snapshotTasks reads s).isSome := by
  have hmanifests : ∀ m, (manifestTasks reads s.id m).isSome := by
    intro m
    unfold manifestTasks
    simp only [h.manifest m, if_true]
    split
    · rfl
    split <;> rfl
  unfold snapshotTasks
  split
  · simpa only [h.manifestList s, if_true, Option.isSome_map] using mapM_isSome hmanifests s.manifests
  · rfl

theorem readAdded_isSome (h : reads.AllSucceed) (snapshots : List (Snapshot ρ)) : (readAdded reads snapshots).isSome := by
  obtain ⟨tasks, htasks⟩ := Option.isSome_iff_exists.mp (mapM_isSome (snapshotTasks_isSome h) snapshots)
  have hfiles : ∀ f, (readFile reads f).isSome := fun f => by simp [readFile, h.dataFile f]
  rw [readAdded, htasks, Option.bind_some, Option.isSome_map]
  exact mapM_isSome hfiles _

/-! ## Histories -/

/-- A history: ids are never drawn twice, every commit is a child of the one before it, a manifest names a snapshot of the
history, and what a subscription reads of a commit is what it appended. -/
structure History (commits : List (Commit ρ)) : Prop where
  nodup : (commits.map fun c => c.snapshot.id).Nodup
  linked : commits.IsChain fun c d => d.snapshot.parent = some c.snapshot.id
  manifests : ∀ c ∈ commits, ∀ m ∈ c.snapshot.manifests, m.addedSnapshotId ∈ commits.map fun c => c.snapshot.id
  appended : ∀ c ∈ commits, (addedFiles c.snapshot).flatMap DataFile.rows = c.appended

theorem history_nil : History ([] : List (Commit ρ)) :=
  ⟨nodup_nil, .nil, fun _ h => (nomatch h), fun _ h => (nomatch h)⟩

/-- The metadata of a table after the commits `past`: the snapshots of the last of them are retained. -/
def Generation (past : List (Commit ρ)) (t : TableMetadata ρ) : Prop :=
  ∃ gone kept, past = gone ++ kept ∧ t.snapshots = kept.map snapshot ∧
    t.currentSnapshotId = kept.getLast?.map (fun c => c.snapshot.id) ∧ (kept = [] → gone = [])

variable {past : List (Commit ρ)} {t : TableMetadata ρ}

theorem Generation.current (h : Generation past t) : t.currentSnapshotId = past.getLast?.map fun c => c.snapshot.id := by
  obtain ⟨gone, kept, rfl, -, hcurrent, hempty⟩ := h
  rcases kept.eq_nil_or_concat with rfl | ⟨kept, c, rfl⟩
  · rw [hempty rfl]
    exact hcurrent
  · rw [hcurrent, concat_eq_append, ← append_assoc, List.getLast?_concat, List.getLast?_concat]

variable {commits kept : List (Commit ρ)}

theorem snapshotById_of_mem (hnodup : (commits.map fun c => c.snapshot.id).Nodup) (hsub : kept.Sublist commits)
    (hkept : t.snapshots = kept.map snapshot) {c : Commit ρ} (hc : c ∈ kept) :
    t.snapshotById c.snapshot.id = some c.snapshot := by
  have hnodup' : (kept.map fun c => c.snapshot.id).Nodup := hnodup.sublist (hsub.map _)
  unfold TableMetadata.snapshotById
  rw [hkept]
  clear hkept hsub hnodup
  induction kept with
  | nil => nomatch hc
  | cons d kept ih =>
    obtain ⟨hd, hnodup'⟩ := nodup_cons.mp hnodup'
    rw [map_cons, List.find?_cons]
    rcases mem_cons.mp hc with rfl | hc
    · simp
    · have hne : d.snapshot.id ≠ c.snapshot.id := fun heq => hd (mem_map.mpr ⟨c, hc, heq.symm⟩)
      simp only [hne, decide_false]
      exact ih hc hnodup'

theorem snapshotById_eq_none (h : ∀ s ∈ t.snapshots, s.id ≠ id) : t.snapshotById id = none := by
  rw [TableMetadata.snapshotById, List.find?_eq_none]
  intro s hs
  simpa using h s hs

variable {last : Commit ρ}

theorem Generation.currentSnapshot (h : Generation past t)
    (hnodup : (past.map fun c => c.snapshot.id).Nodup) (hlast : past.getLast? = some last) :
    t.currentSnapshot = some last.snapshot := by
  have hcurrent := h.current
  obtain ⟨gone, kept, rfl, hkept, -, hempty⟩ := h
  rw [hlast] at hcurrent
  have hmem : last ∈ kept := by
    rcases kept.eq_nil_or_concat with rfl | ⟨kept, c, rfl⟩
    · rw [hempty rfl] at hlast
      nomatch hlast
    · rw [concat_eq_append, ← append_assoc, List.getLast?_concat, Option.some.injEq] at hlast
      rw [← hlast]
      simp
  rw [TableMetadata.currentSnapshot, hcurrent]
  exact snapshotById_of_mem hnodup (sublist_append_right _ _) hkept hmem

/-! ## Commits keep the history -/

theorem Generation.manifests (h : Generation commits t)
    (hhistory : History commits) {s : Snapshot ρ} (hs : t.currentSnapshot = some s)
    (hm : m ∈ s.manifests) : m.addedSnapshotId ∈ commits.map fun c => c.snapshot.id := by
  obtain ⟨id, -, hfind⟩ := bind_eq_some_iff.mp hs
  obtain ⟨gone, kept, rfl, hkept, -⟩ := h
  have hmem := mem_of_find?_eq_some hfind
  rw [hkept] at hmem
  obtain ⟨c, hc, rfl⟩ := mem_map.mp hmem
  exact hhistory.manifests c (mem_append_right _ hc) m hm

variable {operation : Operation} {properties : List (String × String)} {added : List (DataFile ρ)} {removed : List Nat}
variable {manifests : List (ManifestFile ρ)}

theorem mem_manifestFiles (h : t.manifestFiles id operation properties added removed = some manifests) (hm : m ∈ manifests) :
    m.addedSnapshotId = id ∨ ∃ s, t.currentSnapshot = some s ∧ m ∈ s.manifests := by
  obtain ⟨-, h⟩ := Option.ite_none_left_eq_some.mp h
  obtain ⟨existing, hexisting, rfl⟩ := map_eq_some_iff.mp h
  rcases mem_append.mp hm with hm | hm
  · split at hexisting
    · cases hexisting
      rw [TableMetadata.existingManifests] at hm
      rcases hs : t.currentSnapshot with _ | s
      · rw [hs] at hm
        nomatch hm
      · rw [hs] at hm
        exact Or.inr ⟨s, rfl, (mem_filter.mp hm).1⟩
    · obtain ⟨s, hs, h⟩ := bind_eq_some_iff.mp hexisting
      obtain ⟨-, rfl⟩ := Option.ite_some_none_eq_some.mp h
      obtain ⟨m₀, hm₀, hm⟩ := mem_flatMap.mp hm
      split at hm
      · rw [mem_singleton.mp hm]
        exact Or.inl rfl
      · split at hm
        · rw [mem_singleton.mp hm]
          exact Or.inr ⟨s, hs, hm₀⟩
        · nomatch hm
  · split at hm
    · nomatch hm
    · rw [mem_singleton.mp hm]
      exact Or.inl rfl

/-- An append adds its files and no others. -/
theorem addedFiles_append (hgen : Generation commits t)
    (hhistory : History commits) (hfresh : id ∉ commits.map fun c => c.snapshot.id) (hcontent : ∀ f ∈ files, f.content = .data)
    (h : t.manifestFiles id .append properties files [] = some manifests)
    (parent : Option Int) : addedFiles ⟨id, parent, ⟨.append, properties⟩, manifests⟩ = files := by
  obtain ⟨-, h⟩ := Option.ite_none_left_eq_some.mp h
  obtain ⟨existing, hexisting, rfl⟩ := map_eq_some_iff.mp h
  obtain rfl : t.existingManifests .append = existing := Option.some.inj hexisting
  have hcarried : (t.existingManifests .append).flatMap (manifestFilesAdded id) = [] := by
    rw [flatMap_eq_nil_iff]
    intro m hm
    rw [TableMetadata.existingManifests] at hm
    rcases hs : t.currentSnapshot with _ | s
    · rw [hs] at hm
      nomatch hm
    · rw [hs] at hm
      have hin := hgen.manifests hhistory hs (mem_filter.mp hm).1
      have hne : m.addedSnapshotId ≠ id := fun heq => hfresh (heq ▸ hin)
      rw [manifestFilesAdded, if_pos hne]
  have hadded : manifestFilesAdded id (addedManifest id files) = files := by
    rw [manifestFilesAdded, if_neg (by simp [addedManifest]), if_neg (by simp [addedManifest]), addedManifest]
    rw [filter_eq_self.mpr]
    · simp [Function.comp_def]
    · intro e he
      obtain ⟨f, hf, rfl⟩ := mem_map.mp he
      simp [hcontent f hf]
  show (t.existingManifests .append ++ _).flatMap (manifestFilesAdded id) = files
  rw [flatMap_append, hcarried, nil_append]
  split
  · next hempty => rw [isEmpty_iff.mp hempty, flatMap_nil]
  · rw [flatMap_singleton, hadded]

/-- A commit to the current table extends the history. -/
theorem History.commit {t' : TableMetadata ρ} (hhistory : History commits)
    (hgen : Generation commits t) (hfresh : id ∉ commits.map fun c => c.snapshot.id)
    (h : t.commit id operation properties added removed = some t')
    (hrows : ∀ manifests, t.manifestFiles id operation properties added removed = some manifests →
      (∀ f ∈ added, f.content = .data) →
      (addedFiles ⟨id, t.currentSnapshotId, ⟨operation, properties⟩, manifests⟩).flatMap DataFile.rows = rows) :
    ∃ s, t'.snapshots.getLast? = some s ∧ History (commits ++ [⟨s, rows⟩]) ∧ Generation (commits ++ [⟨s, rows⟩]) t' := by
  obtain ⟨hguard, h⟩ := ite_none_right_eq_some.mp h
  obtain ⟨manifests, hmanifests, rfl⟩ := map_eq_some_iff.mp h
  have hcontent : ∀ f ∈ added, f.content = .data := by
    intro f hf
    simp only [Bool.and_eq_true, all_eq_true] at hguard
    exact of_decide_eq_true (hguard.1 f hf)
  refine ⟨_, List.getLast?_concat, ⟨?_, ?_, ?_, ?_⟩, ?_⟩
  · rw [map_append, nodup_append]
    refine ⟨hhistory.nodup, by simp, ?_⟩
    intro i hi j hj
    rw [mem_singleton.mp hj]
    rintro rfl
    exact hfresh hi
  · rw [isChain_append]
    refine ⟨hhistory.linked, .singleton _, ?_⟩
    intro c hc d hd
    rw [List.head?_cons, Option.mem_some_iff] at hd
    rw [← hd]
    show t.currentSnapshotId = _
    rw [hgen.current, Option.mem_def.mp hc]
    rfl
  · intro c hc m hm
    rw [map_append, mem_append]
    rcases mem_append.mp hc with hc | hc
    · exact Or.inl (hhistory.manifests c hc m hm)
    · rw [mem_singleton.mp hc] at hm
      rcases mem_manifestFiles hmanifests hm with hid | ⟨s, hs, hm⟩
      · exact Or.inr (by simp [hid])
      · exact Or.inl (hgen.manifests hhistory hs hm)
  · intro c hc
    rcases mem_append.mp hc with hc | hc
    · exact hhistory.appended c hc
    · rw [mem_singleton.mp hc]
      exact hrows manifests hmanifests hcontent
  · obtain ⟨gone, kept, rfl, hkept, _, _⟩ := hgen
    refine ⟨gone, kept ++ [_], append_assoc _ _ _, ?_, ?_, ?_⟩
    · rw [map_append, ← hkept]
      rfl
    · rw [List.getLast?_concat]
      rfl
    · intro h'
      exact absurd h' (by simp)

/-- An expiry leaves a table of the same history. -/
theorem Generation.expire {t' : TableMetadata ρ} {n : Nat} (hgen : Generation past t)
    (h : t.expire n = some t') : Generation past t' := by
  obtain ⟨hn, rfl⟩ := Option.ite_some_none_eq_some.mp h
  obtain ⟨gone, kept, rfl, hkept, hcurrent, -⟩ := hgen
  rw [hkept, length_map] at hn
  refine ⟨gone ++ kept.take n, kept.drop n, ?_, ?_, ?_, ?_⟩
  · rw [append_assoc, take_append_drop]
  · show t.snapshots.drop n = _
    rw [hkept, map_drop]
  · show t.currentSnapshotId = _
    rw [hcurrent, List.getLast?_drop, if_neg (by omega)]
  · intro hnil
    rw [drop_eq_nil_iff] at hnil
    omega

/-! ## Polls -/

/-- The rows that the commits of `mid` appended, and rows delivered again, all of appends in `later`; none of those when each row is
delivered exactly once. -/
def Delivered (exact : Prop) (later mid : List (Commit ρ)) (rows : List ρ) : Prop :=
  ∃ again, rows.Perm (mid.flatMap appended ++ again) ∧ again ⊆ later.flatMap appended ∧ (exact → again = [])

variable {exact : Prop} {later mid : List (Commit ρ)}

theorem appended_subset {l l' : List (Commit ρ)} (h : l ⊆ l') : l.flatMap appended ⊆ l'.flatMap appended := by
  intro row hrow
  obtain ⟨d, hd, hrow⟩ := mem_flatMap.mp hrow
  exact mem_flatMap.mpr ⟨d, h hd, hrow⟩

/-- What a poll returns is added to the account. -/
theorem Delivered.append {more : List (Commit ρ)} {new : List ρ} (h : Delivered exact later mid rows)
    (hnew : new.Perm (more.flatMap appended)) : Delivered exact later (mid ++ more) (rows ++ new) := by
  obtain ⟨again, hrows, hagain⟩ := h
  refine ⟨again, ?_, hagain⟩
  rw [flatMap_append, append_assoc]
  exact (hrows.append hnew).trans (by rw [append_assoc]; exact perm_append_comm.append_left _)

/-- Going back to an earlier commit, the rows since then will be delivered again. -/
theorem Delivered.back {mid' : List (Commit ρ)} (h : Delivered exact later mid rows) (hback : mid' <+: mid)
    (hlater : mid ⊆ later) : Delivered False later mid' rows := by
  obtain ⟨more, rfl⟩ := hback
  obtain ⟨again, hrows, hagain, -⟩ := h
  refine ⟨more.flatMap appended ++ again, ?_, append_subset.mpr ⟨?_, hagain⟩, False.elim⟩
  · rwa [flatMap_append, append_assoc] at hrows
  · exact appended_subset fun _ h => hlater (mem_append_right _ h)

/-- The account of a consumer: it started at a commit `b` of the past, the rows delivered since then are those that the commits
after `b` up to its cursor appended, and some again; and the cursors it persisted are at one of these commits. -/
structure Account (exact : Prop) (past : List (Commit ρ)) (persisted : Subscription) (consumer : Consumer ρ) : Prop where
  unstarted : consumer.subscription.cursorSnapshotId = none → persisted.cursorSnapshotId = none
  delivered : ∀ c, consumer.subscription.cursorSnapshotId = some c →
    ∃ before b mid last, before ++ b :: mid <+: past ∧ consumer.start = some b.snapshot.id ∧
      (b :: mid).getLast? = some last ∧ last.snapshot.id = c ∧
      Delivered exact (past.drop (before.length + 1)) mid consumer.delivered ∧
      ∀ p, persisted.cursorSnapshotId = some p →
        ∃ mid' last', mid' <+: mid ∧ (b :: mid').getLast? = some last' ∧ last'.snapshot.id = p

variable {consumer : Consumer ρ} {persisted : Subscription}

theorem Account.mono {past' : List (Commit ρ)} (h : Account exact past persisted consumer)
    (hpast : past <+: past') : Account exact past' persisted consumer := by
  refine ⟨h.unstarted, fun c hc => ?_⟩
  obtain ⟨before, b, mid, last, hprefix, hstart, hlast, hid, ⟨again, hrows, hagain, hexact⟩, hpersisted⟩ := h.delivered c hc
  refine ⟨before, b, mid, last, hprefix.trans hpast, hstart, hlast, hid, ⟨again, hrows, ?_, hexact⟩, hpersisted⟩
  exact List.Subset.trans hagain (appended_subset (hpast.drop _).subset)

/-- A consumer that comes back at the persisted cursors. -/
theorem Account.restart (h : Account exact past persisted consumer) :
    Account False past persisted { consumer with subscription := persisted } := by
  refine ⟨id, fun p hp => ?_⟩
  obtain ⟨c, hc⟩ := Option.ne_none_iff_exists'.mp fun hnone => by
    rw [h.unstarted hnone] at hp
    nomatch hp
  obtain ⟨before, b, mid, last, hprefix, hstart, hlast, hid, hrows, hpersisted⟩ := h.delivered c hc
  obtain ⟨mid', last', hback, hlast', hid'⟩ := hpersisted p hp
  have hlater : mid ⊆ past.drop (before.length + 1) := by
    obtain ⟨rest, rfl⟩ := hprefix
    rw [append_assoc, cons_append, ← singleton_append, ← append_assoc, drop_left' (by simp)]
    exact subset_append_left _ _
  refine ⟨before, b, mid', last', ?_, hstart, hlast', hid', hrows.back hback hlater, ?_⟩
  · exact ((prefix_append_right_inj _).mpr ((prefix_cons_inj _).mpr hback)).trans hprefix
  · intro p' hp'
    exact ⟨mid', last', prefix_rfl, hlast', hid'.trans (Option.some.inj (hp.symm.trans hp'))⟩

theorem History.reverse_piece (h : History commits) {l : List (Commit ρ)} {c last : Commit ρ}
    (hpiece : c :: (l ++ [last]) <:+: commits) :
    (last.snapshot :: (l.map snapshot).reverse ++ [c.snapshot]).IsChain (fun n m => n.parent = some m.id) ∧
      ((last.snapshot :: (l.map snapshot).reverse ++ [c.snapshot]).map Snapshot.id).Nodup := by
  have hreverse : ((c :: (l ++ [last])).map snapshot).reverse =
      last.snapshot :: (l.map snapshot).reverse ++ [c.snapshot] := by simp
  rw [← hreverse]
  constructor
  · rw [isChain_reverse, isChain_map]
    exact h.linked.infix hpiece
  · rw [map_reverse, nodup_reverse, map_map]
    exact h.nodup.sublist (hpiece.sublist.map _)

variable {before : List (Commit ρ)} {cursor : Commit ρ}

theorem walkAncestry_reached {after : List (Commit ρ)} (hhistory : History commits)
    (hsplit : commits = before ++ cursor :: (mid ++ [last]) ++ after) (hkept : t.snapshots = kept.map snapshot)
    (hsub : kept.Sublist commits) (hsuffix : mid ++ [last] <:+ kept) :
    walkAncestry t last.snapshot cursor.snapshot.id = .reached ((mid ++ [last]).map snapshot).reverse := by
  obtain ⟨hchain, hnodup⟩ := hhistory.reverse_piece (⟨before, after, hsplit.symm⟩ : cursor :: (mid ++ [last]) <:+: commits)
  have hlength : mid.length < t.snapshots.length + 1 := by
    have hle := hsuffix.length_le
    rw [length_append, length_singleton] at hle
    rw [hkept, length_map]
    omega
  rw [walkAncestry, walkFrom_reached hchain hnodup (fun _ _ => not_mem_nil) ?_ (by simpa using hlength)]
  · simp
  · intro s hs
    obtain ⟨c, hc, rfl⟩ := mem_map.mp (mem_reverse.mp hs)
    exact snapshotById_of_mem hhistory.nodup hsub hkept (hsuffix.subset (mem_append_left _ hc))

theorem walkAncestry_gap {lostBefore after : List (Commit ρ)} {lost : Commit ρ} (hhistory : History commits)
    (hsplit : commits = before ++ cursor :: (lostBefore ++ lost :: (kept ++ [last])) ++ after)
    (hkept : t.snapshots = (kept ++ [last]).map snapshot) :
    ∃ missing child, walkAncestry t last.snapshot cursor.snapshot.id = .gap missing child := by
  have hpiece : lost :: (kept ++ [last]) <:+: commits :=
    ⟨before ++ cursor :: lostBefore, after, by rw [hsplit]; simp⟩
  obtain ⟨hchain, hnodup⟩ := hhistory.reverse_piece hpiece
  -- the cursor comes before all of them
  have hids := hhistory.nodup
  rw [hsplit] at hids
  simp only [map_append, map_cons, append_assoc, cons_append] at hids
  have hcursor : cursor.snapshot.id ∉ (last.snapshot :: (kept.map snapshot).reverse ++ [lost.snapshot]).map Snapshot.id := by
    intro hmem
    refine (nodup_cons.mp (nodup_append.mp hids).2.1).1 ?_
    rw [mem_append]
    right
    simp only [map_cons, map_append, map_reverse, map_map, mem_cons, mem_append, mem_reverse] at hmem ⊢
    tauto
  have hlost : t.snapshotById lost.snapshot.id = none := by
    apply snapshotById_eq_none
    intro s hs heq
    rw [hkept] at hs
    obtain ⟨c, hc, rfl⟩ := mem_map.mp hs
    have hmapped := hhistory.nodup.sublist (hpiece.sublist.map _)
    exact (nodup_cons.mp hmapped).1 (mem_map.mpr ⟨c, hc, heq⟩)
  have hfound : ∀ s ∈ (kept.map snapshot).reverse, t.snapshotById s.id = some s := by
    intro s hs
    obtain ⟨c, hc, rfl⟩ := mem_map.mp (mem_reverse.mp hs)
    exact snapshotById_of_mem hhistory.nodup ((sublist_cons_self _ _).trans hpiece.sublist) hkept
      (mem_append_left _ hc)
  have hfuel : (kept.map snapshot).reverse.length < t.snapshots.length + 1 := by
    rw [hkept]
    simp
  obtain ⟨child, hwalk⟩ : ∃ child, walkFrom Snapshot.id Snapshot.parent t.snapshotById cursor.snapshot.id
      (t.snapshots.length + 1) last.snapshot [] [] = some (.gap lost.snapshot.id child) :=
    walkFrom_gap hchain hnodup hcursor (fun _ _ => not_mem_nil) hfound hlost hfuel
  exact ⟨lost.snapshot.id, child, by rw [walkAncestry, hwalk]; rfl⟩

theorem Generation.after (hgen : Generation past t) (hsplit : past = before ++ cursor :: (mid ++ [last])) :
    (∃ kept, kept.Sublist past ∧ t.snapshots = kept.map snapshot ∧ mid ++ [last] <:+ kept) ∨
      ∃ lostBefore lost kept, mid ++ [last] = lostBefore ++ lost :: (kept ++ [last]) ∧
        t.snapshots = (kept ++ [last]).map snapshot := by
  obtain ⟨gone, kept, rfl, hkept, -, hempty⟩ := hgen
  replace hsplit : gone ++ kept = (before ++ [cursor]) ++ (mid ++ [last]) := by simpa using hsplit
  rcases append_eq_append_iff.mp hsplit with ⟨a, -, hk⟩ | ⟨c, hgone, hmid⟩
  · exact Or.inl ⟨kept, sublist_append_right _ _, hkept, a, hk.symm⟩
  rcases c.eq_nil_or_concat with rfl | ⟨c, lost, rfl⟩
  · exact Or.inl ⟨kept, sublist_append_right _ _, hkept, [], hmid⟩
  · right
    rcases kept.eq_nil_or_concat with rfl | ⟨kept, last', rfl⟩
    · rw [hempty rfl] at hgone
      simp at hgone
    · simp only [concat_eq_append] at hmid hkept
      have hlast : last = last' := by
        have h := congrArg List.getLast? hmid
        rw [← append_assoc, List.getLast?_concat, List.getLast?_concat] at h
        exact Option.some.inj h
      subst hlast
      exact ⟨c, lost, kept, by rw [hmid]; simp, hkept⟩

/-- What a poll from a cursor can come to. -/
theorem pollIncremental_cases (hhistory : History commits) (hpast : past <+: commits) (hgen : Generation past t)
    (hsplit : past = before ++ cursor :: (mid ++ [last])) (sub : Subscription) (reads : Reads ρ) :
    (sub.pollIncremental t reads cursor.snapshot.id =
        (readAdded reads ((mid ++ [last]).map snapshot).reverse).elim (.error .readFailed) .ok ∧
      ∀ c ∈ mid ++ [last], c.snapshot.id ∈ t.snapshots.map Snapshot.id) ∨
    ((∃ gap, sub.pollIncremental t reads cursor.snapshot.id = .error (.historyGap gap)) ∧
      ∃ c ∈ mid ++ [last], c.snapshot.id ∉ t.snapshots.map Snapshot.id) := by
  obtain ⟨after, rfl⟩ := hpast
  have hlast : past.getLast? = some last := by
    rw [hsplit, List.getLast?_append, List.getLast?_cons, List.getLast?_concat]
    rfl
  have hnodup : (past.map fun c => c.snapshot.id).Nodup :=
    hhistory.nodup.sublist ((sublist_append_left _ _).map _)
  have hcurrent := hgen.currentSnapshot hnodup hlast
  rcases hgen.after hsplit with ⟨kept, hsub, hkept, hsuffix⟩ | ⟨lostBefore, lost, kept, hmid, hkept⟩
  · left
    have hwalk := walkAncestry_reached hhistory (by rw [hsplit]) hkept (hsub.trans (sublist_append_left _ _)) hsuffix
    refine ⟨?_, ?_⟩
    · simp only [Subscription.pollIncremental, hcurrent, hwalk]
    · intro c hc
      rw [hkept, map_map]
      exact mem_map.mpr ⟨c, hsuffix.subset hc, rfl⟩
  · right
    have hsplit' : past ++ after = before ++ cursor :: (lostBefore ++ lost :: (kept ++ [last])) ++ after := by
      rw [hsplit, hmid]
    obtain ⟨missing, child, hwalk⟩ := walkAncestry_gap hhistory hsplit' hkept
    refine ⟨⟨⟨sub.tableName, cursor.snapshot.id, last.snapshot.id, missing, child⟩, ?_⟩, lost, ?_, ?_⟩
    · simp only [Subscription.pollIncremental, hcurrent, hwalk]
    · rw [hmid]
      simp
    · rw [hkept, map_map]
      intro hmem
      have hpiece : lost :: (kept ++ [last]) <:+: past ++ after :=
        ⟨before ++ cursor :: lostBefore, after, by rw [hsplit']; simp⟩
      exact (nodup_cons.mp (hhistory.nodup.sublist (hpiece.sublist.map _))).1 hmem

theorem readAdded_commits (hhistory : History commits)
    (hsub : mid ⊆ commits) (h : readAdded reads (mid.map snapshot).reverse = some rows) :
    rows.Perm (mid.flatMap appended) := by
  rw [readAdded_eq h, ← map_reverse, flatMap_map]
  have hcongr : mid.reverse.flatMap (fun c => (addedFiles c.snapshot).flatMap DataFile.rows) =
      mid.reverse.flatMap appended := by
    rw [flatMap_def, flatMap_def]
    congr 1
    apply map_congr_left
    intro c hc
    exact hhistory.appended c (hsub (mem_reverse.mp hc))
  rw [hcongr]
  exact (reverse_perm mid).flatMap_right _

variable (time : ρ → Int)

theorem pollCaptured_error {sub : Subscription} {e : PollError}
    (h : (sub.pollCaptured time t reads).1 = .error e) : (sub.pollCaptured time t reads).2 = sub := by
  have hsettle : ∀ (current : Int) (result : Except PollError (List ρ)),
      (sub.settle time current result).1 = .error e → (sub.settle time current result).2 = sub := by
    intro current result hresult
    cases result with
    | error _ => rfl
    | ok rows => nomatch hresult
  unfold Subscription.pollCaptured at h ⊢
  split at h
  · nomatch h
  · split at h
    · nomatch h
    · next hne =>
      rw [if_neg hne]
      split at h
      · exact hsettle _ _ h
      · exact hsettle _ _ h

/-- A poll adds the rows of the appends it passed. -/
theorem Account.polled
    (hhistory : History commits) (hpast : past <+: commits) (hgen : Generation past t)
    (h : Account exact past persisted consumer) (reads : Reads ρ) :
    Account exact past persisted (consumer.polled (consumer.subscription.pollCaptured time t reads)) := by
  -- a poll that returns nothing and moves nothing
  have hidle : Account exact past persisted (consumer.polled (.ok [], consumer.subscription)) := by
    by_cases hnone : consumer.subscription.cursorSnapshotId = none
    · simp only [Consumer.polled, hnone, if_true]
      refine ⟨fun _ => h.unstarted hnone, fun c hc => ?_⟩
      rw [hnone] at hc
      nomatch hc
    · simp only [Consumer.polled, hnone, if_false, append_nil]
      exact h
  unfold Subscription.pollCaptured
  split
  · exact hidle
  next current hcurrent =>
  split
  · exact hidle
  next hne =>
  rw [hgen.current, map_eq_some_iff] at hcurrent
  obtain ⟨last, hlast, rfl⟩ := hcurrent
  split
  · next c hc =>
    rcases hresult : consumer.subscription.pollIncremental t reads c with e | rows
    · exact h
    obtain ⟨before, b, mid, cursor, hprefix, hstart, hcursor, hcursorId, hdelivered, hpersisted⟩ := h.delivered c hc
    obtain ⟨rest, hrest⟩ := hprefix
    -- the commits after the cursor are not none: the cursor is not at the current snapshot
    rcases rest.eq_nil_or_concat with rfl | ⟨rest, last', rfl⟩
    · rw [append_nil] at hrest
      rw [← hrest, List.getLast?_append, hcursor, Option.some_or, Option.some.injEq] at hlast
      exact absurd (hc.trans (by rw [← hcursorId, hlast])) hne
    rw [concat_eq_append] at hrest
    obtain rfl : last' = last := by
      rw [← hrest, ← append_assoc, List.getLast?_concat] at hlast
      exact Option.some.inj hlast
    obtain ⟨init, hinit⟩ := List.getLast?_eq_some_iff.mp hcursor
    have hsplit : past = (before ++ init) ++ cursor :: (rest ++ [last']) := by
      rw [← hrest, hinit]
      simp
    rcases pollIncremental_cases hhistory hpast hgen hsplit consumer.subscription reads with ⟨hpoll, -⟩ | ⟨⟨gap, hpoll⟩, -⟩
    · rw [hcursorId, hresult] at hpoll
      rcases hread : readAdded reads ((rest ++ [last']).map snapshot).reverse with _ | rows'
      · rw [hread] at hpoll
        nomatch hpoll
      rw [hread] at hpoll
      obtain rfl : rows = rows' := Except.ok.inj hpoll
      have hsub : rest ++ [last'] ⊆ commits := by
        intro d hd
        apply hpast.subset
        rw [hsplit]
        exact mem_append_right _ (mem_cons_of_mem _ hd)
      have hrows := readAdded_commits hhistory hsub hread
      simp only [Subscription.settle, Consumer.polled, hc, reduceCtorEq, if_false]
      refine ⟨fun hnone => (nomatch hnone), fun c' hc' => ?_⟩
      refine ⟨before, b, mid ++ (rest ++ [last']), last', ?_, hstart, ?_, Option.some.inj hc', hdelivered.append hrows, ?_⟩
      · rw [← hrest]
        simp
      · rw [← cons_append, ← append_assoc, List.getLast?_concat]
      · intro p hp
        obtain ⟨mid', last, hback, hlast⟩ := hpersisted p hp
        exact ⟨mid', last, hback.trans (prefix_append _ _), hlast⟩
    · rw [hcursorId, hresult] at hpoll
      nomatch hpoll
  · next hnone =>
    rcases consumer.subscription.pollFullScanFiltered time t reads with e | rows
    · exact h
    · -- the first poll: the account starts at the captured snapshot
      obtain ⟨init, hinit⟩ := List.getLast?_eq_some_iff.mp hlast
      simp only [Subscription.settle, Consumer.polled, hnone, if_true]
      refine ⟨fun hnone => (nomatch hnone), fun c hc => ?_⟩
      refine ⟨init, last, [], last, ?_, rfl, rfl, Option.some.inj hc, ⟨[], .refl _, nil_subset _, fun _ => rfl⟩, ?_⟩
      · rw [hinit]
      · intro p hp
        rw [h.unstarted hnone] at hp
        nomatch hp

/-! ## Runs -/

/-- The history, the table, the poll in progress and the consumer fit together. -/
structure Consistent (exact : Prop) (s : State ρ) : Prop where
  history : History s.commits
  table : Generation s.commits s.table
  consumer : Account exact s.commits s.persisted s.consumer
  captured : ∀ t, s.captured = some t →
    ∃ past, past <+: s.commits ∧ Generation past t ∧ Account exact past s.persisted s.consumer

theorem consistent_init (exact : Prop) (tableName : String) (since : Int) :
    Consistent exact (State.init tableName since : State ρ) :=
  ⟨history_nil, ⟨[], [], rfl, rfl, rfl, fun _ => rfl⟩, ⟨fun _ => rfl, fun _ h => (nomatch h)⟩, fun _ h => (nomatch h)⟩

/-- A commit keeps what the consumer was given. -/
theorem Consistent.commit {s s' : State ρ} (hs : Consistent exact s)
    (hrows : id ∉ (s.commits.map fun c => c.snapshot.id) → ∀ manifests,
      s.table.manifestFiles id operation properties added removed = some manifests → (∀ f ∈ added, f.content = .data) →
      (addedFiles ⟨id, s.table.currentSnapshotId, ⟨operation, properties⟩, manifests⟩).flatMap DataFile.rows = rows)
    (h : s.committed id rows (s.table.commit id operation properties added removed) = some s') : Consistent exact s' := by
  obtain ⟨hguard, h⟩ := ite_none_right_eq_some.mp h
  obtain ⟨table, htable, h⟩ := bind_eq_some_iff.mp h
  have hfresh : id ∉ s.commits.map fun c => c.snapshot.id := by
    intro hmem
    obtain ⟨c, hc, hid⟩ := mem_map.mp hmem
    exact of_decide_eq_true (all_eq_true.mp hguard c hc) hid
  obtain ⟨snapshot, hsnapshot, hhistory, hgen⟩ := hs.history.commit hs.table hfresh htable (hrows hfresh)
  obtain ⟨snapshot', hsnapshot', rfl⟩ := map_eq_some_iff.mp h
  obtain rfl : snapshot = snapshot' := Option.some.inj (hsnapshot.symm.trans hsnapshot')
  have hprefix : s.commits <+: s.commits ++ [⟨snapshot, rows⟩] := prefix_append _ _
  refine ⟨hhistory, hgen, hs.consumer.mono hprefix, ?_⟩
  intro t ht
  obtain ⟨past, hpast, hrest⟩ := hs.captured t ht
  exact ⟨past, hpast.trans hprefix, hrest⟩

/-- One step, whichever it is; for exactly one delivery, a restart finds the cursors as they are. -/
theorem Consistent.step {s s' : State ρ} {a : Action ρ} (hs : Consistent exact s) (hok : exact → RestartsWhereItWas s a)
    (h : step time s a = some s') : Consistent exact s' := by
  cases a with
  | append id properties files =>
    refine hs.commit ?_ h
    intro hfresh manifests hmanifests hcontent
    rw [addedFiles_append hs.table hs.history hfresh hcontent hmanifests]
  | rewrite kind id extra added removed =>
    obtain ⟨_, h'⟩ := ite_none_right_eq_some.mp h
    obtain ⟨table, htable, -⟩ := bind_eq_some_iff.mp h'
    obtain ⟨hne, -⟩ := Option.ite_none_left_eq_some.mp htable
    simp only [Subscribe.step, TableMetadata.rewriteFiles, if_neg hne] at h
    refine hs.commit ?_ h
    intro _ manifests _ _
    simp [addedFiles, classifyCommit, CommitKind.deliversAddedFiles]
  | expire n =>
    obtain ⟨table, htable, rfl⟩ := map_eq_some_iff.mp h
    exact { hs with table := hs.table.expire htable }
  | capture =>
    cases h
    refine { hs with captured := ?_ }
    intro t ht
    cases ht
    exact ⟨s.commits, prefix_rfl, hs.table, hs.consumer⟩
  | poll reads =>
    obtain ⟨t, ht, rfl⟩ := map_eq_some_iff.mp h
    obtain ⟨past, hpast, hgen, haccount⟩ := hs.captured t ht
    have hpolled := haccount.polled time hs.history hpast hgen reads
    exact ⟨hs.history, hs.table, hpolled.mono hpast, fun _ h' => (nomatch h')⟩
  | abandon =>
    cases h
    exact { hs with captured := fun _ h' => (nomatch h') }
  | persist =>
    cases h
    have haccount : ∀ {past}, Account exact past s.persisted s.consumer →
        Account exact past s.consumer.subscription s.consumer := by
      intro past h'
      refine ⟨id, fun c hc => ?_⟩
      obtain ⟨before, b, mid, last, hprefix, hstart, hlast, hid, hrows, -⟩ := h'.delivered c hc
      exact ⟨before, b, mid, last, hprefix, hstart, hlast, hid, hrows,
        fun p hp => ⟨mid, last, prefix_rfl, hlast, hid.trans (Option.some.inj (hc.symm.trans hp))⟩⟩
    refine ⟨hs.history, hs.table, haccount hs.consumer, fun t ht => ?_⟩
    obtain ⟨past, hpast, hgen, h'⟩ := hs.captured t ht
    exact ⟨past, hpast, hgen, haccount h'⟩
  | restart =>
    cases h
    refine ⟨hs.history, hs.table, ?_, fun _ h' => (nomatch h')⟩
    by_cases hexact : exact
    · have hsame : s.persisted = s.consumer.subscription := hok hexact
      have hconsumer := hs.consumer
      rw [hsame] at hconsumer
      simpa only [hsame] using hconsumer
    · have hback := hs.consumer.restart
      rwa [← eq_false hexact] at hback

end LogLake.Subscribe
