import LogLake.Aggregates.Tier1
import LogLake.Lemmas.Coverage
import LogLake.Lemmas.Windowed

/-! # What an aggregate holds and what its edge says -/

namespace LogLake

open List

/-! ## Links -/

namespace SnapshotAggregates

variable {κ : Type} {E : Option AggregateCoverage → Prop} {L : AggregateCoverageLink → Prop} {s : SnapshotAggregates κ}

/-- What holds of the edge and of every pending run. -/
def Holds (E : Option AggregateCoverage → Prop) (L : AggregateCoverageLink → Prop) (s : SnapshotAggregates κ) : Prop :=
  E s.coverage ∧ ∀ link ∈ s.coverageLinks, L link

section

variable (hjoin : ∀ coverage link, E coverage → L link →
  link.parentSnapshotId = coverage.map AggregateCoverage.snapshotId → E (some link.head))

include hjoin

theorem Holds.joinNext (h : s.Holds E L) {s' : SnapshotAggregates κ} (hnext : s.joinNext = some s') : s'.Holds E L := by
  obtain ⟨next, hfind, rfl⟩ := Option.map_eq_some_iff.mp hnext
  have hfound := List.find?_some hfind
  have hparent : next.parentSnapshotId = s.edgeId := of_decide_eq_true hfound
  exact ⟨hjoin _ next h.1 (h.2 next (mem_of_find?_eq_some hfind)) hparent,
    fun link hlink => h.2 link (mem_of_mem_eraseP hlink)⟩

theorem Holds.joinLoop (turns : Nat) (h : s.Holds E L) : (SnapshotAggregates.joinLoop turns s).Holds E L := by
  induction turns generalizing s with
  | zero => exact h
  | succ turns ih =>
    rw [SnapshotAggregates.joinLoop]
    cases hnext : s.joinNext with
    | none => exact h
    | some s' => exact ih (h.joinNext hjoin hnext)

/-- Properties of edges and links that joining keeps hold after a new link. -/
theorem Holds.addCoverageLink (hextend : ∀ pending link, L pending → L link → some pending.snapshotId = link.parentSnapshotId →
      L { pending with snapshotId := link.snapshotId, sequenceNumber := link.sequenceNumber })
    (h : s.Holds E L) {link : AggregateCoverageLink} (hlink : L link) : (s.addCoverageLink link).Holds E L := by
  unfold SnapshotAggregates.addCoverageLink
  split
  · exact h
  refine Holds.joinLoop hjoin _ ⟨h.1, fun run hrun => ?_⟩
  have hkept : ∀ pending ∈ s.coverageLinks.filter fun pending => pending.sequenceNumber ≠ link.sequenceNumber, L pending :=
    fun pending hpending => h.2 pending (mem_filter.mp hpending).1
  rw [mem_insertionSort] at hrun
  generalize (s.coverageLinks.filter fun pending => pending.sequenceNumber ≠ link.sequenceNumber) = kept at hkept hrun
  unfold extendOrPush at hrun
  split at hrun
  · next pos hpos =>
    obtain ⟨l₁, pending, l₂, rfl, hends, hmodify⟩ := modify_of_findIdx? hpos fun pending =>
      { pending with snapshotId := link.snapshotId, sequenceNumber := link.sequenceNumber }
    rw [hmodify, mem_append, mem_cons] at hrun
    rcases hrun with hrun | rfl | hrun
    · exact hkept run (mem_append_left _ hrun)
    · exact hextend pending link (hkept pending (mem_append_right _ mem_cons_self)) hlink (of_decide_eq_true hends)
    · exact hkept run (mem_append_right _ (mem_cons_of_mem _ hrun))
  · rcases mem_append.mp hrun with hrun | hrun
    · exact hkept run hrun
    · exact mem_singleton.mp hrun ▸ hlink

end

end SnapshotAggregates

/-! ## Counts -/

namespace FileGroupCounts

variable {c d : FileGroupCounts} {keys keys' : Text → List (Option Text)}

/-- Every column has the counts of some of its rows. -/
def Within (c : FileGroupCounts) (keys : Text → List (Option Text)) : Prop :=
  ∀ column counts, c.columns.get? column = some counts → ∃ counted, counts = groupCounts counted ∧ counted.Subperm (keys column)

theorem within_empty : empty.Within keys := fun _ _ h => nomatch h

section

variable (h : c.Within keys)
include h

theorem Within.mono (hkeys : ∀ column, (keys column).Subperm (keys' column)) : c.Within keys' := by
  intro column counts hcounts
  obtain ⟨counted, hcounted, hsub⟩ := h column counts hcounts
  exact ⟨counted, hcounted, hsub.trans (hkeys column)⟩

theorem Within.retainWithin (cap : Nat) : (c.retainWithin cap).Within keys := by
  intro column counts hcounts
  rw [FileGroupCounts.retainWithin, SortedMap.get?_retain] at hcounts
  exact h column counts (Option.filter_eq_some_iff.mp hcounts).1

theorem Within.nonempty : ∀ counts ∈ c.nonempty, counts.Within keys := by
  intro counts hcounts
  unfold FileGroupCounts.nonempty at hcounts
  split at hcounts
  · cases hcounts
  · exact Option.some.inj hcounts ▸ h

theorem Within.mergeUncapped (h' : d.Within keys') :
    (c.mergeUncapped d).Within fun column => keys column ++ keys' column := by
  intro column counts hcounts
  rw [FileGroupCounts.mergeUncapped, SortedMap.get?_mergeWith] at hcounts
  cases hd : d.columns.get? column with
  | none =>
    rw [hd] at hcounts
    obtain ⟨counted, hcounted, hsub⟩ := h column counts hcounts
    exact ⟨counted, hcounted, hsub.trans (sublist_append_left _ _).subperm⟩
  | some other =>
    obtain ⟨counted', rfl, hsub'⟩ := h' column other hd
    rw [hd] at hcounts
    cases hcounts
    cases hc : c.columns.get? column with
    | none => exact ⟨counted', fold_groupCounts [] counted', hsub'.trans (sublist_append_right _ _).subperm⟩
    | some own =>
      obtain ⟨counted, rfl, hsub⟩ := h column own hc
      exact ⟨counted ++ counted', fold_groupCounts counted counted', hsub.append hsub'⟩

/-- Merged counts are within the keys of both. -/
theorem Within.merge (h' : d.Within keys') (cap : Nat) :
    (c.merge cap d).Within fun column => keys column ++ keys' column := (h.mergeUncapped h').retainWithin cap

end

end FileGroupCounts

namespace ColumnAggregates

variable {a d : ColumnAggregates} {keys keys' : Text → List (Option Text)}

theorem within_of_exact_le {a' : ColumnAggregates} (h : a.exact.Within keys)
    (hle : ∀ column, (a'.side column).exact = none ∨ (a'.side column).exact = (a.side column).exact) : a'.exact.Within keys := by
  intro column counts hcounts
  have hcounts' : (a'.side column).exact = some counts := hcounts
  rcases hle column with hnone | hsame
  · rw [hnone] at hcounts'
    cases hcounts'
  · rw [hsame] at hcounts'
    exact h column counts hcounts'

theorem Within.absorb (h : a.exact.Within keys) (h' : d.exact.Within keys') (cap m : Nat) :
    (a.absorb cap m d).exact.Within fun column => keys column ++ keys' column := by
  refine within_of_exact_le (a := ⟨a.exact.mergeUncapped d.exact, a.sketches.merge d.sketches⟩) (h.mergeUncapped h')
    fun column => ?_
  rw [ColumnAggregates.absorb, side_demoteOverCapColumns]
  generalize side _ column = x
  rcases ColumnSide.demote_eq_or cap m x with ⟨heq, -⟩ | heq
  · exact Or.inr (by rw [heq])
  · rw [heq]
    obtain ⟨_ | counts, sketch⟩ := x
    · exact Or.inl rfl
    · exact Or.inl rfl

theorem Within.reconcile (h : a.exact.Within keys) (m : Nat) : (a.reconcileSplitColumns m).exact.Within keys := by
  refine within_of_exact_le h fun column => ?_
  rw [side_reconcileSplitColumns]
  generalize side a column = x
  obtain ⟨_ | counts, _ | sketch⟩ := x
  · exact Or.inl rfl
  · exact Or.inl rfl
  · exact Or.inr rfl
  · exact Or.inl rfl

end ColumnAggregates

namespace Tier1

open Expiry (Lineage Table rowConservingRecluster appendCoverageLink aggregateCoverageRoot aggregateCoversCurrentSnapshot)

variable {l : Lineage} {commits : List Commit} {p q : Nat}

/-! ## What an append publishes -/

def Batch.keys (b : Batch) (column : Text) : List (Option Text) := b.tableRows.map fun r => r column

theorem Batch.record_eq {b : Batch} {column : Text} {keys : List (Option Text)} (h : b.record column = some keys) :
    keys = b.keys column := by
  obtain ⟨hmem, hkeys⟩ := Option.ite_none_right_eq_some.mp h
  rw [← Option.some.inj hkeys, Batch.keys, Batch.tableRows, map_map]
  exact map_congr_left fun r _ => (if_pos hmem).symm

theorem within_upsert {c : FileGroupCounts} {keys : Text → List (Option Text)} (h : c.Within keys) {col : Text}
    {counts : GroupCounts} (hcounts : counts = groupCounts (keys col)) :
    FileGroupCounts.Within ⟨c.columns.upsert col fun _ => counts⟩ keys := by
  intro column found hfound
  rw [SortedMap.get?_upsert] at hfound
  split at hfound
  · next heq =>
    subst heq
    exact ⟨keys column, (Option.some.inj hfound).symm.trans hcounts, List.Subperm.refl _⟩
  · exact h column found hfound

theorem within_wideDelta (w : Writer) (b : Batch) : (w.wideDelta b).exact.Within b.keys := by
  have hstep : ∀ (a : ColumnAggregates) (col : Text), a.exact.Within b.keys →
      (countColumn w.caps w.declared w.sketchCounters b.record a col).exact.Within b.keys := by
    intro a col h
    unfold countColumn
    cases hrecord : b.record col with
    | none => exact h
    | some keys =>
      dsimp only
      have hcounted := ColumnScan.counted_scan (groupCountCapFor w.caps w.declared col) w.sketchCounters keys
      rcases hcounted.either with ⟨-, hnone, hvalues⟩ | ⟨-, sketch, hsome, -⟩
      · rw [hnone]
        refine within_upsert h ?_
        rw [hvalues, hcounted.nulls, ← Batch.record_eq hrecord]
        rfl
      · rw [hsome]
        exact h
  have hempty : ColumnAggregates.empty.exact.Within b.keys := FileGroupCounts.within_empty
  exact List.foldlRecOn (motive := fun a : ColumnAggregates => a.exact.Within b.keys) w.columns _ hempty
    fun a ha col _ => hstep a col ha

theorem get?_fileGroupCounts (columns : List Text) (cap : Nat) (batch : RecordBatch) (column : Text) :
    (fileGroupCounts columns cap batch).columns.get? column =
      if column ∈ columns then (batch column).bind (Tier2.fileGroupCounts cap) else none := by
  -- By the last column: it has the same counts when it was counted before.
  induction columns using List.reverseRecOn with
  | nil => rfl
  | append_singleton columns col ih =>
    rw [fileGroupCounts, foldl_append, foldl_cons, foldl_nil, ← fileGroupCounts]
    by_cases hcol : column = col
    · subst hcol
      rw [if_pos (mem_append_right _ (mem_singleton_self _))]
      cases hcounts : (batch column).bind (Tier2.fileGroupCounts cap) with
      | none =>
        rw [hcounts] at ih
        exact ih.trans (ite_self none)
      | some counts => exact (SortedMap.get?_upsert ..).trans (if_pos rfl)
    · have hmem : column ∈ columns ++ [col] ↔ column ∈ columns := by simp [hcol]
      rw [if_congr hmem rfl rfl, ← ih]
      cases (batch col).bind (Tier2.fileGroupCounts cap) with
      | none => rfl
      | some counts => exact (SortedMap.get?_upsert ..).trans (if_neg hcol)

theorem retainWithin_fileGroupCounts (columns : List Text) {c C : Nat} (h : c ≤ C) (batch : RecordBatch) :
    (fileGroupCounts columns C batch).retainWithin c = fileGroupCounts columns c batch := by
  suffices hcolumns : ((fileGroupCounts columns C batch).retainWithin c).columns = (fileGroupCounts columns c batch).columns from
    congrArg FileGroupCounts.mk hcolumns
  refine SortedMap.ext_get? fun column => ?_
  rw [FileGroupCounts.retainWithin, SortedMap.get?_retain, get?_fileGroupCounts, get?_fileGroupCounts]
  split
  · cases batch column with
    | none => rfl
    | some keys =>
      have hlength : (groupCounts keys).values.entries.length = (present keys).dedup.length := length_entries_tally_text _
      rw [Option.bind_some, Option.bind_some, Tier2.fileGroupCounts_spec, Tier2.fileGroupCounts_spec]
      by_cases hle : (present keys).dedup.length ≤ c
      · rw [if_pos hle, if_pos (hle.trans h), Option.filter_some, hlength, if_pos (decide_eq_true hle)]
      · rw [if_neg hle]
        split
        · rw [Option.filter_some, hlength, decide_eq_false hle]
          rfl
        · rfl
  · rfl

theorem within_fileGroupCounts (columns : List Text) (cap : Nat) (b : Batch) :
    (fileGroupCounts columns cap b.record).Within b.keys := by
  intro column counts hcounts
  rw [get?_fileGroupCounts] at hcounts
  obtain ⟨-, hcounted⟩ := Option.ite_none_right_eq_some.mp hcounts
  obtain ⟨keys, hrecord, hkeys⟩ := Option.bind_eq_some_iff.mp hcounted
  exact ⟨keys, Tier2.fileGroupCounts_eq hkeys, Batch.record_eq hrecord ▸ Subperm.refl _⟩

theorem within_inlineDelta (w : Writer) (b : Batch) : ∀ counts ∈ w.inlineDelta b, counts.Within b.keys := by
  unfold Writer.inlineDelta
  split
  · exact ((within_wideDelta w b).retainWithin w.baseCap).nonempty
  · exact (within_fileGroupCounts w.columns w.baseCap b).nonempty

/-! ## The rows of a snapshot -/

/-- The keys of a column that the append at a place of the history has added. -/
def appendKeys (commits : List Commit) (column : Text) (i : Nat) : List (Option Text) :=
  match commits[i]? with
  | some (.append _ batch) => batch.keys column
  | _ => []

def keysOf (commits : List Commit) (appends : List Nat) (column : Text) : List (Option Text) :=
  appends.flatMap (appendKeys commits column)

/-- A removing commit is at the place of the history. -/
def Removes (commits : List Commit) (q : Nat) : Prop := ∃ summary keep, commits[q]? = some (.remove summary keep)

theorem lt_of_isAppend (h : isAppend commits p = true) : p < commits.length := by
  by_contra hge
  rw [isAppend, List.getElem?_eq_none (not_lt.mp hge)] at h
  cases h

theorem not_removes_of_isAppend (h : isAppend commits p = true) : ¬Removes commits p := by
  rintro ⟨summary, keep, hremove⟩
  rw [isAppend, hremove] at h
  cases h

theorem map_rowsAfter (h : ∀ q < commits.length, ¬Removes commits q) (column : Text) :
    ((rowsAfter commits).map fun r => r column) = keysOf commits (List.range commits.length) column := by
  induction commits using List.reverseRecOn with
  | nil => rfl
  | append_singleton commits c ih =>
    have hbefore : ∀ q < commits.length, (commits ++ [c])[q]? = commits[q]? := fun q hq => List.getElem?_append_left hq
    have hrest := ih fun q hq hremoves => by
      refine h q (by rw [length_append]; omega) ?_
      unfold Removes
      rw [hbefore q hq]
      exact hremoves
    have hkeys : keysOf (commits ++ [c]) (List.range commits.length) column =
        keysOf commits (List.range commits.length) column := by
      refine flatMap_congr fun q hq => ?_
      rw [appendKeys, appendKeys, hbefore q (mem_range.mp hq)]
    have hlast : keysOf (commits ++ [c]) (List.range (commits ++ [c]).length) column =
        keysOf commits (List.range commits.length) column ++ appendKeys (commits ++ [c]) column commits.length := by
      rw [length_append, length_singleton, range_succ, keysOf, flatMap_append, flatMap_singleton]
      exact congrArg (· ++ _) hkeys
    have hnow : (commits ++ [c])[commits.length]? = some c := by simp
    rw [hlast, ← hrest, appendKeys, hnow, rowsAfter, foldl_append]
    cases c with
    | append w b => exact map_append
    | recluster => exact (append_nil _).symm
    | remove summary keep =>
      exact absurd ⟨summary, keep, hnow⟩ (h commits.length (by simp))

/-! ## Walks -/

/-- Removing commits are not marked as re-clusters. -/
def Marked (commits : List Commit) : Prop :=
  ∀ (q : Nat) summary keep, commits[q]? = some (Commit.remove summary keep) → rowConservingRecluster summary = false

theorem find_tableAfter (l : Lineage) (commits : List Commit) (p : Nat) :
    (tableAfter l commits).find (l.id p) = (commits[p]?).map (snapshotOf l p) := by
  have hid : ∀ s ∈ commits.mapIdx (snapshotOf l), s.id = l.id p → (commits[p]?).map (snapshotOf l p) = some s := by
    intro s hs hsid
    obtain ⟨q, hq, rfl⟩ := mem_mapIdx.mp hs
    obtain rfl := l.id_injective q p hsid
    rw [List.getElem?_eq_getElem hq]
    rfl
  rw [Table.find]
  cases hfind : (tableAfter l commits).snapshots.find? (fun s => s.id = l.id p) with
  | some s =>
    have hfound := List.find?_some hfind
    exact (hid s (mem_of_find?_eq_some hfind) (of_decide_eq_true hfound)).symm
  | none =>
    cases hc : commits[p]? with
    | none => rfl
    | some c =>
      obtain ⟨hlt, rfl⟩ := List.getElem?_eq_some_iff.mp hc
      have hmem : snapshotOf l p commits[p] ∈ (tableAfter l commits).snapshots := mem_mapIdx.mpr ⟨p, hlt, rfl⟩
      exact absurd (decide_eq_true rfl) (List.find?_eq_none.mp hfind _ hmem)

theorem recluster_of_conserving (hmarked : Marked commits) {c : Commit} (hc : commits[q]? = some c)
    (h : rowConservingRecluster c.summary = true) : c = .recluster := by
  cases c with
  | append w b => cases h
  | recluster => rfl
  | remove summary keep =>
    have hfalse := hmarked q summary keep hc
    rw [Commit.summary, hfalse] at h
    cases h

/-- The commits after one place of the history, up to another, are re-clusters. -/
def Bridged (commits : List Commit) (p q : Nat) : Prop := ∀ r, p < r → r ≤ q → commits[r]? = some .recluster

theorem Bridged.succ (h : Bridged commits p q) (hnext : commits[q + 1]? = some .recluster) : Bridged commits p (q + 1) := by
  intro r hp hr
  rcases Nat.lt_or_eq_of_le hr with hlt | rfl
  · exact h r hp (by omega)
  · exact hnext

theorem of_coversFrom (hmarked : Marked commits) {edge : AggregateCoverage} {turns : Nat}
    (h : (tableAfter l commits).coversFrom edge [] turns (l.id q) = true) : ∃ p ≤ q, edge = l.edgeAt p ∧ Bridged commits p q := by
  induction turns generalizing q with
  | zero => cases h
  | succ turns ih =>
    rw [Table.coversFrom, if_neg not_mem_nil] at h
    split at h
    · next hid =>
      rw [find_tableAfter] at h
      have hseq : l.sequenceNumber q = edge.sequenceNumber := by
        cases hc : commits[q]? with
        | none => simp [hc] at h
        | some c => simpa [hc, snapshotOf] using h
      refine ⟨q, le_rfl, ?_, fun r hlt hle => absurd hlt (not_lt.mpr hle)⟩
      obtain ⟨id, sequence⟩ := edge
      obtain rfl : l.id q = id := hid
      obtain rfl : l.sequenceNumber q = sequence := hseq
      rfl
    · rw [find_tableAfter] at h
      cases hc : commits[q]? with
      | none => simp [hc] at h
      | some c =>
        simp only [hc, Option.map_some] at h
        split at h
        · next hconserving =>
          obtain rfl := recluster_of_conserving hmarked hc hconserving
          cases q with
          | zero => cases h
          | succ q =>
            obtain ⟨p, hp, hedge, hbridged⟩ := ih h
            exact ⟨p, by omega, hedge, hbridged.succ hc⟩
        · cases h

/-- Coverage of the current snapshot means that only re-clusters follow the edge. -/
theorem of_covers (hmarked : Marked commits) {edge : AggregateCoverage}
    (h : aggregateCoversCurrentSnapshot (tableAfter l commits) (some edge) = true) :
    ∃ p < commits.length, edge = l.edgeAt p ∧ ∀ r, p < r → r < commits.length → commits[r]? = some .recluster := by
  cases hlength : commits.length with
  | zero =>
    have hcurrent : (tableAfter l commits).currentSnapshotId = none := by rw [tableAfter, hlength]; rfl
    simp only [aggregateCoversCurrentSnapshot, Expiry.aggregateCoversCurrentSnapshotExcluding, hcurrent] at h
    cases h
  | succ last =>
    have hcurrent : (tableAfter l commits).currentSnapshotId = some (l.id last) := by rw [tableAfter, hlength]; rfl
    simp only [aggregateCoversCurrentSnapshot, Expiry.aggregateCoversCurrentSnapshotExcluding, hcurrent] at h
    obtain ⟨p, hp, hedge, hbridged⟩ := of_coversFrom hmarked h
    exact ⟨p, by omega, hedge, fun r hpr hr => hbridged r hpr (by omega)⟩

/-- The root of a commit is the append below its re-clusters. -/
theorem coverageRootFrom_eq (hmarked : Marked commits) (hq : q < commits.length) {turns : Nat} (hturns : q < turns)
    (deepest : Option Int) :
    ∃ p ≤ q, (tableAfter l commits).coverageRootFrom [] turns (l.id q) deepest = some (l.id p) ∧ Bridged commits p q := by
  induction q generalizing turns deepest with
  | zero =>
    obtain ⟨turns, rfl⟩ := Nat.exists_eq_succ_of_ne_zero (by omega : turns ≠ 0)
    refine ⟨0, le_rfl, ?_, fun r hlt hle => absurd hlt (not_lt.mpr hle)⟩
    rw [Table.coverageRootFrom, if_neg not_mem_nil, find_tableAfter, List.getElem?_eq_getElem hq, Option.map_some]
    dsimp only
    split <;> rfl
  | succ q ih =>
    obtain ⟨turns, rfl⟩ := Nat.exists_eq_succ_of_ne_zero (by omega : turns ≠ 0)
    rw [Table.coverageRootFrom, if_neg not_mem_nil, find_tableAfter, List.getElem?_eq_getElem hq, Option.map_some]
    dsimp only
    split
    · next hconserving =>
      have hrecluster := recluster_of_conserving hmarked (List.getElem?_eq_getElem hq) hconserving
      obtain ⟨p, hp, hroot, hbridged⟩ := ih (by omega) (show q < turns by omega) (some (l.id (q + 1)))
      refine ⟨p, by omega, hroot, hbridged.succ ?_⟩
      rw [List.getElem?_eq_getElem hq, hrecluster]
    · exact ⟨q + 1, le_rfl, rfl, fun r hlt hle => absurd hlt (not_lt.mpr hle)⟩

end Tier1

end LogLake
