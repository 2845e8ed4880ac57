import LogLake.Lemmas.Publish
import LogLake.Lemmas.Tier1

/-! # Aggregates along a history -/

namespace LogLake.Tier1

open List Option SnapshotAggregates

open Expiry (Lineage Table rowConservingRecluster appendCoverageLink aggregateCoverageRoot aggregateCoversCurrentSnapshot)

variable {l : Lineage} {commits : List Commit} {p q : Nat}

/-! ## Clean stretches -/

/-- No removing commit from one place of the history up to another. -/
def Clean (commits : List Commit) (p q : Nat) : Prop := ∀ r, p ≤ r → r ≤ q → ¬Removes commits r

theorem Clean.join (h : Clean commits p q) {r : Nat} (h' : Clean commits (q + 1) r) : Clean commits p r := by
  intro i hp hr
  by_cases hi : i ≤ q
  · exact h i hp hi
  · exact h' i (by omega) hr

/-- An edge is at a commit of the table, with no removing commit up to it. -/
def EdgeOk (l : Lineage) (commits : List Commit) (coverage : Option AggregateCoverage) : Prop :=
  ∀ edge ∈ coverage, ∃ k < commits.length, edge = l.edgeAt k ∧ Clean commits 0 k

/-- A run is from above one commit up to another, with no removing commit there. -/
def LinkOk (l : Lineage) (commits : List Commit) (link : AggregateCoverageLink) : Prop :=
  ∃ a, ∃ k < commits.length, link.parentSnapshotId = below l a ∧ link.head = l.edgeAt k ∧ Clean commits a k

theorem below_injective {a b : Nat} (h : below l a = below l b) : a = b := by
  cases a with
  | zero =>
    cases b with
    | zero => rfl
    | succ b => cases h
  | succ a =>
    cases b with
    | zero => cases h
    | succ b => exact congrArg Nat.succ (l.id_injective a b (some.inj h))

theorem edgeOk_join (coverage : Option AggregateCoverage) (link : AggregateCoverageLink) (hedge : EdgeOk l commits coverage)
    (hlink : LinkOk l commits link) (hparent : link.parentSnapshotId = coverage.map AggregateCoverage.snapshotId) :
    EdgeOk l commits (some link.head) := by
  obtain ⟨a, k, hk, ha, hhead, hclean⟩ := hlink
  intro edge hmem
  obtain rfl := mem_some.mp hmem
  refine ⟨k, hk, hhead, ?_⟩
  rw [ha] at hparent
  cases coverage with
  | none =>
    obtain rfl : a = 0 := below_injective (l := l) hparent
    exact hclean
  | some edge =>
    obtain ⟨k', -, rfl, hclean'⟩ := hedge edge rfl
    obtain rfl : a = k' + 1 := below_injective (l := l) hparent
    exact hclean'.join hclean

theorem linkOk_extend (pending link : AggregateCoverageLink) (hpending : LinkOk l commits pending) (hlink : LinkOk l commits link)
    (hparent : some pending.snapshotId = link.parentSnapshotId) :
    LinkOk l commits { pending with snapshotId := link.snapshotId, sequenceNumber := link.sequenceNumber } := by
  obtain ⟨a, k, -, ha, hhead, hclean⟩ := hpending
  obtain ⟨a', k', hk', ha', hhead', hclean'⟩ := hlink
  have hid : pending.snapshotId = l.id k := congrArg AggregateCoverage.snapshotId hhead
  rw [hid, ha'] at hparent
  obtain rfl : k + 1 = a' := below_injective (l := l) hparent
  exact ⟨a, k', hk', ha, hhead', hclean.join hclean'⟩

/-! ## The link of an append -/

theorem take_getElem? {i : Nat} (h : q ≤ i) : (commits.take (i + 1))[q]? = commits[q]? :=
  List.getElem?_take_of_lt (by omega)

theorem Marked.take (h : Marked commits) (n : Nat) : Marked (commits.take n) := by
  intro q summary keep hremove
  refine h q summary keep ?_
  rw [List.getElem?_take] at hremove
  split at hremove
  · exact hremove
  · cases hremove

theorem linkOk_linkOf (hmarked : Marked commits) {i : Nat} (hi : isAppend commits i = true) :
    ∀ link ∈ linkOf l commits i, LinkOk l commits link := by
  have hlt := lt_of_isAppend hi
  have hlength : (commits.take (i + 1)).length = i + 1 := by
    rw [length_take]
    omega
  intro link hlink
  obtain ⟨s, hs, rfl⟩ := map_eq_some_iff.mp hlink
  have hcurrent : (tableAfter l (commits.take (i + 1))).currentSnapshotId = some (l.id i) := by
    rw [tableAfter, hlength]
    rfl
  rw [Table.currentSnapshot, hcurrent, bind_some, find_tableAfter, take_getElem? le_rfl] at hs
  obtain ⟨c, -, rfl⟩ := map_eq_some_iff.mp hs
  cases i with
  | zero =>
    refine ⟨0, 0, hlt, rfl, rfl, fun r _ hr => ?_⟩
    obtain rfl : r = 0 := by omega
    exact not_removes_of_isAppend hi
  | succ j =>
    obtain ⟨p, _, hroot, hbridged⟩ :
        ∃ p ≤ j, aggregateCoverageRoot (tableAfter l (commits.take (j + 1 + 1))) (some (l.id j)) [] = some (l.id p) ∧
          Bridged (commits.take (j + 1 + 1)) p j :=
      coverageRootFrom_eq (hmarked.take _) (by omega) (by rw [tableAfter, length_mapIdx]; omega) none
    refine ⟨p + 1, j + 1, hlt, hroot, rfl, fun r hpr hr hremoves => ?_⟩
    rcases Nat.lt_or_eq_of_le hr with hr | rfl
    · obtain ⟨summary, keep, hremove⟩ := hremoves
      have hrecluster := hbridged r (by omega) (by omega)
      rw [take_getElem? (by omega), hremove] at hrecluster
      cases hrecluster
    · exact not_removes_of_isAppend hi hremoves

/-! ## Sound aggregates -/

/-- An aggregate into which the deltas of appends were merged once each, with the exact counts that it has. -/
structure Sound {κ : Type} (l : Lineage) (commits : List Commit) (appends : List Nat) (s : SnapshotAggregates κ)
    (exact : Option FileGroupCounts) : Prop where
  nodup : appends.Nodup
  committed : ∀ i ∈ appends, isAppend commits i = true
  chain : s.Holds (EdgeOk l commits) (LinkOk l commits)
  within : ∀ counts ∈ exact, counts.Within (keysOf commits appends)

section Commits

variable {c : Commit}

theorem Clean.concat (h : Clean commits p q) (hq : q < commits.length) : Clean (commits ++ [c]) p q := by
  intro r hp hr hremoves
  refine h r hp hr ?_
  obtain ⟨summary, keep, hremove⟩ := hremoves
  exact ⟨summary, keep, by rwa [List.getElem?_append_left (by omega)] at hremove⟩

theorem isAppend_concat (h : isAppend commits p = true) : isAppend (commits ++ [c]) p = true := by
  rw [isAppend, List.getElem?_append_left (lt_of_isAppend h)]
  exact h

theorem keysOf_concat {appends : List Nat} (h : ∀ i ∈ appends, isAppend commits i = true) (column : Text) :
    keysOf (commits ++ [c]) appends column = keysOf commits appends column := by
  refine flatMap_congr fun i hi => ?_
  rw [appendKeys, appendKeys, List.getElem?_append_left (lt_of_isAppend (h i hi))]

theorem Sound.concat {κ : Type} {appends : List Nat} {s : SnapshotAggregates κ} {exact : Option FileGroupCounts}
    (h : Sound l commits appends s exact) (c : Commit) : Sound l (commits ++ [c]) appends s exact := by
  have hlength : ∀ k, k < commits.length → k < (commits ++ [c]).length := by
    intro k hk
    rw [length_append]
    omega
  refine ⟨h.nodup, fun i hi => isAppend_concat (h.committed i hi), ⟨fun edge hedge => ?_, fun link hlink => ?_⟩,
    fun counts hcounts => ?_⟩
  · obtain ⟨k, hk, heq, hclean⟩ := h.chain.1 edge hedge
    exact ⟨k, hlength k hk, heq, hclean.concat hk⟩
  · obtain ⟨a, k, hk, ha, hhead, hclean⟩ := h.chain.2 link hlink
    exact ⟨a, k, hlength k hk, ha, hhead, hclean.concat hk⟩
  · refine (h.within counts hcounts).mono fun column => ?_
    rw [keysOf_concat h.committed]

end Commits

variable {κ : Type} {exact : Option FileGroupCounts}

theorem sound_empty (counts : κ) (hexact : ∀ counts ∈ exact, counts.Within (keysOf commits [])) :
    Sound l commits [] ⟨none, [], counts⟩ exact where
  nodup := nodup_nil
  committed _ hi := (not_mem_nil hi).elim
  chain := ⟨fun _ hedge => (not_mem_none _ hedge).elim, fun _ hlink => (not_mem_nil hlink).elim⟩
  within := hexact

theorem holds_addCoverageLink {s : SnapshotAggregates κ} (h : s.Holds (EdgeOk l commits) (LinkOk l commits))
    {link : AggregateCoverageLink} (hlink : LinkOk l commits link) :
    (s.addCoverageLink link).Holds (EdgeOk l commits) (LinkOk l commits) :=
  h.addCoverageLink edgeOk_join linkOk_extend hlink

theorem holds_foldl_addCoverageLink {links : List AggregateCoverageLink}
    (hlinks : ∀ link ∈ links, LinkOk l commits link) {s : SnapshotAggregates κ}
    (h : s.Holds (EdgeOk l commits) (LinkOk l commits)) :
    (links.foldl addCoverageLink s).Holds (EdgeOk l commits) (LinkOk l commits) :=
  List.foldlRecOn (motive := fun s : SnapshotAggregates κ => s.Holds (EdgeOk l commits) (LinkOk l commits)) links _ h
    fun _ hs link hlink => holds_addCoverageLink hs (hlinks link hlink)

theorem keysOf_append (commits : List Commit) (appends appends' : List Nat) (column : Text) :
    keysOf commits (appends ++ appends') column = keysOf commits appends column ++ keysOf commits appends' column :=
  flatMap_append

theorem nodup_append_of_mergeable {before appends : List Nat} (hbefore : before.Nodup)
    (h : Mergeable commits before appends) : (before ++ appends).Nodup :=
  hbefore.append h.1 fun i hi hi' => (h.2 i hi').1 hi

/-! ## Publications -/

section Publications

variable {B T : Type} {m : CountMerges Unit B T} {delta : Nat → SideCounts Unit B T} {cap counters : Nat}
  {keys keys' : Text → List (Option Text)}

variable {acc d : Option FileGroupCounts}

theorem within_foldInto (hacc : ∀ c ∈ acc, c.Within keys) (hd : ∀ c ∈ d, c.Within keys') :
    ∀ c ∈ foldInto (FileGroupCounts.merge cap) acc d, c.Within fun column => keys column ++ keys' column := by
  intro c hc
  cases d with
  | none => exact (hacc c hc).mono fun column => (sublist_append_left _ _).subperm
  | some d =>
    cases acc with
    | none =>
      obtain rfl := mem_some.mp hc
      exact (hd _ rfl).mono fun column => (sublist_append_right _ _).subperm
    | some acc =>
      obtain rfl := mem_some.mp hc
      exact (hacc _ rfl).merge (hd _ rfl) cap

theorem within_mergeInto (hacc : ∀ c ∈ acc, c.Within keys) (hd : ∀ c ∈ d, c.Within keys') :
    ∀ c ∈ mergeInto FileGroupCounts.empty (FileGroupCounts.merge cap) acc d, c.Within fun column => keys column ++ keys' column := by
  intro c hc
  cases d with
  | none => exact (hacc c hc).mono fun column => (sublist_append_left _ _).subperm
  | some d =>
    obtain rfl := mem_some.mp hc
    cases acc with
    | none => exact FileGroupCounts.within_empty.merge (hd _ rfl) cap
    | some acc => exact (hacc _ rfl).merge (hd _ rfl) cap

theorem within_inlineDeltaOf (delta : Nat → SideCounts Unit B T) (commits : List Commit) (i : Nat) :
    ∀ counts ∈ (inlineDeltaOf delta commits i).groupCounts, counts.Within (keysOf commits [i]) := by
  intro counts hcounts
  obtain ⟨c, hc, hcounts⟩ := bind_eq_some_iff.mp hcounts
  cases c with
  | append w b =>
    refine (within_inlineDelta w b counts hcounts).mono fun column => ?_
    rw [keysOf, flatMap_singleton, appendKeys, hc]
  | recluster | remove summary keep => cases hcounts

variable {appends : List Nat}

/-- The collected deltas are those of their appends. -/
theorem collect_sound (m : CountMerges Unit B T) (l : Lineage) (delta : Nat → SideCounts Unit B T) (cap : Nat)
    (hmarked : Marked commits) (h : ∀ i ∈ appends, isAppend commits i = true) :
    (∀ link ∈ (collect m l delta cap commits appends).coverageLinks, LinkOk l commits link) ∧
      ∀ counts ∈ (collect m l delta cap commits appends).counts.groupCounts, counts.Within (keysOf commits appends) := by
  induction appends using List.reverseRecOn with
  | nil => exact ⟨fun _ hlink => (not_mem_nil hlink).elim, fun _ hcounts => (not_mem_none _ hcounts).elim⟩
  | append_singleton appends i ih =>
    obtain ⟨hlinks, hwithin⟩ := ih fun j hj => h j (mem_append_left _ hj)
    have hlink := linkOk_linkOf (l := l) hmarked (h i (mem_append_right _ mem_cons_self))
    have hmerged : ∀ counts ∈ foldInto (FileGroupCounts.merge cap) (collect m l delta cap commits appends).counts.groupCounts
        (inlineDeltaOf delta commits i).groupCounts, counts.Within (keysOf commits (appends ++ [i])) := by
      intro counts hcounts
      refine (within_foldInto hwithin (within_inlineDeltaOf delta commits i) counts hcounts).mono fun column => ?_
      rw [keysOf_append]
    rw [collect, foldl_append, foldl_cons, foldl_nil]
    change (∀ link ∈ (Option.getD _ _ : PendingSideAggDeltas FileGroupCounts B T).coverageLinks, _) ∧
      ∀ counts ∈ (Option.getD _ _ : PendingSideAggDeltas FileGroupCounts B T).counts.groupCounts, _
    cases hof : linkOf l commits i with
    | none => exact ⟨hlinks, hmerged⟩
    | some link =>
      refine ⟨fun other hother => ?_, hmerged⟩
      rcases mem_append.mp hother with hother | hother
      · exact hlinks other hother
      · exact mem_singleton.mp hother ▸ hlink link hof

theorem foldl_addCoverageLink_counts (links : List AggregateCoverageLink) (s : SnapshotAggregates κ) :
    (links.foldl addCoverageLink s).counts = s.counts := by
  induction links generalizing s with
  | nil => rfl
  | cons link links ih => rw [foldl_cons, ih, addCoverageLink_counts]

/-- A publication adds its appends. -/
theorem Sound.publish (hmarked : Marked commits) {before : List Nat} {side : Side B T}
    (h : Sound l commits before side side.counts.groupCounts) (hmergeable : Mergeable commits before appends) :
    Sound l commits (before ++ appends) ((collect m l delta cap commits appends).applyTo (countMerges m cap) side)
      ((collect m l delta cap commits appends).applyTo (countMerges m cap) side).counts.groupCounts := by
  have happends : ∀ i ∈ appends, isAppend commits i = true := fun i hi => (hmergeable.2 i hi).2
  obtain ⟨hlinks, hwithin⟩ := collect_sound m l delta cap hmarked happends
  refine ⟨nodup_append_of_mergeable h.nodup hmergeable, fun i hi => ?_, ?_, ?_⟩
  · exact (mem_append.mp hi).elim (h.committed i) (happends i)
  · exact holds_foldl_addCoverageLink hlinks h.chain
  · rw [PendingSideAggDeltas.applyTo, foldl_addCoverageLink_counts]
    intro counts hcounts
    refine (within_mergeInto h.within hwithin counts hcounts).mono fun column => ?_
    rw [keysOf_append]

theorem within_wideDeltaOf {i : Nat} {counts : ColumnAggregates} (h : wideDeltaOf commits i = some counts) :
    counts.exact.Within (keysOf commits [i]) := by
  obtain ⟨c, hc, hcounts⟩ := bind_eq_some_iff.mp h
  cases c with
  | append w b =>
    obtain ⟨-, hcounts⟩ := ite_none_right_eq_some.mp hcounts
    rw [← some.inj hcounts]
    refine (within_wideDelta w b).mono fun column => ?_
    rw [keysOf, flatMap_singleton, appendKeys, hc]
  | recluster | remove summary keep => cases hcounts

variable {wide : WideGroupCounts ColumnAggregates}

/-- Merged deltas add their appends. -/
theorem Sound.mergeWide (hmarked : Marked commits) {before : List Nat}
    (h : Sound l commits before wide.toSnapshotAggregates (some wide.counts.exact))
    (hmergeable : Mergeable commits before appends) :
    Sound l commits (before ++ appends) (mergeWide l cap counters commits wide appends).toSnapshotAggregates
      (some (mergeWide l cap counters commits wide appends).counts.exact) := by
  have happends : ∀ i ∈ appends, isAppend commits i = true := fun i hi => (hmergeable.2 i hi).2
  have hmerged : ∀ appends : List Nat, (∀ i ∈ appends, isAppend commits i = true) →
      (Tier1.mergeWide l cap counters commits wide appends).toSnapshotAggregates.Holds (EdgeOk l commits) (LinkOk l commits) ∧
        (Tier1.mergeWide l cap counters commits wide appends).counts.exact.Within (keysOf commits (before ++ appends)) := by
    intro appends happends
    induction appends using List.reverseRecOn with
    | nil =>
      rw [append_nil]
      exact ⟨h.chain, h.within _ rfl⟩
    | append_singleton appends i ih =>
      obtain ⟨hchain, hwithin⟩ := ih fun j hj => happends j (mem_append_left _ hj)
      have hlink := linkOk_linkOf (l := l) hmarked (happends i (mem_append_right _ mem_cons_self))
      rw [Tier1.mergeWide, foldl_append, foldl_cons, foldl_nil, ← Tier1.mergeWide]
      cases hcounts : wideDeltaOf commits i with
      | none =>
        refine ⟨hchain, hwithin.mono fun column => ?_⟩
        rw [← append_assoc, keysOf_append commits _ [i]]
        exact (sublist_append_left _ _).subperm
      | some counts =>
        refine ⟨?_, (ColumnAggregates.Within.absorb hwithin (within_wideDeltaOf hcounts) cap counters).mono fun column => ?_⟩
        · cases hof : linkOf l commits i with
          | none => exact hchain
          | some link => exact holds_addCoverageLink hchain (hlink link hof)
        · rw [← append_assoc, keysOf_append commits _ [i]]
  obtain ⟨hchain, hwithin⟩ := hmerged appends happends
  refine ⟨nodup_append_of_mergeable h.nodup hmergeable, fun i hi => ?_, hchain, fun counts hcounts => ?_⟩
  · exact (mem_append.mp hi).elim (h.committed i) (happends i)
  · exact mem_some.mp hcounts ▸ hwithin

theorem Sound.reconcile (h : Sound l commits appends wide.toSnapshotAggregates (some wide.counts.exact)) :
    Sound l commits appends { wide.toSnapshotAggregates with counts := wide.counts.reconcileSplitColumns counters }
      (some (wide.counts.reconcileSplitColumns counters).exact) :=
  { h with within := fun _ hcounts => mem_some.mp hcounts ▸ ColumnAggregates.Within.reconcile (h.within _ rfl) counters }

end Publications

/-! ## Answers -/

theorem subperm_flatMap {α β : Type} {a b : List α} (h : a.Subperm b) (f : α → List β) : (a.flatMap f).Subperm (b.flatMap f) := by
  obtain ⟨c, hperm, hsub⟩ := h
  exact ⟨c.flatMap f, hperm.flatMap_right f, hsub.flatMap f⟩

/-- Counts whose total is that of the table are those of its rows. -/
theorem Sound.counts_eq {appends : List Nat} {s : SnapshotAggregates κ}
    (h : Sound l commits appends s exact) (hmarked : Marked commits) {known : Nat} (hknown : known ≤ commits.length)
    (hupToDate : ∀ i ∈ appends, i < known)
    (hcovers : aggregateCoversCurrentSnapshot (tableAfter l (commits.take known)) s.coverage = true)
    {all : FileGroupCounts} (hall : all ∈ exact) {column : Text} {counts : GroupCounts}
    (hcounts : all.columns.get? column = some counts)
    (htotal : counts.values.total + counts.nulls = (rowsAfter (commits.take known)).length) :
    counts = groupCounts ((rowsAfter (commits.take known)).map fun r => r column) := by
  have hlength : (commits.take known).length = known := length_take_of_le hknown
  have hbefore : ∀ q < known, (commits.take known)[q]? = commits[q]? := fun q hq => List.getElem?_take_of_lt hq
  -- up to the edge nothing was removed, and after it there are only re-clusters
  have hclean : ∀ q < (commits.take known).length, ¬Removes (commits.take known) q := by
    intro q hq hremoves
    rw [hlength] at hq
    obtain ⟨summary, keep, hremove⟩ := hremoves
    cases hcoverage : s.coverage with
    | none =>
      rw [hcoverage] at hcovers
      cases hcovers
    | some edge =>
      rw [hcoverage] at hcovers
      obtain ⟨p, hp, hedge, hbridged⟩ := of_covers (hmarked.take known) hcovers
      obtain ⟨k, _, hedge', hclean⟩ := h.chain.1 edge hcoverage
      obtain rfl : k = p := l.id_injective k p (congrArg AggregateCoverage.snapshotId (hedge'.symm.trans hedge))
      by_cases hqk : q ≤ k
      · exact hclean q (Nat.zero_le q) hqk ⟨summary, keep, by rw [← hbefore q hq, hremove]⟩
      · have hrecluster := hbridged q (by omega) (by omega)
        rw [hremove] at hrecluster
        cases hrecluster
  have hrows := map_rowsAfter hclean column
  have hkeys : (keysOf commits appends column).Subperm ((rowsAfter (commits.take known)).map fun r => r column) := by
    have hsub : appends.Subperm (List.range (commits.take known).length) :=
      subperm_of_subset h.nodup fun i hi => mem_range.mpr (by rw [hlength]; exact hupToDate i hi)
    have hsame : keysOf commits appends column = keysOf (commits.take known) appends column := by
      refine flatMap_congr fun i hi => ?_
      rw [appendKeys, appendKeys, hbefore i (hupToDate i hi)]
    rw [hrows, hsame]
    exact subperm_flatMap hsub _
  obtain ⟨counted, rfl, hcounted⟩ := h.within all hall column counts hcounts
  have hlen := Tier2.total_add_nulls_groupCounts counted
  exact groupCounts_perm ((hcounted.trans hkeys).perm_of_length_le (by rw [length_map]; omega))

end LogLake.Tier1
