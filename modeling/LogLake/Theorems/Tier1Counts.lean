import LogLake.Lemmas.Tier1Runs

/-! # Tier-1 answers -/

namespace LogLake.Tier1

open List Option

open Expiry (Lineage rowConservingRecluster aggregateCoversCurrentSnapshot)

variable {B T : Type} {m : CountMerges Unit B T} {l : Lineage} {delta : Nat → SideCounts Unit B T} {s s' : State B T}

/-- Every version of the aggregates is sound, and every answer is exact. -/
structure Exact (l : Lineage) (s : State B T) : Prop where
  marked : Marked s.commits
  sides : ∀ v ∈ s.sides, Sound l s.commits v.appends v.object v.object.counts.groupCounts
  wides : ∀ v ∈ s.wides, Sound l s.commits v.appends v.object.toSnapshotAggregates (some v.object.counts.exact)
  answers : ∀ a ∈ s.answers, a.known ≤ s.commits.length ∧
    a.counts = groupCounts ((rowsAfter (s.commits.take a.known)).map fun r => r a.column)

theorem sound_empty_side (commits : List Commit) :
    Sound l commits [] (SnapshotAggregates.empty : Side B T) (SnapshotAggregates.empty : Side B T).counts.groupCounts :=
  sound_empty _ fun _ hcounts => (not_mem_none _ hcounts).elim

namespace Exact

theorem side (h : Exact l s) : Sound l s.commits s.side.appends s.side.object s.side.object.counts.groupCounts := by
  unfold State.side
  cases hsides : s.sides with
  | nil => exact sound_empty_side s.commits
  | cons v rest => exact h.sides v (hsides ▸ mem_cons_self)

theorem sideRead (h : Exact l s) (version : Option Nat) :
    Sound l s.commits (s.sideRead version).appends (s.sideRead version).object
      (s.sideRead version).object.counts.groupCounts := by
  unfold State.sideRead
  cases hread : version.bind fun v => s.sides[v]? with
  | none => exact sound_empty_side s.commits
  | some v =>
    obtain ⟨i, -, hv⟩ := bind_eq_some_iff.mp hread
    exact h.sides v (mem_of_getElem? hv)

theorem wide (h : Exact l s) :
    Sound l s.commits s.wide.appends s.wide.object.toSnapshotAggregates (some s.wide.object.counts.exact) := by
  unfold State.wide
  cases hwides : s.wides with
  | nil =>
    exact sound_empty _ fun _ hcounts => mem_some.mp hcounts ▸ FileGroupCounts.within_empty
  | cons v rest => exact h.wides v (hwides ▸ mem_cons_self)

variable {wide : Option WideRead}

section

variable (h : Exact l s)
include h

theorem foldedWide {folded : Published (WideGroupCounts ColumnAggregates)} (hfolded : foldedWide l s wide = some folded) :
    Sound l s.commits folded.appends folded.object.toSnapshotAggregates (some folded.object.counts.exact) := by
  obtain ⟨w, -, hfolded⟩ := bind_eq_some_iff.mp hfolded
  obtain ⟨version, hversion, hfolded⟩ := bind_eq_some_iff.mp hfolded
  obtain ⟨hmergeable, hfolded⟩ := ite_none_right_eq_some.mp hfolded
  obtain ⟨object, hobject, rfl⟩ := map_eq_some_iff.mp hfolded
  obtain ⟨-, rfl⟩ := Option.ite_some_none_eq_some.mp hobject
  exact ((h.wides version (mem_of_getElem? hversion)).mergeWide h.marked hmergeable).reconcile

theorem commit (c : Commit) (hc : ∀ summary keep, c = .remove summary keep → rowConservingRecluster summary = false) :
    Exact l { s with commits := s.commits ++ [c] } := by
  refine ⟨?_, fun v hv => (h.sides v hv).concat c, fun v hv => (h.wides v hv).concat c, fun a ha => ?_⟩
  · intro q summary keep hremove
    rcases Nat.lt_trichotomy q s.commits.length with hlt | rfl | hgt
    · rw [List.getElem?_append_left hlt] at hremove
      exact h.marked q summary keep hremove
    · rw [List.getElem?_concat_length] at hremove
      exact hc summary keep (some.inj hremove)
    · rw [List.getElem?_eq_none (by rw [length_append, length_singleton]; omega)] at hremove
      cases hremove
  · obtain ⟨hknown, hcounts⟩ := h.answers a ha
    refine ⟨by rw [length_append]; omega, ?_⟩
    rw [take_append_of_le_length hknown]
    exact hcounts

theorem answer {known : Nat} (hknown : known ≤ s.commits.length) {column : Text} {version : Option Nat}
    (hok : UpToDate l s (.read known column version wide)) {counts : GroupCounts}
    (hcounts : tier1GroupCountRows (tableAfter l (s.commits.take known)) (rowsAfter (s.commits.take known)).length column
      (s.sideRead version).object ((Tier1.foldedWide l s wide).map Published.object) = some counts) :
    counts = groupCounts ((rowsAfter (s.commits.take known)).map fun r => r column) := by
  rcases or_eq_some_iff.mp hcounts with hinline | ⟨-, hwide⟩
  · obtain ⟨aggs, haggs, hgroups⟩ := bind_eq_some_iff.mp hinline
    obtain ⟨hcovers, rfl⟩ := Option.ite_some_none_eq_some.mp haggs
    obtain ⟨all, hall, hgroups⟩ := bind_eq_some_iff.mp hgroups
    obtain ⟨htotal, hget⟩ := ite_none_right_eq_some.mp hgroups
    rw [FileGroupCounts.columnTotal, hget] at htotal
    exact (h.sideRead version).counts_eq h.marked hknown hok.1 hcovers hall hget (some.inj htotal)
  · obtain ⟨object, hobject, hgroups⟩ := bind_eq_some_iff.mp hwide
    obtain ⟨folded, hfolded, rfl⟩ := map_eq_some_iff.mp hobject
    obtain ⟨hcovers, hgroups⟩ := ite_none_right_eq_some.mp hgroups
    obtain ⟨hget, htotal⟩ := filter_eq_some_iff.mp hgroups
    exact (h.foldedWide hfolded).counts_eq h.marked hknown (hok.2 folded hfolded) hcovers rfl hget (of_decide_eq_true htotal)

theorem step {a : Action} (hok : UpToDate l s a) (hstep : Tier1.step m l delta s a = some s') : Exact l s' := by
  cases a with
  | commit c =>
    cases c with
    | append w b | recluster =>
      cases hstep
      exact h.commit _ fun _ _ hc => nomatch hc
    | remove summary keep =>
      obtain ⟨hconserving, rfl⟩ := Guard.stay hstep
      refine h.commit _ fun summary' keep' hc => ?_
      cases hc
      exact Bool.eq_false_iff.mpr hconserving
  | publish cap appends =>
    obtain ⟨hmergeable, rfl⟩ := Option.ite_some_none_eq_some.mp hstep
    refine { h with sides := fun v hv => ?_ }
    rcases mem_cons.mp hv with rfl | hv
    · exact h.side.publish h.marked hmergeable
    · exact h.sides v hv
  | fold cap counters appends =>
    obtain ⟨hmergeable, rfl⟩ := Option.ite_some_none_eq_some.mp hstep
    refine { h with wides := fun v hv => ?_ }
    rcases mem_cons.mp hv with rfl | hv
    · exact (h.wide.mergeWide h.marked hmergeable).reconcile
    · exact h.wides v hv
  | read known column side wide =>
    obtain ⟨hknown, rfl⟩ := Option.ite_some_none_eq_some.mp hstep
    refine { h with answers := fun a ha => ?_ }
    rcases mem_append.mp ha with ha | ha
    · exact h.answers a ha
    · obtain ⟨counts, hcounts, rfl⟩ := map_eq_some_iff.mp (mem_toList.mp ha)
      exact ⟨hknown, h.answer hknown hok hcounts⟩

theorem upToDate_of_current (column : Text) (side : Option Nat) (wide : Option WideRead) :
    UpToDate l s (.read s.commits.length column side wide) :=
  ⟨fun i hi => lt_of_isAppend ((h.sideRead side).committed i hi),
    fun _ hfolded i hi => lt_of_isAppend ((h.foldedWide hfolded).committed i hi)⟩

end

end Exact

theorem exact_start : Exact l (State.start : State B T) where
  marked _ _ _ hremove := nomatch hremove
  sides _ hv := (not_mem_nil hv).elim
  wides _ hv := (not_mem_nil hv).elim
  answers _ ha := (not_mem_nil ha).elim

def numbered : Lineage := ⟨fun p => p, fun p => p, fun p q h => by simpa using h, fun p q h => by simpa using h⟩

def noBuckets : CountMerges Unit Unit Unit := ⟨(), (), (), fun _ _ => (), fun _ _ => (), fun _ _ => ()⟩

/-- An append of one row for each host, by a writer that leaves out of the side object a column of more values than the cap. -/
def hosts (cap : Nat) (names : List String) : Commit :=
  .append ⟨⟨cap, cap⟩, cap, [], ["host".toList], 1, false⟩ ⟨["host".toList], names.map fun name _ => some name.toList⟩

def runHosts (actions : List Action) : Option (State Unit Unit) :=
  Transition.run (step noBuckets numbered fun _ => .empty) .start actions

def inOrder : List Action :=
  [.commit (hosts 2 ["a", "b"]), .publish 2 [0], .commit (hosts 2 ["a"]), .commit .recluster, .publish 2 [1],
    .read 3 "host".toList (some 0) none]

def outOfOrder : List Action :=
  [.commit (hosts 1 ["a", "b"]), .publish 1 [0], .commit (hosts 1 ["d"]), .commit (hosts 1 ["c", "c"]), .publish 1 [2],
    .read 1 "host".toList (some 0) none]

def hostCounts (names : List String) : GroupCounts := groupCounts (names.map fun name => some name.toList)

/-- The inline counts derived from the wide ones are the counts under the smaller cap: the same columns, values and NULLs, and
none where no column fits. -/
theorem baseSubsetOf_fileGroupCounts (batch : RecordBatch) (columns : List Text) (c C : Nat) (h : c ≤ C) :
    ((fileGroupCounts columns C batch).nonempty.bind fun wide => wide.baseSubsetOf c) =
      (fileGroupCounts columns c batch).nonempty := by
  rw [← retainWithin_fileGroupCounts columns h batch]
  unfold FileGroupCounts.nonempty
  split
  · next hempty =>
    have hnone : ((fileGroupCounts columns C batch).retainWithin c).columns.entries = [] :=
      (congrArg (filter _) hempty).trans rfl
    exact (if_pos hnone).symm
  · rfl

theorem two_values_over_cap :
    (((fileGroupCounts [[]] 2 fun _ => some [some ['a'], none, some ['b']]).nonempty.bind fun wide => wide.baseSubsetOf 1) =
      (fileGroupCounts [[]] 1 fun _ => some [some ['a'], none, some ['b']]).nonempty) ∧
      (fileGroupCounts [[]] 2 fun _ => some [some ['a'], none, some ['b']]).nonempty.isSome = true :=
  ⟨baseSubsetOf_fileGroupCounts _ _ 1 2 (by decide), by decide +kernel⟩

end LogLake.Tier1
