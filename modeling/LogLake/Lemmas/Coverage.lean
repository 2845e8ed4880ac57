import LogLake.Aggregates.Coverage

/-! # Coverage over a linear history -/

namespace LogLake

open List
open Appends (edge run edgeId link)

namespace AppendHistory

variable (h : AppendHistory) {i j : Nat}

theorem edgeId_inj (hi : i ≤ h.length) (hj : j ≤ h.length) : h.edgeId i = h.edgeId j ↔ i = j :=
  ⟨h.ids_distinct i hi j hj, fun hij => hij ▸ rfl⟩

theorem run_head {r : Nat × Nat} (hr : r.1 < r.2) : some (h.run r).head = h.edge r.2 := by
  obtain ⟨m, hm⟩ : ∃ m, r.2 = m + 1 := ⟨r.2 - 1, by omega⟩
  rw [hm, edge, run, AggregateCoverageLink.head, hm, Nat.add_sub_cancel]

theorem run_snapshotId {r : Nat × Nat} (hr : r.1 < r.2) : some (h.run r).snapshotId = h.edgeId r.2 := by
  rw [edgeId, ← h.run_head hr]
  rfl

theorem link_snapshotId (i : Nat) : some (h.link i).snapshotId = h.edgeId (i + 1) := rfl

theorem sequence_lt_iff (hi : i < h.length) (hj : j < h.length) :
    (h.appended i).sequenceNumber < (h.appended j).sequenceNumber ↔ i < j := by
  have hmono : ∀ {a b : Nat}, b < h.length → a < b →
      (h.appended a).sequenceNumber < (h.appended b).sequenceNumber := by
    intro a b hb hab
    exact h.sequence_increasing (b + 1) (by omega) (a + 1) (by omega) _ rfl _ rfl
  constructor
  · intro hlt
    by_contra hji
    rcases Nat.lt_or_eq_of_le (Nat.le_of_not_lt hji) with hji | rfl
    · exact absurd (hmono hi hji) (not_lt_of_gt hlt)
    · exact lt_irrefl _ hlt
  · exact hmono hj

theorem sequence_inj (hi : i < h.length) (hj : j < h.length) :
    (h.appended i).sequenceNumber = (h.appended j).sequenceNumber ↔ i = j := by
  constructor
  · intro heq
    rcases Nat.lt_trichotomy i j with hlt | hij | hgt
    · exact absurd heq (ne_of_lt ((h.sequence_lt_iff hi hj).mpr hlt))
    · exact hij
    · exact absurd heq.symm (ne_of_lt ((h.sequence_lt_iff hj hi).mpr hgt))
  · rintro rfl
    rfl

end AppendHistory

theorem eraseP_of_find? {α : Type} {p : α → Bool} {l : List α} {a : α} (hfind : l.find? p = some a) :
    ∃ l₁ l₂, l = l₁ ++ a :: l₂ ∧ l.eraseP p = l₁ ++ l₂ := by
  obtain ⟨ha, l₁, l₂, rfl, hl₁⟩ := List.find?_eq_some_iff_append.mp hfind
  refine ⟨l₁, l₂, rfl, ?_⟩
  rw [eraseP_append_right _ (by simpa using hl₁), eraseP_cons_of_pos ha]

theorem modify_of_findIdx? {α : Type} {p : α → Bool} {l : List α} {pos : Nat} (hfind : l.findIdx? p = some pos)
    (f : α → α) : ∃ l₁ a l₂, l = l₁ ++ a :: l₂ ∧ p a ∧ l.modify pos f = l₁ ++ f a :: l₂ := by
  obtain ⟨hpos, hp, -⟩ := List.findIdx?_eq_some_iff_getElem.mp hfind
  obtain ⟨l₁, a, l₂, rfl, rfl, hmodify⟩ := exists_of_modify f hpos
  exact ⟨l₁, a, l₂, rfl, by simpa using hp, hmodify⟩

/-- The appends that runs stand for. -/
def spans (runs : List (Nat × Nat)) : List Nat := runs.flatMap fun r => List.Ico r.1 r.2

variable {i : Nat}

theorem mem_spans {runs : List (Nat × Nat)} : i ∈ spans runs ↔ ∃ r ∈ runs, r.1 ≤ i ∧ i < r.2 := by
  simp [spans]

theorem spans_perm {runs runs' : List (Nat × Nat)} (hp : runs.Perm runs') : (spans runs).Perm (spans runs') :=
  hp.flatMap_right _

/-- The object holds the appends added: those below its edge, and those of its pending runs, each once. -/
structure Tracks {κ : Type} (h : AppendHistory) (added : List Nat) (k : Nat) (runs : List (Nat × Nat))
    (s : SnapshotAggregates κ) : Prop where
  coverage : s.coverage = h.edge k
  pending : s.coverageLinks = runs.map h.run
  within : k ≤ h.length
  proper : ∀ r ∈ runs, r.1 < r.2 ∧ r.2 ≤ h.length
  held : (List.range k ++ spans runs).Perm added

/-- Also, no pending run starts at the edge. -/
structure Joined {κ : Type} (h : AppendHistory) (added : List Nat) (k : Nat) (runs : List (Nat × Nat))
    (s : SnapshotAggregates κ) : Prop extends Tracks h added k runs s where
  apart : ∀ r ∈ runs, r.1 ≠ k

theorem joined_start {κ : Type} (h : AppendHistory) (counts : κ) : Joined h [] 0 [] (h.start counts) where
  coverage := rfl
  pending := rfl
  within := Nat.zero_le _
  proper := by simp
  held := List.Perm.nil
  apart := by simp

namespace Tracks

variable {κ : Type} {h : AppendHistory} {added : List Nat} {k : Nat} {runs : List (Nat × Nat)} {s : SnapshotAggregates κ}

theorem edgeId_eq (ht : Tracks h added k runs s) : s.edgeId = h.edgeId k := by
  rw [SnapshotAggregates.edgeId, ht.coverage, edgeId]

section

variable (ht : Tracks h added k runs s)
include ht

theorem mem_added : i ∈ added ↔ i < k ∨ ∃ r ∈ runs, r.1 ≤ i ∧ i < r.2 := by
  rw [← ht.held.mem_iff, mem_append, mem_range, mem_spans]

/-! ## The join -/

theorem parent_iff {r : Nat × Nat} (hr : r ∈ runs) : (h.run r).parentSnapshotId = s.edgeId ↔ r.1 = k := by
  rw [ht.edgeId_eq]
  exact h.edgeId_inj (by have := ht.proper r hr; omega) ht.within

/-- The next pending run is joined, or none starts at the edge. -/
theorem joinNext_cases : (s.joinNext = none ∧ ∀ r ∈ runs, r.1 ≠ k) ∨
      ∃ s' k' runs', s.joinNext = some s' ∧ Tracks h added k' runs' s' ∧
        s'.coverageLinks.length + 1 = s.coverageLinks.length := by
  unfold SnapshotAggregates.joinNext
  cases hfind : s.coverageLinks.find? fun pending => pending.parentSnapshotId = s.edgeId with
  | none =>
    refine .inl ⟨rfl, ?_⟩
    intro r hr hk
    rw [List.find?_eq_none, ht.pending] at hfind
    exact hfind (h.run r) (mem_map_of_mem hr) (by simpa using (ht.parent_iff hr).mpr hk)
  | some next =>
    have hparent : next.parentSnapshotId = s.edgeId := by simpa using List.find?_some hfind
    obtain ⟨l₁, l₂, hlinks, herase⟩ := eraseP_of_find? hfind
    -- the entries around the one found are the runs around its own
    obtain ⟨runs₁, rest, rfl, rfl, hrest⟩ := map_eq_append_iff.mp (ht.pending.symm.trans hlinks)
    obtain ⟨r, runs₂, rfl, rfl, rfl⟩ := map_eq_cons_iff.mp hrest
    have hr := ht.proper r (by simp)
    have hk : r.1 = k := (ht.parent_iff (by simp)).mp hparent
    refine .inr ⟨_, r.2, runs₁ ++ runs₂, rfl, ⟨h.run_head hr.1, ?_, hr.2, ?_, ?_⟩, ?_⟩
    · rw [herase, map_append]
    · intro r' hr'
      exact ht.proper r' (by simp only [mem_append, mem_cons] at hr' ⊢; tauto)
    · refine List.Perm.trans ?_ ht.held
      have hrange : List.range r.2 = List.range k ++ List.Ico r.1 r.2 := by
        rw [← List.Ico.zero_bot, ← List.Ico.zero_bot, hk]
        exact (List.Ico.append_consecutive (Nat.zero_le _) (by omega)).symm
      have hspans : (spans (r :: (runs₁ ++ runs₂))).Perm (spans (runs₁ ++ r :: runs₂)) :=
        spans_perm perm_middle.symm
      rw [hrange, append_assoc]
      exact hspans.append_left _
    · rw [herase, hlinks]
      simp
      omega

theorem joinLoop {turns : Nat} (hturns : s.coverageLinks.length ≤ turns) :
    ∃ k' runs', Joined h added k' runs' (SnapshotAggregates.joinLoop turns s) := by
  induction turns generalizing s k runs with
  | zero =>
    have hnil : runs = [] := by
      have := ht.pending ▸ hturns
      simpa using this
    subst hnil
    exact ⟨k, [], ht, by simp⟩
  | succ turns ih =>
    rcases ht.joinNext_cases with ⟨hnone, hapart⟩ | ⟨s', k', runs', hsome, ht', hlen⟩
    · refine ⟨k, runs, ?_, hapart⟩
      simpa [SnapshotAggregates.joinLoop, hnone] using ht
    · simpa [SnapshotAggregates.joinLoop, hsome] using ih ht' (by omega)

/-- Joining ends with no pending run at the edge. -/
theorem joinPendingLinks : ∃ k' runs', Joined h added k' runs' s.joinPendingLinks := ht.joinLoop le_rfl

/-! ## A new link -/

theorem sort : ∃ runs', Tracks h added k runs'
    { s with coverageLinks := s.coverageLinks.insertionSort fun p q => p.sequenceNumber ≤ q.sequenceNumber } := by
  have hperm := perm_insertionSort (fun r r' => (h.run r).sequenceNumber ≤ (h.run r').sequenceNumber) runs
  refine ⟨_, ht.coverage, ?_, ht.within, ?_, ((spans_perm hperm).append_left _).trans ht.held⟩
  · rw [ht.pending]
    exact (map_insertionSort (r := fun r r' => (h.run r).sequenceNumber ≤ (h.run r').sequenceNumber)
      (s := fun p q => p.sequenceNumber ≤ q.sequenceNumber) h.run runs fun _ _ _ _ => Iff.rfl).symm
  · intro r hr
    exact ht.proper r (hperm.mem_iff.mp hr)

theorem ends_iff {r : Nat × Nat} (hr : r ∈ runs) (hi : i < h.length) :
    some (h.run r).snapshotId = (h.link i).parentSnapshotId ↔ r.2 = i := by
  have hproper := ht.proper r hr
  rw [h.run_snapshotId hproper.1]
  exact h.edgeId_inj hproper.2 hi.le

theorem extendOrPush (hi : i < h.length) : ∃ runs', Tracks h (i :: added) k runs'
      { s with coverageLinks := SnapshotAggregates.extendOrPush s.coverageLinks (h.link i) } := by
  unfold SnapshotAggregates.extendOrPush
  cases hfind : s.coverageLinks.findIdx? fun pending => some pending.snapshotId = (h.link i).parentSnapshotId with
  | none =>
    refine ⟨runs ++ [(i, i + 1)], ht.coverage, ?_, ht.within, ?_, ?_⟩
    · simp [ht.pending, link]
    · intro r hr
      rcases mem_append.mp hr with hr | hr
      · exact ht.proper r hr
      · obtain rfl := mem_singleton.mp hr
        exact ⟨Nat.lt_succ_self i, hi⟩
    · have hspans : spans (runs ++ [(i, i + 1)]) = spans runs ++ [i] := by simp [spans]
      rw [hspans, ← append_assoc]
      exact perm_append_comm.trans (List.Perm.cons i ht.held)
  | some pos =>
    obtain ⟨l₁, pending, l₂, hlinks, hends, hmodify⟩ := modify_of_findIdx? hfind fun pending =>
      { pending with snapshotId := (h.link i).snapshotId, sequenceNumber := (h.link i).sequenceNumber }
    obtain ⟨runs₁, rest, rfl, rfl, hrest⟩ := map_eq_append_iff.mp (ht.pending.symm.trans hlinks)
    obtain ⟨r, runs₂, rfl, rfl, rfl⟩ := map_eq_cons_iff.mp hrest
    have hr := ht.proper r (by simp)
    have hend : r.2 = i := (ht.ends_iff (by simp) hi).mp (by simpa using hends)
    refine ⟨runs₁ ++ (r.1, i + 1) :: runs₂, ht.coverage, ?_, ht.within, ?_, ?_⟩
    · dsimp only
      rw [hmodify, map_append, map_cons]
      rfl
    · intro r' hr'
      rcases mem_append.mp hr' with hr' | hr'
      · exact ht.proper r' (by simp [hr'])
      rcases mem_cons.mp hr' with rfl | hr'
      · exact ⟨by omega, hi⟩
      · exact ht.proper r' (by simp [hr'])
    · have hico : List.Ico r.1 (i + 1) = List.Ico r.1 r.2 ++ [i] := by
        rw [hend]
        exact List.Ico.succ_top (by omega)
      refine perm_iff_count.mpr fun j => ?_
      have hcount := ht.held.count_eq j
      simp only [spans, flatMap_append, flatMap_cons, count_append, hico, count_cons, count_nil] at hcount ⊢
      omega

theorem link_new (hi : i < h.length) (hnew : i ∉ added) : s.edgeId ≠ some (h.link i).snapshotId ∧
      ∀ pending ∈ s.coverageLinks, pending.sequenceNumber ≠ (h.link i).sequenceNumber := by
  rw [ht.mem_added] at hnew
  constructor
  · rw [ht.edgeId_eq, h.link_snapshotId, ne_eq, h.edgeId_inj ht.within hi]
    omega
  · rw [ht.pending]
    intro pending hpending hseq
    obtain ⟨r, hr, rfl⟩ := mem_map.mp hpending
    have hproper := ht.proper r hr
    have hlast : r.2 - 1 = i := (h.sequence_inj (by omega) hi).mp hseq
    exact hnew (.inr ⟨r, hr, by omega, by omega⟩)

/-- A new link is joined, wherever it falls. -/
theorem addCoverageLink (hi : i < h.length) (hnew : i ∉ added) :
    ∃ k' runs', Joined h (i :: added) k' runs' (s.addCoverageLink (h.link i)) := by
  obtain ⟨hedge, hseq⟩ := ht.link_new hi hnew
  have hkept : (s.coverageLinks.filter fun pending => pending.sequenceNumber ≠ (h.link i).sequenceNumber) =
      s.coverageLinks := filter_eq_self.mpr fun pending hpending => by simpa using hseq pending hpending
  obtain ⟨runs₁, ht₁⟩ := ht.extendOrPush hi
  obtain ⟨runs₂, ht₂⟩ := ht₁.sort
  unfold SnapshotAggregates.addCoverageLink
  rw [if_neg hedge, hkept]
  exact ht₂.joinPendingLinks

end

end Tracks

/-! ## What a joined object says -/

namespace Joined

variable {κ : Type} {h : AppendHistory} {added : List Nat} {k : Nat} {runs : List (Nat × Nat)} {s : SnapshotAggregates κ}

section

variable (hj : Joined h added k runs s)
include hj

section

variable (hnodup : added.Nodup)
include hnodup

theorem above {r : Nat × Nat} (hr : r ∈ runs) : k < r.1 := by
  by_contra hle
  have hproper := hj.proper r hr
  have happ := hj.held.nodup_iff.mpr hnodup
  have hdisjoint := disjoint_of_nodup_append happ
  have hne := hj.apart r hr
  exact hdisjoint (mem_range.mpr (by omega)) (mem_spans.mpr ⟨r, hr, le_rfl, hproper.1⟩)

theorem edge_not_mem : k ∉ added := by
  rw [hj.mem_added]
  rintro (hlt | ⟨r, hr, hle, -⟩)
  · exact lt_irrefl k hlt
  · exact absurd (hj.above hnodup hr) (by omega)

/-- The edge is the last commit up to which everything was added. -/
theorem isGreatest : IsGreatest {k | k ≤ h.length ∧ ∀ i < k, i ∈ added} k := by
  refine ⟨⟨hj.within, fun i hi => hj.mem_added.mpr (.inl hi)⟩, ?_⟩
  rintro k' ⟨-, hall⟩
  by_contra hlt
  exact hj.edge_not_mem hnodup (hall k (by omega))

theorem spans_perm_filter : (spans runs).Perm (added.filter (k ≤ ·)) := by
  have hbelow : (List.range k).filter (k ≤ ·) = [] := by simp
  have habove : (spans runs).filter (k ≤ ·) = spans runs := by
    rw [filter_eq_self]
    intro i hi
    obtain ⟨r, hr, hle, -⟩ := mem_spans.mp hi
    have := hj.above hnodup hr
    simp only [decide_eq_true_eq]
    omega
  have hheld := hj.held.filter (k ≤ ·)
  rwa [filter_append, hbelow, habove, nil_append] at hheld

end

theorem edgePast_iff (hi : i < h.length) : s.EdgePast (h.link i) ↔ i < k := by
  have hid : ∀ edge ∈ h.edge k, edge.snapshotId = (h.link i).snapshotId ↔ k = i + 1 := by
    intro edge hedge
    rw [← h.edgeId_inj hj.within (Nat.succ_le_of_lt hi), Nat.succ_eq_add_one, ← h.link_snapshotId, edgeId, hedge]
    exact (Option.some_inj (a := edge.snapshotId)).symm
  unfold SnapshotAggregates.EdgePast
  rw [hj.coverage]
  cases k with
  | zero =>
    refine iff_of_false ?_ (Nat.not_lt_zero i)
    rintro ⟨edge, hedge, hsame | hpast⟩
    · exact absurd ((hid edge hedge).mp hsame) (by omega)
    · exact lt_asymm hpast (h.sequence_increasing (i + 1) hi 0 (Nat.succ_pos i) edge hedge _ rfl)
  | succ m =>
    have hpast : (h.link i).sequenceNumber < (h.appended m).sequenceNumber ↔ i < m :=
      h.sequence_lt_iff hi hj.within
    constructor
    · rintro ⟨edge, hedge, hsame | hlt⟩
      · have := (hid edge hedge).mp hsame
        omega
      · cases hedge
        have := hpast.mp hlt
        omega
    · intro hlt
      refine ⟨_, rfl, ?_⟩
      rcases Nat.lt_or_eq_of_le (Nat.le_of_lt_succ hlt) with hbelow | rfl
      · exact .inr (hpast.mpr hbelow)
      · exact .inl rfl

theorem carries_iff {r : Nat × Nat} (hr : r ∈ runs) (hi : i < h.length) :
    SnapshotAggregates.Carries (h.run r) (h.link i) ↔ r.2 = i + 1 ∨ r.1 = i := by
  have hproper := hj.proper r hr
  have hseq : (h.run r).sequenceNumber = (h.link i).sequenceNumber ↔ r.2 - 1 = i :=
    h.sequence_inj (by omega) hi
  have hreach : (h.link i).sequenceNumber ≤ (h.run r).sequenceNumber ↔ i ≤ r.2 - 1 := by
    rw [← not_lt, ← not_lt]
    exact not_congr (h.sequence_lt_iff (by omega) hi)
  have hparent : (h.run r).parentSnapshotId = (h.link i).parentSnapshotId ↔ r.1 = i :=
    h.edgeId_inj (by omega) hi.le
  have hid : r.2 = i + 1 → (h.run r).snapshotId = (h.link i).snapshotId := by
    intro hend
    simp [link, run, hend]
  unfold SnapshotAggregates.Carries
  rw [hseq, hreach, hparent]
  constructor
  · rintro (⟨-, hlast⟩ | ⟨hfirst, -⟩)
    · exact .inl (by omega)
    · exact .inr hfirst
  · rintro (hlast | hfirst)
    · exact .inl ⟨hid hlast, by omega⟩
    · exact .inr ⟨hfirst, by omega⟩

/-- A link is evidenced that lies below the edge or ends a pending run. -/
theorem evidences_iff (hi : i < h.length) : s.Evidences (h.link i) ↔ i < k ∨ ∃ r ∈ runs, r.2 = i + 1 ∨ r.1 = i := by
  unfold SnapshotAggregates.Evidences
  rw [hj.edgePast_iff hi, hj.pending]
  refine or_congr_right ?_
  constructor
  · rintro ⟨pending, hpending, hcarries⟩
    obtain ⟨r, hr, rfl⟩ := mem_map.mp hpending
    exact ⟨r, hr, (hj.carries_iff hr hi).mp hcarries⟩
  · rintro ⟨r, hr, hends⟩
    exact ⟨h.run r, mem_map_of_mem hr, (hj.carries_iff hr hi).mpr hends⟩

end

end Joined

end LogLake
