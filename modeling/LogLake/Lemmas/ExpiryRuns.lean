import LogLake.Lemmas.CoverageGrowth
import LogLake.Lemmas.CoverageWalk

/-! # Expiry beside publications, step by step -/

namespace LogLake.Expiry

open List Option AppendHistory
open State (start)

variable {G B T : Type} {m : CountMerges G B T} {l : Lineage} {delta : Nat → SideCounts G B T}
  {initial : SideCounts G B T} {s : State G B T}

/-! ## The invariant -/

/-- A write that was sent: a publication's was made from an object without its delta, a re-root's from one with the proven edge. -/
def Prepared (m : CountMerges G B T) (delta : Nat → SideCounts G B T) (links : List AggregateCoverageLink) (phase : Phase)
    (object : Option (SnapshotAggregates (SideCounts G B T)))
    (write : Option Nat × SnapshotAggregates (SideCounts G B T)) : Prop :=
  match write.1 with
  | some i => ∃ link, links[i]? = some link ∧ ¬(object.getD .empty).Evidences link ∧
      ¬InsideRun links (object.getD .empty) i ∧
      write.2 = (PendingSideAggDeltas.ofCommit m (delta i) link).applyTo m (object.getD .empty)
  | none => ∃ proven target version side, phase = .sent proven target version ∧ object = some side ∧
      write.2 = side.rerootCoverage target

/-- The last snapshot of the chain is where the walk from the current snapshot ends. -/
structure Tip (l : Lineage) (kinds : List CommitKind) (expired : List Int) (h : AppendHistory) (v : Nat) : Prop where
  bridge : Bridge l kinds expired v (kinds.length - 1)
  ground : Grounded l kinds expired v
  edge : h.edge h.length = some (l.edgeAt v)
  below : ∀ j ≤ h.length, ∀ e ∈ h.edge j, ∃ p ≤ v, e = l.edgeAt p

/-- The edge has to move from the end of the chain, all of which the object holds. -/
structure Moves (l : Lineage) (kinds : List CommitKind) (h : AppendHistory) (added : List Nat) (expiring : List Int)
    (reroot : Option (AggregateCoverage × AggregateCoverage)) : Prop where
  held : ∀ j < h.length, j ∈ added
  target : ∃ v t, v < t ∧ h.edge h.length = some (l.edgeAt v) ∧ Bridge l kinds expiring t (kinds.length - 1) ∧
    Grounded l kinds expiring t ∧ reroot = some (l.edgeAt v, l.edgeAt t)

/-- The object holds the chain up to the snapshot that the edge has to move to. -/
def Awaits (h : AppendHistory) (added : List Nat) (gap : Option Nat) (proven target : AggregateCoverage) : Prop :=
  ∃ k, gap = some k ∧ h.edge k = some proven ∧ h.appended k = target ∧ ∀ j < k, j ∈ added

def PhaseKnows (l : Lineage) (s : State G B T) (h : AppendHistory) (added : List Nat) (gap : Option Nat) : Prop :=
  match s.phase with
  | .idle => s.expired = [] ∧ gap = none
  | .loaded commits expiring => s.expired = [] ∧ gap = none ∧ commits ≤ s.kinds.length ∧ l.id (commits - 1) ∉ expiring
  | .decided commits expiring reroot => s.expired = [] ∧ gap = none ∧ commits ≤ s.kinds.length ∧
      (l.Spares (s.kinds.take commits) expiring → reroot = none) ∧
      (¬l.Spares (s.kinds.take commits) expiring → commits = s.kinds.length → Moves l s.kinds h added expiring reroot)
  | .committed proven target => Awaits h added gap proven target
  | .sent proven target version => Awaits h added gap proven target ∧ version = s.store.version
  | .done => gap = none

/-- The chain, the place in it of every append, what the object holds of it, the place that a re-root has added, and the place
that one still has to add. -/
structure Chained (m : CountMerges G B T) (l : Lineage) (delta : Nat → SideCounts G B T) (initial : SideCounts G B T)
    (s : State G B T) (h : AppendHistory) (slots added rooted : List Nat) (gap : Option Nat) : Prop where
  links : s.links = slots.map h.link
  within : ∀ j ∈ slots, j < h.length
  increasing : slots.Pairwise (· < ·)
  entries : ∀ j < h.length, j ∈ slots ∨ j ∈ rooted ∨ gap = some j
  unslotted : ∀ j ∈ slots, j ∉ rooted ∧ gap ≠ some j
  awaited : ∀ j, gap = some j → j < h.length ∧ j ∉ rooted
  placed : ∀ i ∈ s.merged, i < slots.length
  merged_nodup : s.merged.Nodup
  added_nodup : added.Nodup
  mem_added : ∀ j, j ∈ added ↔ j ∈ rooted ∨ ∃ i ∈ s.merged, slots[i]? = some j
  rooted_added : ∀ j ∈ rooted, ∀ i ≤ j, i ∈ added
  joined : ∃ k runs, Joined h added k runs s.side
  counts : s.side.counts = s.merged.foldr (fun i acc => acc.apply m (delta i)) initial
  current : s.store.Current (Prepared m delta s.links s.phase)
  tip : s.kinds = [] ∧ h.length = 0 ∧ h.root = none ∨ ∃ v, Tip l s.kinds s.expired h v
  expired : ∀ id ∈ s.expired, ∃ p < s.kinds.length, id = l.id p
  phase : PhaseKnows l s h added gap

/-- The object tracks a chain. -/
def Sound (m : CountMerges G B T) (l : Lineage) (delta : Nat → SideCounts G B T) (initial : SideCounts G B T)
    (s : State G B T) : Prop :=
  ∃ h slots added rooted gap, Chained m l delta initial s h slots added rooted gap

theorem sound_start (l : Lineage) (base : Option CommitKind) (counts : SideCounts G B T) :
    Sound m l delta (start l base counts).side.counts (.start l base counts) := by
  have hstart : ∀ root side, (start l base counts).side = side → side.coverage = root → side.coverageLinks = [] →
      ∃ k runs, Joined (ofRoot root) [] k runs (start l base counts).side := by
    intro root side hside hcoverage hlinks
    rw [hside]
    exact ⟨0, [], ⟨⟨hcoverage, hlinks, Nat.le_refl 0, by simp, List.Perm.nil⟩, by simp⟩⟩
  have hchained : ∀ root, (∃ k runs, Joined (ofRoot root) [] k runs (start l base counts).side) →
      ((start l base counts).kinds = [] ∧ (ofRoot root).length = 0 ∧ (ofRoot root).root = none ∨
        ∃ v, Tip l (start l base counts).kinds (start l base counts).expired (ofRoot root) v) →
      Sound m l delta (start l base counts).side.counts (.start l base counts) := by
    intro root hjoined htip
    refine ⟨ofRoot root, [], [], [], none, ?_⟩
    exact
      { links := rfl
        within := by simp
        increasing := List.Pairwise.nil
        entries := fun j hj => absurd hj (Nat.not_lt_zero j)
        unslotted := by simp
        awaited := fun j hj => by cases hj
        placed := fun i hi => absurd hi not_mem_nil
        merged_nodup := nodup_nil
        added_nodup := nodup_nil
        mem_added := fun j => by simp [start]
        rooted_added := by simp
        joined := hjoined
        counts := rfl
        current := ConditionalStore.current_init _
        tip := htip
        expired := fun id hid => absurd hid not_mem_nil
        phase := ⟨rfl, rfl⟩ }
  cases base with
  | none => exact hchained none (hstart none _ rfl rfl rfl) (.inl ⟨rfl, rfl, rfl⟩)
  | some kind =>
    refine hchained (some (l.edgeAt 0)) (hstart _ _ rfl rfl rfl) (.inr ⟨0, ?_⟩)
    refine ⟨⟨Nat.le_refl 0, Nat.zero_lt_one, fun p hp hp' => ?_, fun _ _ _ => not_mem_nil⟩, .inl rfl, rfl, ?_⟩
    · change p ≤ 0 at hp'
      omega
    · intro j hj e he
      obtain rfl : j = 0 := Nat.le_zero.mp hj
      exact ⟨0, Nat.le_refl 0, (some.inj he).symm⟩

theorem Lineage.newer {h : AppendHistory} {n : Nat} (hn : ∀ j ≤ h.length, ∀ e ∈ h.edge j, ∃ p < n, e = l.edgeAt p) :
    h.Newer (l.edgeAt n) := by
  refine ⟨fun j hj hid => ?_, fun j hj f hf => ?_⟩
  · obtain ⟨e, he, hsame⟩ := map_eq_some_iff.mp hid
    obtain ⟨p, hp, rfl⟩ := hn j hj e he
    have := l.id_injective _ _ hsame
    omega
  · obtain ⟨p, hp, rfl⟩ := hn j hj f hf
    exact l.sequence_increasing p n hp

namespace Chained

variable {h : AppendHistory} {slots added rooted : List Nat} {gap : Option Nat}

/-! ## What the invariant says -/

variable {j : Nat}

section

variable (hc : Chained m l delta initial s h slots added rooted gap)
include hc

theorem added_lt (hj : j ∈ added) : j < h.length := by
  obtain ⟨k, runs, hjoined⟩ := hc.joined
  have hwithin := hjoined.within
  rcases hjoined.mem_added.mp hj with hlt | ⟨r, hr, _, hlt⟩
  · omega
  · have := hjoined.proper r hr
    omega

theorem edge_committed (hj : j ≤ h.length)
    {e : AggregateCoverage} (he : e ∈ h.edge j) : ∃ p < s.kinds.length, e = l.edgeAt p := by
  rcases hc.tip with ⟨-, hlength, hroot⟩ | ⟨v, htip⟩
  · obtain rfl : j = 0 := by omega
    rw [Appends.edge, hroot] at he
    cases he
  · obtain ⟨p, hp, rfl⟩ := htip.below j hj e he
    exact ⟨p, Nat.lt_of_le_of_lt (hp.trans htip.bridge.le) htip.bridge.lt, rfl⟩

theorem fresh : l.id s.kinds.length ∉ s.expired := by
  intro hid
  obtain ⟨p, hp, heq⟩ := hc.expired _ hid
  have := l.id_injective _ _ heq
  omega

end

variable {i : Nat} {link : AggregateCoverageLink}

section

variable (hc : Chained m l delta initial s h slots added rooted gap)
include hc

theorem link_eq (hlink : s.links[i]? = some link) : ∃ j, slots[i]? = some j ∧ j < h.length ∧ link = h.link j := by
  rw [hc.links, List.getElem?_map] at hlink
  obtain ⟨j, hj, rfl⟩ := map_eq_some_iff.mp hlink
  exact ⟨j, hj, hc.within j (mem_of_getElem? hj), rfl⟩

theorem slot_lt {i' j' : Nat} (hj : slots[i]? = some j) (hj' : slots[i']? = some j') (hlt : j < j') : i < i' := by
  obtain ⟨hi, rfl⟩ := List.getElem?_eq_some_iff.mp hj
  obtain ⟨hi', rfl⟩ := List.getElem?_eq_some_iff.mp hj'
  by_contra hle
  rcases Nat.lt_or_eq_of_le (Nat.le_of_not_lt hle) with hgt | rfl
  · exact absurd (pairwise_iff_getElem.mp hc.increasing i' i hi' hi hgt) (by omega)
  · exact lt_irrefl _ hlt

theorem merged_of_added (hj : slots[i]? = some j) (hadded : j ∈ added) : i ∈ s.merged := by
  rcases (hc.mem_added j).mp hadded with hrooted | ⟨i', hi', hj'⟩
  · exact absurd hrooted (hc.unslotted j (mem_of_getElem? hj)).1
  · obtain ⟨hi, rfl⟩ := List.getElem?_eq_some_iff.mp hj
    obtain ⟨hi'', heq⟩ := List.getElem?_eq_some_iff.mp hj'
    have hnodup : slots.Nodup := hc.increasing.imp fun hlt => Nat.ne_of_lt hlt
    exact (List.Nodup.getElem_inj_iff hnodup).mp heq ▸ hi'

theorem insideRun (hj : slots[i]? = some j) (hin : h.Enclosed s.side j) : InsideRun s.links s.side i := by
  obtain ⟨k, runs, hjoined⟩ := hc.joined
  have hlt := hc.within j (mem_of_getElem? hj)
  obtain ⟨r, hr, hstart, hend⟩ := (hjoined.enclosed_iff hlt).mp hin
  have hproper := hjoined.proper r hr
  have hfirst : r.1 ∈ added := hjoined.mem_added.mpr (.inr ⟨r, hr, le_rfl, hproper.1⟩)
  have hnotRooted : r.1 ∉ rooted := by
    intro hrooted
    -- everything below a re-root is joined, and runs lie above the edge
    have hedge := hjoined.above hc.added_nodup hr
    exact hjoined.edge_not_mem hc.added_nodup (hc.rooted_added r.1 hrooted k (by omega))
  obtain ⟨i', -, hi'⟩ := ((hc.mem_added r.1).mp hfirst).resolve_left hnotRooted
  have hbefore := hc.slot_lt hi' hj hstart
  refine ⟨h.run r, ?_, ⟨h.link r.1, ?_, rfl⟩, h.link j, ?_, (h.sequence_lt_iff hlt (by omega)).mpr (by omega)⟩
  · rw [hjoined.pending]
    exact mem_map_of_mem hr
  · refine mem_of_getElem? (i := i') ?_
    rw [List.getElem?_take_of_lt hbefore, hc.links, List.getElem?_map, hi', map_some]
  · rw [hc.links, List.getElem?_map, hj, map_some]
    rfl

/-- An object that holds every append covers the last one. -/
theorem coverage_of_held (hheld : ∀ j < h.length, j ∈ added) : s.side.coverage = h.edge h.length := by
  obtain ⟨k, runs, hjoined⟩ := hc.joined
  have hle := hjoined.le_edge hc.added_nodup le_rfl hheld
  rw [hjoined.coverage, Nat.le_antisymm hjoined.within hle]

/-- With every link merged and no gap, every append is held. -/
theorem held_of_merged (hgap : gap = none) (hall : ∀ i < s.links.length, i ∈ s.merged) : ∀ j < h.length, j ∈ added := by
  intro j hj
  rcases hc.entries j hj with hslot | hrooted | hawaited
  · obtain ⟨i, hi, hij⟩ := getElem_of_mem hslot
    have hlength : i < s.links.length := by rw [hc.links, length_map]; exact hi
    exact (hc.mem_added j).mpr (.inr ⟨i, hall i hlength, List.getElem?_eq_some_iff.mpr ⟨hi, hij⟩⟩)
  · exact (hc.mem_added j).mpr (.inl hrooted)
  · rw [hgap] at hawaited
    cases hawaited

end

/-! ## Writes under way -/

variable {links : List AggregateCoverageLink}

theorem insideRun_append {κ : Type} {side : SnapshotAggregates κ} (hi : i < links.length) :
    InsideRun (links ++ [link]) side i ↔ InsideRun links side i := by
  rw [InsideRun, InsideRun, take_append_of_le_length hi.le, List.getElem?_append_left hi]

theorem prepared_append {phase : Phase}
    {object : Option (SnapshotAggregates (SideCounts G B T))} {write : Option Nat × SnapshotAggregates (SideCounts G B T)}
    (hp : Prepared m delta links phase object write) : Prepared m delta (links ++ [link]) phase object write := by
  obtain ⟨writer, body⟩ := write
  cases writer with
  | none => exact hp
  | some i =>
    obtain ⟨own, hown, hev, hin, hbody⟩ := hp
    have hi := (List.getElem?_eq_some_iff.mp hown).1
    refine ⟨own, ?_, hev, ?_, hbody⟩
    · rw [List.getElem?_append_left hi]
      exact hown
    · rw [insideRun_append hi]
      exact hin

section

variable (hc : Chained m l delta initial s h slots added rooted gap)
include hc

section

variable (hsent : ∀ proven target version, s.phase ≠ .sent proven target version)
include hsent

theorem current_phase (phase : Phase) : s.store.Current (Prepared m delta s.links phase) := by
  refine hc.current.imp fun object write hp => ?_
  obtain ⟨writer, body⟩ := write
  cases writer with
  | some i => exact hp
  | none =>
    obtain ⟨proven, target, version, side, hphase, -⟩ := hp
    exact absurd hphase (hsent proven target version)

theorem withPhase {phase : Phase} (hknows : PhaseKnows l { s with phase } h added gap) :
    Chained m l delta initial { s with phase } h slots added rooted gap :=
  { hc with current := hc.current_phase hsent phase, phase := hknows }

end

end

end Chained

end LogLake.Expiry
