import LogLake.Lemmas.ExpiryRuns

/-! # The steps of an expiry and of the publications beside it -/

namespace LogLake.Expiry

open List Nat AppendHistory SnapshotAggregates

variable {G B T : Type} {m : CountMerges G B T} {l : Lineage} {delta : Nat → SideCounts G B T}
  {initial : SideCounts G B T} {s s' : State G B T}

theorem Lineage.below_snoc {h : AppendHistory} {n : Nat} (hnew : h.Newer (l.edgeAt n))
    (hbelow : ∀ j ≤ h.length, ∀ e ∈ h.edge j, ∃ p < n, e = l.edgeAt p) :
    ∀ j ≤ (h.snoc _ hnew).length, ∀ e ∈ (h.snoc _ hnew).edge j, ∃ p ≤ n, e = l.edgeAt p := by
  intro j hj e he
  rcases lt_or_eq_of_le hj with hj | rfl
  · have hj := le_of_lt_succ hj
    rw [snoc_edge hnew hj] at he
    obtain ⟨p, hp, rfl⟩ := hbelow j hj e he
    exact ⟨p, hp.le, rfl⟩
  · rw [snoc_length, snoc_edge_last hnew] at he
    exact ⟨n, le_rfl, (Option.some.inj he).symm⟩

theorem Plannable.committed {removed : List Int} (hplan : Plannable (s.table l) removed) {id : Int} (hid : id ∈ removed) :
    ∃ p < s.kinds.length, id = l.id p := by
  obtain ⟨snapshot, hsnapshot, rfl⟩ := mem_map.mp (hplan.1 id hid)
  obtain ⟨p, kind, hkind, rfl, -⟩ := mem_snapshots.mp hsnapshot
  exact ⟨p, (List.getElem?_eq_some_iff.mp hkind).1, rfl⟩

namespace Chained

variable {h : AppendHistory} {slots added rooted : List Nat} {gap : Option Nat}

/-! ## Commits of the table -/

theorem Awaits.snoc {proven target e : AggregateCoverage} (ha : Awaits h added gap proven target) (hnew : h.Newer e)
    (hgap : ∀ j, gap = some j → j < h.length) : Awaits (h.snoc e hnew) added gap proven target := by
  obtain ⟨k, hk, hproven, htarget, hheld⟩ := ha
  have hlt := hgap k hk
  refine ⟨k, hk, ?_, ?_, hheld⟩
  · rw [snoc_edge hnew hlt.le]
    exact hproven
  · have happended : (h.snoc e hnew).appended k = h.appended k := if_pos hlt
    rw [happended]
    exact htarget

section

variable (hc : Chained m l delta initial s h slots added rooted gap)
include hc

theorem phaseKnows_commit {h' : AppendHistory} {kind : CommitKind} {links : List AggregateCoverageLink}
    (hawaits : ∀ proven target, Awaits h added gap proven target → Awaits h' added gap proven target) :
    PhaseKnows l { s with kinds := s.kinds ++ [kind], links := links } h' added gap := by
  have hknows := hc.phase
  unfold PhaseKnows at hknows ⊢
  have hlength : (s.kinds ++ [kind]).length = s.kinds.length + 1 := length_append
  cases hphase : s.phase with
  | idle | done => simpa only [hphase] using hknows
  | loaded commits expiring =>
    simp only [hphase] at hknows ⊢
    obtain ⟨hexpired, hgap, hle, hcurrent⟩ := hknows
    exact ⟨hexpired, hgap, by omega, hcurrent⟩
  | decided commits expiring reroot =>
    simp only [hphase] at hknows ⊢
    obtain ⟨hexpired, hgap, hle, hspares, -⟩ := hknows
    refine ⟨hexpired, hgap, by omega, ?_, fun _ hsame => by omega⟩
    rw [take_append_of_le_length hle]
    exact hspares
  | committed proven target =>
    simp only [hphase] at hknows ⊢
    exact hawaits proven target hknows
  | sent proven target version =>
    simp only [hphase] at hknows ⊢
    exact ⟨hawaits proven target hknows.1, hknows.2⟩

theorem recluster
    (hstep : step m l delta s .recluster = some s') : Chained m l delta initial s' h slots added rooted gap := by
  obtain ⟨hkinds, rfl⟩ := Guard.stay hstep
  have hlength : (s.kinds ++ [CommitKind.recluster]).length = s.kinds.length + 1 := length_append
  obtain ⟨v, htip⟩ := hc.tip.resolve_left fun hempty => hkinds hempty.1
  have hle := htip.bridge.le
  have hlt := htip.bridge.lt
  have hbridge : Bridge l (s.kinds ++ [.recluster]) s.expired v ((s.kinds ++ [CommitKind.recluster]).length - 1) := by
    refine ⟨by omega, by omega, fun p hp hpt => ?_, fun p hp hpt => ?_⟩
    · rcases lt_or_eq_of_le (show p ≤ s.kinds.length by omega) with hold | rfl
      · rw [List.getElem?_append_left hold]
        exact htip.bridge.recluster p hp (by omega)
      · exact List.getElem?_concat_length
    · rcases lt_or_eq_of_le (show p ≤ s.kinds.length by omega) with hold | rfl
      · exact htip.bridge.present p hp (by omega)
      · exact hc.fresh
  refine { hc with tip := .inr ⟨v, hbridge, htip.ground.append (by omega) _, htip.edge, htip.below⟩, expired := ?_, phase := ?_ }
  · intro id hid
    obtain ⟨p, hp, hsame⟩ := hc.expired id hid
    exact ⟨p, by simp only [hlength]; omega, hsame⟩
  · exact hc.phaseKnows_commit fun _ _ ha => ha

theorem append_link : appendCoverageLink (l.table (s.kinds ++ [.append]) s.expired) =
      some ⟨h.edgeId h.length, l.id s.kinds.length, l.sequenceNumber s.kinds.length⟩ := by
  rcases hc.tip with ⟨hkinds, hlength, hroot⟩ | ⟨v, htip⟩
  · have hparent : (l.snapshotAt .append s.kinds.length).parent = none := by simp [hkinds, Lineage.snapshotAt]
    have hedge : h.edgeId h.length = none := by rw [hlength, Appends.edgeId, Appends.edge, hroot]; rfl
    rw [appendCoverageLink_eq hc.fresh, hparent, hedge]
    rfl
  · have hlt := htip.bridge.lt
    have hedge : h.edgeId h.length = some (l.id v) := by rw [Appends.edgeId, htip.edge]; rfl
    rw [appendCoverageLink_bridge htip.bridge htip.ground (by omega) hc.fresh, hedge]

/-- An append extends the history. -/
theorem append (hstep : step m l delta s .append = some s') : Sound m l delta initial s' := by
  obtain ⟨link, hlink, rfl⟩ := Option.map_eq_some_iff.mp hstep
  rw [hc.append_link, Option.some.injEq] at hlink
  have hlength : (s.kinds ++ [CommitKind.append]).length = s.kinds.length + 1 := length_append
  have hnew : h.Newer (l.edgeAt s.kinds.length) := l.newer fun j hj e he => hc.edge_committed hj he
  have hlinkLast : (h.snoc _ hnew).link h.length = link := by
    rw [snoc_link_last, ← hlink]
    rfl
  have hgap : ∀ j, gap = some j → j < h.length := fun j hj => (hc.awaited j hj).1
  have hbridge : Bridge l (s.kinds ++ [.append]) s.expired s.kinds.length ((s.kinds ++ [CommitKind.append]).length - 1) := by
    refine ⟨by omega, by omega, fun p hp hpt => by omega, fun p hp hpt => ?_⟩
    obtain rfl : p = s.kinds.length := by omega
    exact hc.fresh
  obtain ⟨k, runs, hjoined⟩ := hc.joined
  refine ⟨h.snoc _ hnew, slots ++ [h.length], added, rooted, gap, ?_⟩
  exact
    { links := by
        rw [map_append, map_singleton, hlinkLast, hc.links]
        refine congrArg (· ++ [link]) (map_congr_left fun j hj => ?_)
        exact (snoc_link hnew (hc.within j hj)).symm
      within := fun j hj => by
        rw [snoc_length]
        rcases mem_append.mp hj with hj | hj
        · exact lt_succ_of_lt (hc.within j hj)
        · rw [mem_singleton.mp hj]
          exact lt_succ_self _
      increasing := by
        refine pairwise_append.mpr ⟨hc.increasing, pairwise_singleton _ _, fun j hj j' hj' => ?_⟩
        rw [mem_singleton.mp hj']
        exact hc.within j hj
      entries := fun j hj => by
        rcases lt_or_eq_of_le (le_of_lt_succ hj) with hj | rfl
        · exact (hc.entries j hj).imp_left fun hslot => mem_append_left _ hslot
        · exact .inl (mem_append_right _ (mem_singleton_self _))
      unslotted := fun j hj => by
        rcases mem_append.mp hj with hj | hj
        · exact hc.unslotted j hj
        · rw [mem_singleton.mp hj]
          refine ⟨fun hrooted => ?_, fun hawaited => ?_⟩
          · exact lt_irrefl _ (hc.added_lt (hc.rooted_added _ hrooted _ le_rfl))
          · exact lt_irrefl _ (hgap _ hawaited)
      awaited := fun j hj => ⟨lt_succ_of_lt (hgap j hj), (hc.awaited j hj).2⟩
      placed := fun i hi => by
        have := hc.placed i hi
        rw [length_append]
        omega
      merged_nodup := hc.merged_nodup
      added_nodup := hc.added_nodup
      mem_added := fun j => by
        rw [hc.mem_added j]
        refine or_congr_right (exists_congr fun i => and_congr_right fun hi => ?_)
        rw [List.getElem?_append_left (hc.placed i hi)]
      rooted_added := hc.rooted_added
      joined := ⟨k, runs, hjoined.snoc hnew⟩
      counts := hc.counts
      current := hc.current.imp fun _ _ hp => prepared_append hp
      tip := by
        refine .inr ⟨s.kinds.length, hbridge, .inr (.inl List.getElem?_concat_length), snoc_edge_last hnew, ?_⟩
        exact l.below_snoc hnew fun j hj e he => hc.edge_committed hj he
      expired := fun id hid => by
        obtain ⟨p, hp, hsame⟩ := hc.expired id hid
        exact ⟨p, by simp only [hlength]; omega, hsame⟩
      phase := hc.phaseKnows_commit fun _ _ ha => Awaits.snoc ha hnew hgap }

/-! ## Publications -/

/-- An attempt to publish changes nothing that is stored. -/
theorem attempt {i : Nat} (hin : ¬InsideRun s.links s.side i)
    (hstep : step m l delta s (.attempt i) = some s') : Chained m l delta initial s' h slots added rooted gap := by
  obtain ⟨link, hlink, hstep⟩ := Option.bind_eq_some_iff.mp hstep
  obtain ⟨-, hstep⟩ := Option.ite_none_left_eq_some.mp hstep
  rw [mergeRound_ofCommit] at hstep
  by_cases hev : (s.store.object.getD .empty).Evidences link
  · rw [if_pos hev] at hstep
    cases hstep
    exact { hc with }
  · rw [if_neg hev] at hstep
    cases hstep
    have hprepared : Prepared m delta s.links s.phase s.store.object
        (some i, (PendingSideAggDeltas.ofCommit m (delta i) link).applyTo m (s.store.object.getD .empty)) :=
      ⟨link, hlink, hev, hin, rfl⟩
    exact { hc with current := hc.current.send hprepared }

theorem phaseKnows_added {added' : List Nat}
    (hsub : added ⊆ added') (hsent : ∀ proven target version, s.phase ≠ .sent proven target version)
    (store : ConditionalStore (SnapshotAggregates (SideCounts G B T)) (Option Nat × SnapshotAggregates (SideCounts G B T)))
    (merged : List Nat) : PhaseKnows l { s with store, merged } h added' gap := by
  have hknows := hc.phase
  unfold PhaseKnows at hknows ⊢
  cases hphase : s.phase with
  | idle | loaded commits expiring | done => simpa only [hphase] using hknows
  | decided commits expiring reroot =>
    simp only [hphase] at hknows ⊢
    obtain ⟨hexpired, hgap, hle, hspares, hmoves⟩ := hknows
    refine ⟨hexpired, hgap, hle, hspares, fun hnot hsame => ?_⟩
    have hmoves := hmoves hnot hsame
    exact ⟨fun j hj => hsub (hmoves.held j hj), hmoves.target⟩
  | committed proven target =>
    simp only [hphase] at hknows ⊢
    obtain ⟨k, hk, hproven, htarget, hheld⟩ := hknows
    exact ⟨k, hk, hproven, htarget, fun j hj => hsub (hheld j hj)⟩
  | sent proven target version => exact absurd hphase (hsent proven target version)

end

variable {pos : Nat} {body : SnapshotAggregates (SideCounts G B T)}
variable {store : ConditionalStore (SnapshotAggregates (SideCounts G B T)) (Option Nat × SnapshotAggregates (SideCounts G B T))}

section

variable (hc : Chained m l delta initial s h slots added rooted gap)
include hc

/-- A publication that lands adds its append. -/
theorem landPublication {i : Nat} (hland : s.store.land Prod.snd pos = some ((some i, body), store))
    (hsent : ∀ proven target version, s.phase ≠ .sent proven target version) :
    Sound m l delta initial { s with store := store, merged := i :: s.merged } := by
  obtain ⟨⟨link, hlink, hev, hin, hbody⟩, hobject, -, -⟩ := hc.current.land hland
  obtain ⟨j, hj, hlt, rfl⟩ := hc.link_eq hlink
  obtain ⟨k, runs, hjoined⟩ := hc.joined
  have hfresh : j ∉ added := by
    rw [hjoined.mem_added_iff hlt]
    exact not_or.mpr ⟨hev, fun henclosed => hin (hc.insideRun hj henclosed)⟩
  have hnew : i ∉ s.merged := fun hi => hfresh ((hc.mem_added j).mpr (.inr ⟨i, hi, hj⟩))
  dsimp only at hbody
  rw [PendingSideAggDeltas.applyTo_ofCommit] at hbody
  have hside : store.object.getD .empty = { s.side with counts := s.side.counts.apply m (delta i) }.addCoverageLink
      (h.link j) := by
    rw [hobject, hbody]
    rfl
  refine ⟨h, slots, j :: added, rooted, gap, ?_⟩
  exact
    { hc with
      placed := fun i' hi' => by
        rcases mem_cons.mp hi' with rfl | hi'
        · exact (List.getElem?_eq_some_iff.mp hj).1
        · exact hc.placed i' hi'
      merged_nodup := nodup_cons.mpr ⟨hnew, hc.merged_nodup⟩
      added_nodup := nodup_cons.mpr ⟨hfresh, hc.added_nodup⟩
      mem_added := fun j' => by
        rw [mem_cons, hc.mem_added j']
        constructor
        · rintro (rfl | hrooted | ⟨i', hi', hj'⟩)
          · exact .inr ⟨i, mem_cons_self, hj⟩
          · exact .inl hrooted
          · exact .inr ⟨i', mem_cons_of_mem _ hi', hj'⟩
        · rintro (hrooted | ⟨i', hi', hj'⟩)
          · exact .inr (.inl hrooted)
          · rcases mem_cons.mp hi' with rfl | hi'
            · exact .inl (Option.some.inj (hj'.symm.trans hj))
            · exact .inr (.inr ⟨i', hi', hj'⟩)
      rooted_added := fun j' hj' i' hi' => mem_cons_of_mem _ (hc.rooted_added j' hj' i' hi')
      joined := by
        obtain ⟨k', runs', hjoined'⟩ := (hjoined.withCounts (s.side.counts.apply m (delta i))).addCoverageLink hlt hfresh
        refine ⟨k', runs', ?_⟩
        rw [State.side, hside]
        exact hjoined'
      counts := by
        rw [State.side, hside, addCoverageLink_counts, foldr_cons, ← hc.counts]
      current := hc.current.landed hland
      phase := hc.phaseKnows_added (subset_cons_self j added) hsent store (i :: s.merged) }

/-! ## The expiry -/

theorem load {expiring : List Int}
    (hstep : step m l delta s (.load expiring) = some s') : Chained m l delta initial s' h slots added rooted gap := by
  obtain ⟨⟨hidle, hsome, hplan⟩, rfl⟩ := Option.ite_some_none_eq_some.mp hstep
  have hknows := hc.phase
  simp only [PhaseKnows, hidle] at hknows
  refine hc.withPhase (fun _ _ _ hsent => by rw [hidle] at hsent; cases hsent) ⟨hknows.1, hknows.2, le_rfl, ?_⟩
  cases hlength : s.kinds.length with
  | zero =>
    -- an empty table has nothing to remove
    have hempty : s.kinds = [] := length_eq_zero_iff.mp hlength
    obtain ⟨id, hid⟩ := exists_mem_of_ne_nil _ hsome
    have hmem := hplan.1 id hid
    simp [State.table, Lineage.table, hempty] at hmem
  | succ last => exact hplan.2 (l.id last) (currentSnapshotId_eq hlength)

end

theorem tip_le {v p : Nat} (htip : Tip l s.kinds [] h v) (hp : p < s.kinds.length)
    (hreached : ∀ q < s.kinds.length, p < q → s.kinds[q]? = some .recluster) : v ≤ p := by
  by_contra hlt
  have hle := htip.bridge.le
  have hkind := hreached v (by omega) (by omega)
  rcases htip.ground with hzero | happend | ⟨below, -, hgone⟩
  · omega
  · rw [hkind] at happend
    cases happend
  · exact not_mem_nil hgone

section

variable (hc : Chained m l delta initial s h slots added rooted gap)
include hc

theorem decide (hok : Undisturbed l s .decide)
    (hstep : step m l delta s .decide = some s') : Chained m l delta initial s' h slots added rooted gap := by
  have hknows := hc.phase
  simp only [step] at hstep
  split at hstep
  · rename_i commits expiring hloaded
    cases hstep
    simp only [PhaseKnows, hloaded] at hknows
    simp only [Undisturbed, hloaded] at hok
    obtain ⟨hexpired, hgap, hle, hcurrent⟩ := hknows
    refine hc.withPhase (fun _ _ _ hsent => by rw [hloaded] at hsent; cases hsent) ⟨hexpired, hgap, hle, ?_, ?_⟩
    · intro hspares
      rw [hexpired]
      exact reroot_of_spares hspares
    · intro hnot hsame
      have hheld := hc.held_of_merged hgap (hok.resolve_right hnot)
      rw [hsame, take_length] at hnot ⊢
      rw [hexpired]
      simp only [Lineage.Spares, not_forall, not_not] at hnot
      obtain ⟨p, hp, hreached, hgone⟩ := hnot
      obtain ⟨v, htip⟩ := hc.tip.resolve_left fun hempty => by
        rw [hempty.1] at hp
        exact not_lt_zero p hp
      rw [hexpired] at htip
      have hcoverage : s.store.object.bind coverage = some (l.edgeAt v) := by
        have hside := (hc.coverage_of_held hheld).trans htip.edge
        rw [State.side] at hside
        cases hobject : s.store.object with
        | none =>
          rw [hobject] at hside
          cases hside
        | some side =>
          rw [hobject] at hside
          exact hside
      obtain ⟨t, hvt, hbridge, hground, hreroot⟩ := reroot_of_expiring htip.bridge (by omega) (hsame ▸ hcurrent) hcoverage
        (tip_le htip hp hreached) (by omega) hgone
      exact ⟨hheld, v, t, hvt, htip.edge, hbridge, hground, hreroot⟩
  · cases hstep

theorem fail (hstep : step m l delta s .fail = some s') : Chained m l delta initial s' h slots added rooted gap := by
  have hknows := hc.phase
  simp only [step] at hstep
  split at hstep
  case h_3 => cases hstep
  all_goals
    rename_i hphase
    cases hstep
    simp only [PhaseKnows, hphase] at hknows
    exact hc.withPhase (fun _ _ _ hsent => by rw [hphase] at hsent; cases hsent) hknows.2.1

end

variable {removed : List Int}

section

variable (hc : Chained m l delta initial s h slots added rooted gap)
include hc

theorem commitSpared (hexpired : s.expired = []) (hsent : ∀ proven target version, s.phase ≠ .sent proven target version)
    (hplan : Plannable (s.table l) removed) (hspares : l.Spares s.kinds removed) (hgap : gap = none) :
    Chained m l delta initial { s with expired := s.expired ++ removed, phase := .done } h slots added rooted gap := by
  refine { hc with current := hc.current_phase hsent .done, tip := ?_, expired := ?_, phase := hgap }
  · refine hc.tip.imp id fun ⟨v, htip⟩ => ⟨v, ?_⟩
    rw [hexpired] at htip ⊢
    have hlt := htip.bridge.lt
    refine ⟨⟨htip.bridge.le, hlt, htip.bridge.recluster, fun p hp hpt => ?_⟩, ?_, htip.edge, htip.below⟩
    · change p ≤ s.kinds.length - 1 at hpt
      exact hspares p (by omega) fun q hq hpq => htip.bridge.recluster q (by omega) (by omega)
    · exact htip.ground.imp id (Or.imp id fun ⟨_, _, hgone⟩ => absurd hgone not_mem_nil)
  · intro id hid
    rw [hexpired, nil_append] at hid
    exact hplan.committed hid

theorem commitMoved (hexpired : s.expired = []) (hsent : ∀ proven target version, s.phase ≠ .sent proven target version)
    (hplan : Plannable (s.table l) removed) (hgap : gap = none) {v t : Nat} (hvt : v < t)
    (hheld : ∀ j < h.length, j ∈ added) (hedge : h.edge h.length = some (l.edgeAt v))
    (hbridge : Bridge l s.kinds removed t (s.kinds.length - 1)) (hground : Grounded l s.kinds removed t) :
    Sound m l delta initial { s with expired := s.expired ++ removed, phase := .committed (l.edgeAt v) (l.edgeAt t) } := by
  have hbelow : ∀ j ≤ h.length, ∀ e ∈ h.edge j, ∃ p < t, e = l.edgeAt p := by
    intro j hj e he
    rcases hc.tip with ⟨-, hlength, hroot⟩ | ⟨v', htip⟩
    · rw [hlength, Appends.edge, hroot] at hedge
      cases hedge
    · obtain ⟨p, hp, rfl⟩ := htip.below j hj e he
      have hsame := Option.some.inj (htip.edge.symm.trans hedge)
      have := l.id_injective _ _ (congrArg AggregateCoverage.snapshotId hsame)
      exact ⟨p, by omega, rfl⟩
  have hnew : h.Newer (l.edgeAt t) := l.newer hbelow
  obtain ⟨k, runs, hjoined⟩ := hc.joined
  refine ⟨h.snoc _ hnew, slots, added, rooted, some h.length, ?_⟩
  exact
    { hc with
      links := by
        rw [hc.links]
        exact map_congr_left fun j hj => (snoc_link hnew (hc.within j hj)).symm
      within := fun j hj => lt_succ_of_lt (hc.within j hj)
      entries := fun j hj => by
        rcases lt_or_eq_of_le (le_of_lt_succ hj) with hj | rfl
        · rcases hc.entries j hj with hslot | hrooted | hawaited
          · exact .inl hslot
          · exact .inr (.inl hrooted)
          · rw [hgap] at hawaited
            cases hawaited
        · exact .inr (.inr rfl)
      unslotted := fun j hj => by
        refine ⟨(hc.unslotted j hj).1, fun hsame => ?_⟩
        have := hc.within j hj
        rw [← Option.some.inj hsame] at this
        exact lt_irrefl _ this
      awaited := fun j hj => by
        cases hj
        exact ⟨lt_succ_self _, fun hrooted => lt_irrefl _ (hc.added_lt (hc.rooted_added _ hrooted _ le_rfl))⟩
      joined := ⟨k, runs, hjoined.snoc hnew⟩
      current := hc.current_phase hsent _
      tip := by
        rw [hexpired, nil_append]
        exact .inr ⟨t, hbridge, hground, snoc_edge_last hnew, l.below_snoc hnew hbelow⟩
      expired := fun id hid => by
        rw [hexpired, nil_append] at hid
        exact hplan.committed hid
      phase := by
        refine ⟨h.length, rfl, ?_, snoc_appended_last hnew, hheld⟩
        rw [snoc_edge hnew le_rfl]
        exact hedge }

/-- An expiry takes snapshots away and leaves the counts. -/
theorem commit (hok : Undisturbed l s (.commit removed)) (hstep : step m l delta s (.commit removed) = some s') :
    Sound m l delta initial s' := by
  have hknows := hc.phase
  simp only [step] at hstep
  split at hstep
  · rename_i commits expiring reroot hdecided
    obtain ⟨hplan, rfl⟩ := Option.ite_some_none_eq_some.mp hstep
    simp only [PhaseKnows, hdecided] at hknows
    simp only [Undisturbed, hdecided] at hok
    obtain ⟨hexpired, hgap, -, hspared, hmoves⟩ := hknows
    have hsent : ∀ proven target version, s.phase ≠ .sent proven target version := by
      intro proven target version hsent
      rw [hdecided] at hsent
      cases hsent
    by_cases hspares : l.Spares (s.kinds.take commits) expiring
    · have hnow : l.Spares s.kinds removed := by
        rcases hok with ⟨hsame, rfl⟩ | ⟨-, hnow⟩
        · rwa [hsame, take_length] at hspares
        · exact hnow
      rw [hspared hspares]
      exact ⟨h, slots, added, rooted, gap, hc.commitSpared hexpired hsent hplan hnow hgap⟩
    · obtain ⟨hsame, rfl⟩ := hok.resolve_right fun hboth => hspares hboth.1
      obtain ⟨hheld, v, t, hvt, hedge, hbridge, hground, hreroot⟩ := hmoves hspares hsame
      rw [hreroot]
      exact hc.commitMoved hexpired hsent hplan hgap hvt hheld hedge hbridge hground
  · cases hstep

/-! ## The re-root -/

theorem edge_awaits {proven target : AggregateCoverage} (ha : Awaits h added gap proven target) :
    ∃ k runs, gap = some k ∧ k < h.length ∧ h.appended k = target ∧ s.side.coverage = some proven ∧
      Joined h added k runs s.side ∧ ∀ j < k, j ∈ added := by
  obtain ⟨k, hgap, hproven, htarget, hheld⟩ := ha
  obtain ⟨hlt, hrooted⟩ := hc.awaited k hgap
  obtain ⟨k', runs, hjoined⟩ := hc.joined
  have hmissing : k ∉ added := by
    intro hadded
    rcases (hc.mem_added k).mp hadded with hr | ⟨i, -, hi⟩
    · exact hrooted hr
    · exact (hc.unslotted k (mem_of_getElem? hi)).2 hgap
  have hle := hjoined.le_edge hc.added_nodup hlt.le hheld
  have hge : k' ≤ k := by
    by_contra hgt
    exact hmissing (hjoined.mem_added.mpr (.inl (by omega)))
  obtain rfl : k' = k := le_antisymm hge hle
  exact ⟨k', runs, hgap, hlt, htarget, hjoined.coverage.trans hproven, hjoined, hheld⟩

theorem rerootRead
    (hstep : step m l delta s .rerootRead = some s') : Chained m l delta initial s' h slots added rooted gap := by
  have hknows := hc.phase
  simp only [step] at hstep
  split at hstep
  · rename_i proven target hcommitted
    simp only [PhaseKnows, hcommitted] at hknows
    have hsent : ∀ proven target version, s.phase ≠ .sent proven target version := by
      intro proven target version hsent
      rw [hcommitted] at hsent
      cases hsent
    obtain ⟨-, -, -, -, -, hcoverage, -⟩ := hc.edge_awaits hknows
    rw [State.side] at hcoverage
    cases hobject : s.store.object with
    | none =>
      rw [hobject] at hcoverage
      cases hcoverage
    | some side =>
      rw [hobject] at hcoverage hstep
      have hproven : side.coverage = some proven := hcoverage
      simp only [if_pos hproven] at hstep
      cases hstep
      have hprepared : Prepared m delta s.links (.sent proven target s.store.version) s.store.object
          (none, side.rerootCoverage target) := ⟨proven, target, s.store.version, side, rfl, hobject, rfl⟩
      exact { hc with current := (hc.current_phase hsent _).send hprepared, phase := ⟨hknows, rfl⟩ }
  · cases hstep

theorem rerootConflict (hstep : step m l delta s .rerootConflict = some s') : False := by
  have hknows := hc.phase
  simp only [step] at hstep
  split at hstep
  · rename_i proven target version hsent
    simp only [PhaseKnows, hsent] at hknows
    exact (Option.ite_none_right_eq_some.mp hstep).1 hknows.2
  · cases hstep

/-- A new root that lands covers what was proven. -/
theorem landReroot (hland : s.store.land Prod.snd pos = some ((none, body), store)) :
    Sound m l delta initial { s with store := store, phase := .done } := by
  obtain ⟨⟨proven, target, version, side, hsent, hread, hbody⟩, hobject, -, -⟩ := hc.current.land hland
  have hknows := hc.phase
  simp only [PhaseKnows, hsent] at hknows
  obtain ⟨k, runs, hgap, hlt, htarget, -, hjoined, hheld⟩ := hc.edge_awaits hknows.1
  have hside : store.object.getD .empty = s.side.rerootCoverage (h.appended k) := by
    rw [hobject, htarget, State.side, hread]
    exact hbody
  have hmissing := hjoined.edge_not_mem hc.added_nodup
  refine ⟨h, slots, k :: added, k :: rooted, none, ?_⟩
  exact
    { hc with
      entries := fun j hj => by
        rcases hc.entries j hj with hslot | hrooted | hawaited
        · exact .inl hslot
        · exact .inr (.inl (mem_cons_of_mem _ hrooted))
        · rw [hgap] at hawaited
          exact .inr (.inl (Option.some.inj hawaited ▸ mem_cons_self))
      unslotted := fun j hj => by
        refine ⟨fun hrooted => ?_, fun hnone => by cases hnone⟩
        rcases mem_cons.mp hrooted with rfl | hrooted
        · exact (hc.unslotted j hj).2 hgap
        · exact (hc.unslotted j hj).1 hrooted
      awaited := fun j hj => by cases hj
      added_nodup := nodup_cons.mpr ⟨hmissing, hc.added_nodup⟩
      mem_added := fun j => by
        rw [mem_cons, mem_cons, hc.mem_added j, or_assoc]
      rooted_added := fun j hj i hi => by
        rcases mem_cons.mp hj with rfl | hj
        · rcases lt_or_eq_of_le hi with hi | rfl
          · exact mem_cons_of_mem _ (hheld i hi)
          · exact mem_cons_self
        · exact mem_cons_of_mem _ (hc.rooted_added j hj i hi)
      joined := by
        obtain ⟨k', runs', hjoined'⟩ := hjoined.rerootCoverage hc.added_nodup hlt
        refine ⟨k', runs', ?_⟩
        rw [State.side, hside]
        exact hjoined'
      counts := by
        rw [State.side, hside, rerootCoverage_counts]
        exact hc.counts
      current := hc.current.landed hland
      phase := rfl }

theorem land (hok : Undisturbed l s (.land pos))
    (hstep : step m l delta s (.land pos) = some s') : Sound m l delta initial s' := by
  obtain ⟨⟨⟨writer, body⟩, store⟩, hland, rfl⟩ := Option.map_eq_some_iff.mp hstep
  cases writer with
  | none => exact hc.landReroot hland
  | some i =>
    refine hc.landPublication hland fun proven target version hsent => ?_
    simp only [Undisturbed, hsent] at hok
    obtain ⟨⟨sentAt, write⟩, hwrite, happlied⟩ := Option.bind_eq_some_iff.mp hland
    obtain ⟨-, happlied⟩ := Option.ite_none_right_eq_some.mp happlied
    obtain ⟨rfl, -⟩ := Prod.mk.inj (Option.some.inj happlied)
    cases hok _ hwrite

end

end Chained

/-- Every step that meets the condition keeps the counts those of the history. -/
theorem Sound.step (hs : Sound m l delta initial s) {a : Action} (hok : Undisturbed l s a)
    (hstep : Expiry.step m l delta s a = some s') : Sound m l delta initial s' := by
  obtain ⟨h, slots, added, rooted, gap, hc⟩ := hs
  cases a with
  | append => exact hc.append hstep
  | recluster => exact ⟨h, slots, added, rooted, gap, hc.recluster hstep⟩
  | attempt i => exact ⟨h, slots, added, rooted, gap, hc.attempt hok hstep⟩
  | land pos => exact hc.land hok hstep
  | acknowledge i =>
    obtain ⟨-, rfl⟩ := Option.ite_some_none_eq_some.mp hstep
    exact ⟨h, slots, added, rooted, gap, { hc with }⟩
  | load expiring => exact ⟨h, slots, added, rooted, gap, hc.load hstep⟩
  | decide => exact ⟨h, slots, added, rooted, gap, hc.decide hok hstep⟩
  | commit removed => exact hc.commit hok hstep
  | fail => exact ⟨h, slots, added, rooted, gap, hc.fail hstep⟩
  | rerootRead => exact ⟨h, slots, added, rooted, gap, hc.rerootRead hstep⟩
  | rerootConflict => exact (hc.rerootConflict hstep).elim

end LogLake.Expiry
