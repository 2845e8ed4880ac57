import LogLake.Catalog.Cycle
import LogLake.Lemmas.ProofEvidence
import LogLake.Lib.Partition

/-! # What a cycle does to its rows -/

namespace LogLake.Catalog

open List KeyedTable ClaimGroup

variable {β : Type}

/-! ## Statements on one segment -/

/-- A row that was given back: one attempt more, and sealed or set aside. -/
def Row.Returned (row row' : Row) : Prop :=
  row'.tenant = row.tenant ∧ row'.indexId = row.indexId ∧ row'.attempts = row.attempts + 1 ∧
    (row'.status = .sealed ∨ row'.status = .quarantined)

/-- A statement gives a claim back, and touches no other row. -/
structure GivesBack (claimer : Text) (f : Ledger → Text → Ledger) : Prop where
  self : ∀ ledger id row, ledger.row id = some row → row.ClaimedBy claimer →
    ∃ row', (f ledger id).row id = some row' ∧ row.Returned row'
  other : ∀ ledger id other, other ≠ id → (f ledger id).row other = ledger.row other

theorem givesBack_release (claimer : Text) (at' : Text → Int) :
    GivesBack claimer fun ledger id => release claimer (at' id) id ledger where
  self ledger id row hrow hclaimed := by
    have hid : row.id = id := key_of_row hrow
    unfold release releaseWithBackoff
    refine ⟨_, row_update_of_pos hrow ⟨hid, hclaimed⟩, rfl, rfl, rfl, ?_⟩
    unfold Row.release
    dsimp only
    split
    · exact .inr rfl
    · exact .inl rfl
  other ledger id other hne := by
    unfold release releaseWithBackoff
    exact row_update_of_forall_not fun row hrow hp => hne ((key_of_row hrow).symm.trans hp.1)

theorem givesBack_quarantineTerminal (claimer : Text) :
    GivesBack claimer fun ledger id => quarantineTerminal claimer id ledger where
  self ledger id row hrow hclaimed := by
    have hid : row.id = id := key_of_row hrow
    exact ⟨_, row_update_of_pos hrow ⟨hid, hclaimed⟩, rfl, rfl, rfl, Or.inr rfl⟩
  other ledger id other hne :=
    row_update_of_forall_not fun row hrow hp => hne ((key_of_row hrow).symm.trans hp.1)

namespace GivesBack

variable {claimer : Text} {f : Ledger → Text → Ledger}

theorem row_foldl_of_not_mem (h : GivesBack claimer f) {ids : List Text} {id : Text} (hid : id ∉ ids) (ledger : Ledger) :
    (ids.foldl f ledger).row id = ledger.row id := by
  induction ids generalizing ledger with
  | nil => rfl
  | cons first ids ih =>
    rw [mem_cons, not_or] at hid
    rw [foldl_cons, ih hid.2, h.other ledger first id hid.1]

/-- A row among the ids is given back once. -/
theorem row_foldl_of_mem (h : GivesBack claimer f) {ids : List Text} (hnodup : ids.Nodup) {id : Text} (hid : id ∈ ids)
    {ledger : Ledger} {row : Row} (hrow : ledger.row id = some row) (hclaimed : row.ClaimedBy claimer) :
    ∃ row', (ids.foldl f ledger).row id = some row' ∧ row.Returned row' := by
  induction ids generalizing ledger with
  | nil => cases hid
  | cons first ids ih =>
    rw [nodup_cons] at hnodup
    rw [foldl_cons]
    by_cases hfirst : id = first
    · subst hfirst
      rw [h.row_foldl_of_not_mem hnodup.1]
      exact h.self ledger id row hrow hclaimed
    · refine ih hnodup.2 ((mem_cons.mp hid).resolve_left hfirst) ?_
      rw [h.other ledger first id hfirst, hrow]

end GivesBack

/-! ## Marks -/

variable {at' : Nat → Int} {chunks : List (List Text × Nat)} {id : Text} {claimer : Text}

theorem row_markChunks_of_not_mem (hid : ∀ chunk ∈ chunks, id ∉ chunk.1) (ledger : Ledger) :
    (chunks.foldl (fun ledger chunk => markCommitted claimer (at' chunk.2) chunk.1 ledger) ledger).row id = ledger.row id := by
  induction chunks generalizing ledger with
  | nil => rfl
  | cons chunk chunks ih =>
    rw [foldl_cons, ih fun other hother => hid other (mem_cons_of_mem _ hother)]
    refine row_update_of_forall_not fun row hrow hp => hid chunk mem_cons_self ?_
    rw [← key_of_row hrow]
    exact hp.1

variable {row : Row}

theorem row_markChunks_of_not_claimedBy
    {ledger : Ledger} (hrow : ledger.row id = some row) (hclaimed : ¬ row.ClaimedBy claimer) :
    (chunks.foldl (fun ledger chunk => markCommitted claimer (at' chunk.2) chunk.1 ledger) ledger).row id = some row := by
  induction chunks generalizing ledger with
  | nil => exact hrow
  | cons chunk chunks ih =>
    rw [foldl_cons]
    exact ih (row_update_of_not hrow fun h => hclaimed h.2)

theorem row_markChunks_of_mem (hid : ∃ chunk ∈ chunks, id ∈ chunk.1) {ledger : Ledger} (hrow : ledger.row id = some row)
    (hclaimed : row.ClaimedBy claimer) :
    ∃ t, (chunks.foldl (fun ledger chunk => markCommitted claimer (at' chunk.2) chunk.1 ledger) ledger).row id =
      some { row with status := .committed, committedAt := some t } := by
  induction chunks generalizing ledger with
  | nil =>
    obtain ⟨chunk, hchunk, -⟩ := hid
    cases hchunk
  | cons chunk chunks ih =>
    rw [foldl_cons]
    by_cases hfirst : id ∈ chunk.1
    · have hmem : row.id ∈ chunk.1 := by rwa [key_of_row hrow]
      refine ⟨at' chunk.2, row_markChunks_of_not_claimedBy (row_update_of_pos hrow ⟨hmem, hclaimed⟩) ?_⟩
      exact fun h => h.ne_committed rfl
    · obtain ⟨other, hother, hmem⟩ := hid
      have hrest : other ∈ chunks := by
        rcases mem_cons.mp hother with rfl | hrest
        · exact absurd hmem hfirst
        · exact hrest
      refine ih ⟨other, hrest, hmem⟩ (row_update_of_not hrow ?_)
      rintro ⟨hmem, -⟩
      rw [key_of_row hrow] at hmem
      exact hfirst hmem

variable {ids : List Text}

theorem mem_chunks : (∃ chunk ∈ (ids.toChunks 256).zipIdx, id ∈ chunk.1) ↔ id ∈ ids := by
  rw [← flatten_toChunks 256 ids, mem_flatten, flatten_toChunks]
  constructor
  · rintro ⟨chunk, hchunk, hid⟩
    exact ⟨chunk.1, fst_mem_of_mem_zipIdx hchunk, hid⟩
  · rintro ⟨chunk, hchunk, hid⟩
    obtain ⟨i, hi, rfl⟩ := getElem_of_mem hchunk
    exact ⟨_, mk_mem_zipIdx_iff_getElem?.mpr (List.getElem?_eq_getElem hi), hid⟩

/-! ## The account of the loop -/

/-- One of the failures is about the segment or about its group. -/
def Blamed (failures : List Failure) (c : ClaimedSegment) : Prop :=
  ∃ f ∈ failures, f = .segment c.id ∨ f = .group c.tenant c.indexId

variable {c : ClaimedSegment}

theorem Blamed.append {failures : List Failure} (h : Blamed failures c) (more : List Failure) :
    Blamed (failures ++ more) c := by
  obtain ⟨f, hf, hc⟩ := h
  exact ⟨f, mem_append_left _ hf, hc⟩

/-- The account of a cycle that has looked at some of its claims. -/
structure Progress (before : Ledger) (done : List ClaimedSegment) (s : CycleState β) : Prop where
  kept : ∀ id, id ∉ s.releasedIds → s.ledger.row id = before.row id
  returned : ∀ id ∈ s.releasedIds, ∀ row ∈ before.row id, ∃ row', s.ledger.row id = some row' ∧ row.Returned row'
  released : ∀ id ∈ s.releasedIds, ∃ c ∈ done, c.id = id
  committed : ∀ id ∈ s.committedIds, ∃ c ∈ done, c.id = id
  disjoint : ∀ id ∈ s.committedIds, id ∉ s.releasedIds
  commits : ∀ id, id ∈ s.committedIds ↔ ∃ r ∈ s.commits, ∃ entry ∈ r.consumed, entry.segmentId = basename id

/-- Every claim that was given back is blamed on a failure. -/
def AllBlamed (done : List ClaimedSegment) (s : CycleState β) : Prop :=
  ∀ c ∈ done, c.id ∈ s.releasedIds → Blamed s.failures c

def Complete (done : List ClaimedSegment) (s : CycleState β) : Prop :=
  ∀ c ∈ done, c.id ∈ s.releasedIds ∨ c.id ∈ s.committedIds

variable {done : List ClaimedSegment} {s s' : CycleState β}

theorem Complete.mono (h : Complete done s)
    (hreleased : ∀ id ∈ s.releasedIds, id ∈ s'.releasedIds) (hcommitted : ∀ id ∈ s.committedIds, id ∈ s'.committedIds) :
    Complete done s' :=
  fun c hc => (h c hc).imp (hreleased _) (hcommitted _)

theorem Complete.append {done members : List ClaimedSegment} (h : Complete done s)
    (hmembers : Complete members s) : Complete (done ++ members) s := by
  intro c hc
  rcases mem_append.mp hc with hd | hm
  · exact h c hd
  · exact hmembers c hm

theorem progress_start (before : Ledger) : Progress before [] (CycleState.start before : CycleState β) where
  kept _ _ := rfl
  returned _ h := by cases h
  released _ h := by cases h
  committed _ h := by cases h
  disjoint _ h := by cases h
  commits _ := by simp [CycleState.start]

namespace Progress

variable {before : Ledger}

section

variable (h : Progress before done s)
include h

theorem unsettled_of_fresh (hfresh : ∀ d ∈ done, d.id ≠ c.id) : c.id ∉ s.releasedIds ∧ c.id ∉ s.committedIds := by
  constructor
  · intro hold
    obtain ⟨d, hd, hsame⟩ := h.released _ hold
    exact hfresh d hd hsame
  · intro hold
    obtain ⟨d, hd, hsame⟩ := h.committed _ hold
    exact hfresh d hd hsame

theorem mono {done' : List ClaimedSegment} (hdone : ∀ c ∈ done, c ∈ done') : Progress before done' s := by
  refine { h with released := ?_, committed := ?_ }
  · intro id hid
    obtain ⟨d, hd, hsame⟩ := h.released id hid
    exact ⟨d, hdone d hd, hsame⟩
  · intro id hid
    obtain ⟨d, hd, hsame⟩ := h.committed id hid
    exact ⟨d, hdone d hd, hsame⟩

theorem giveBack {f : Ledger → Text → Ledger} (hf : GivesBack claimer f)
    (hnodup : ids.Nodup) (hnew : ∀ id ∈ ids, id ∉ s.releasedIds ∧ id ∉ s.committedIds)
    (hdone : ∀ id ∈ ids, ∃ c ∈ done, c.id = id)
    (hclaimed : ∀ id ∈ ids, ∃ row, before.row id = some row ∧ row.ClaimedBy claimer) (failures : List Failure) :
    Progress before done
      { s with
        ledger := ids.foldl f s.ledger
        releasedIds := s.releasedIds ++ ids
        failures := failures } := by
  refine ⟨?_, ?_, ?_, h.committed, ?_, h.commits⟩
  · intro id hid
    rw [mem_append, not_or] at hid
    rw [hf.row_foldl_of_not_mem hid.2]
    exact h.kept id hid.1
  · intro id hid row hrow
    rcases mem_append.mp hid with hold | hin
    · rw [hf.row_foldl_of_not_mem fun hin => (hnew id hin).1 hold]
      exact h.returned id hold row hrow
    · obtain ⟨row', hrow', hclaimed'⟩ := hclaimed id hin
      obtain rfl : row' = row := Option.some.inj (hrow'.symm.trans hrow)
      exact hf.row_foldl_of_mem hnodup hin ((h.kept _ (hnew _ hin).1).trans hrow) hclaimed'
  · intro id hid
    rcases mem_append.mp hid with hold | hin
    · exact h.released id hold
    · exact hdone id hin
  · intro id hid hreleased
    rcases mem_append.mp hreleased with hold | hin
    · exact h.disjoint id hid hold
    · exact (hnew id hin).2 hid

theorem groupFailed (g : ClaimGroup) : Progress before done (s.groupFailed g) :=
  { h with }

theorem groupCommitted (hdone : ∀ id ∈ ids, ∃ c ∈ done, c.id = id)
    (hheld : ∀ id ∈ ids, id ∉ s.releasedIds) {request : CommitRequest β}
    (hrequest : ∀ id, id ∈ ids ↔ ∃ entry ∈ request.consumed, entry.segmentId = basename id) :
    Progress before done (s.groupCommitted ids request) := by
  refine ⟨h.kept, h.returned, h.released, ?_, ?_, ?_⟩
  · intro id hid
    rcases mem_append.mp hid with hold | hin
    · exact h.committed id hold
    · exact hdone id hin
  · intro id hid
    rcases mem_append.mp hid with hold | hin
    · exact h.disjoint id hold
    · exact hheld id hin
  · intro id
    unfold CycleState.groupCommitted
    rw [mem_append, h.commits, hrequest]
    simp only [mem_append, mem_singleton, or_and_right, exists_or, exists_eq_left]

end

end Progress

variable {failures : List Failure}

theorem AllBlamed.of_failures (h : AllBlamed done s)
    (hreleased : s'.releasedIds = s.releasedIds) (hfailures : s'.failures = s.failures ++ failures) : AllBlamed done s' := by
  intro c hc hid
  rw [hreleased] at hid
  rw [hfailures]
  exact (h c hc hid).append _

variable {members : List ClaimedSegment} {before : Ledger}

theorem AllBlamed.giveBack (h : AllBlamed done s)
    (hprogress : Progress before done s) (hfresh : ∀ c ∈ members, ∀ d ∈ done, d.id ≠ c.id)
    (hreleased : s'.releasedIds = s.releasedIds ++ ids) (hmembers : ∀ id ∈ ids, ∃ c ∈ members, c.id = id)
    (hfailures : s'.failures = s.failures ++ failures)
    (hblamed : ∀ c ∈ members, c.id ∈ ids → Blamed failures c) : AllBlamed (done ++ members) s' := by
  intro c hc hid
  rw [hreleased, mem_append] at hid
  rw [hfailures]
  rcases mem_append.mp hc with hd | hm
  · rcases hid with hold | hin
    · exact (h c hd hold).append _
    · obtain ⟨m, hm, hsame⟩ := hmembers _ hin
      exact absurd hsame.symm (hfresh m hm c hd)
  · rcases hid with hold | hin
    · exact absurd hold (hprogress.unsettled_of_fresh (hfresh c hm)).1
    · obtain ⟨f, hf, hc⟩ := hblamed c hm hin
      exact ⟨f, mem_append_right _ hf, hc⟩

/-! ## Fetches -/

theorem fetchGroup_refused_sublist (w : Outside β) (owner : Option Text) (strict : Bool) (members : List ClaimedSegment) :
    ((fetchGroup w owner strict members).refused.map Prod.fst).Sublist (members.map ClaimedSegment.id) := by
  induction members with
  | nil => exact List.Sublist.slnil
  | cons c rest ih =>
    unfold fetchGroup
    split
    · exact nil_sublist _
    · exact ih.cons _
    · exact ih.cons_cons _

variable {w : Outside β}

theorem fetchGroup_consumed {owner : Option Text} {strict : Bool}
    (hnodup : (members.map ClaimedSegment.id).Nodup) (hok : (fetchGroup w owner strict members).failed = false) :
    (fetchGroup w owner strict members).consumed =
      (members.filter fun c => c.id ∉ (fetchGroup w owner strict members).refused.map Prod.fst).map fun c =>
        ⟨basename c.id, c.claimedAt⟩ := by
  induction members with
  | nil => rfl
  | cons c rest ih =>
    rw [map_cons, nodup_cons] at hnodup
    have hhead : c.id ∉ (fetchGroup w owner strict rest).refused.map Prod.fst :=
      fun hin => hnodup.1 ((fetchGroup_refused_sublist w owner strict rest).subset hin)
    unfold fetchGroup at hok ⊢
    split at hok
    · cases hok
    · next batches _ =>
      dsimp only
      rw [filter_cons_of_pos (by simpa using hhead), map_cons, ih hnodup.2 hok]
    · next reason _ =>
      dsimp only
      rw [map_cons, filter_cons_of_neg (by simp), ih hnodup.2 hok]
      congr 1
      apply filter_congr
      intro d hd
      have hne : d.id ≠ c.id := fun hsame => hnodup.1 (hsame ▸ mem_map_of_mem hd)
      simp [hne]

/-! ## The body of the loop -/

inductive GroupCase (w : Outside β) (claimer : Text) (s : CycleState β) (g : ClaimGroup) : LoopExit × CycleState β → Prop
  | namespaceFails (h : g.NamespaceFails w) : GroupCase w claimer s g (.breakOuter, s.groupFailed g)
  | turnedAway (h : ¬ g.NamespaceFails w) (hfetch : g.fetch w = none) : GroupCase w claimer s g (.next, s.turnAway w claimer g)
  | emptied {f : Option Text × Fetched β} (h : ¬ g.NamespaceFails w) (hfetch : g.fetch w = some f)
      (hremaining : g.remaining f.2.refused = []) : GroupCase w claimer s g (.next, s.setAside claimer f.2.refused)
  | fetchFails {f : Option Text × Fetched β} (hfetch : g.fetch w = some f) (hremaining : g.remaining f.2.refused ≠ [])
      (hfailed : f.2.failed = true) :
      GroupCase w claimer s g (.breakOuter, (s.setAside claimer f.2.refused).groupFailed g)
  | readFails {f : Option Text × Fetched β} (h : ¬ g.NamespaceFails w) (hfetch : g.fetch w = some f)
      (hremaining : g.remaining f.2.refused ≠ [])
      (hok : f.2.failed = false)
      (hreads : w.readsWatermark g.tenant g.indexId = none ∨ w.readsTerminal g.tenant g.indexId = none) :
      GroupCase w claimer s g (.returnErr, (s.setAside claimer f.2.refused).groupFailed g)
  | commitFails {f : Option Text × Fetched β} {stored : Option ConsumedProofWatermark} {terminal : List Text}
      (hfetch : g.fetch w = some f) (hremaining : g.remaining f.2.refused ≠ []) (hok : f.2.failed = false)
      (hstored : w.readsWatermark g.tenant g.indexId = some stored)
      (hterminal : w.readsTerminal g.tenant g.indexId = some terminal)
      (hcommit : w.commitBatches (g.request f.1 f.2 stored terminal) = false) :
      GroupCase w claimer s g (.breakOuter, (s.setAside claimer f.2.refused).groupFailed g)
  | commits {f : Option Text × Fetched β} {stored : Option ConsumedProofWatermark} {terminal : List Text}
      (h : ¬ g.NamespaceFails w) (hfetch : g.fetch w = some f) (hremaining : g.remaining f.2.refused ≠ [])
      (hok : f.2.failed = false)
      (hstored : w.readsWatermark g.tenant g.indexId = some stored)
      (hterminal : w.readsTerminal g.tenant g.indexId = some terminal)
      (hcommit : w.commitBatches (g.request f.1 f.2 stored terminal) = true) :
      GroupCase w claimer s g (.next, (s.setAside claimer f.2.refused).groupCommitted
        ((g.remaining f.2.refused).map ClaimedSegment.id) (g.request f.1 f.2 stored terminal))

/-- What one group of a cycle can come to. -/
theorem drainGroup_case (w : Outside β) (claimer : Text) (s : CycleState β) (g : ClaimGroup) :
    GroupCase w claimer s g (drainGroup w claimer s g) := by
  unfold drainGroup
  split
  · next h => exact .namespaceFails h
  · next hopen =>
    split
    · next h => exact .turnedAway hopen (by rw [fetch, if_pos (.inr h)])
    · next hresolved =>
      have hnot : ¬ (g.NamespaceFails w ∨ g.Unresolved w) := not_or.mpr ⟨hopen, hresolved⟩
      split
      · next hnone => exact .turnedAway hopen (by rw [fetch, if_neg hnot, hnone, Option.map_none])
      · next owner strict hsome =>
        have hfetch : g.fetch w = some (owner, fetchGroup w owner strict g.members) := by
          rw [fetch, if_neg hnot, hsome, Option.map_some]
        dsimp only
        split
        · next h => exact .emptied hopen hfetch h
        · next hremaining =>
          split
          · next h => exact .fetchFails hfetch hremaining h
          · next hok =>
            rw [Bool.not_eq_true] at hok
            split
            · next h => exact .readFails hopen hfetch hremaining hok (.inl h)
            · next stored hstored =>
              split
              · next h => exact .readFails hopen hfetch hremaining hok (.inr h)
              · next terminal hterminal =>
                split
                · next h => exact .commits hopen hfetch hremaining hok hstored hterminal h
                · next h =>
                  rw [Bool.not_eq_true] at h
                  exact .commitFails hfetch hremaining hok hstored hterminal h

variable {g : ClaimGroup} {f : Option Text × Fetched β}

theorem ClaimGroup.fetch_eq_some (h : g.fetch w = some f) :
    ¬ g.NamespaceFails w ∧ ∃ strict, f.2 = fetchGroup w f.1 strict g.members := by
  unfold fetch at h
  split at h
  · cases h
  · next hnot =>
    obtain ⟨owner, -, rfl⟩ := Option.map_eq_some_iff.mp h
    exact ⟨fun hn => hnot (.inl hn), owner.2, rfl⟩

theorem drainGroup_exit (w : Outside β) (claimer : Text) (s : CycleState β) (g : ClaimGroup) :
    ((drainGroup w claimer s g).1 = .breakOuter ↔ g.Breaks w) ∧
      ((drainGroup w claimer s g).1 = .returnErr ↔ ¬ g.ReadsAnswer w) := by
  generalize hr : drainGroup w claimer s g = r
  have hcase := hr ▸ drainGroup_case w claimer s g
  unfold ClaimGroup.Breaks ClaimGroup.ReadsAnswer ClaimGroup.CommitFails ClaimGroup.FetchFails ClaimGroup.ReachesReads
  cases hcase with
  | namespaceFails h =>
    have hnone : g.fetch w = none := by rw [fetch, if_pos (.inl h)]
    simp [h, hnone]
  | turnedAway h hfetch => simp [h, hfetch]
  | emptied h hfetch hremaining => simp [h, hfetch, hremaining]
  | fetchFails hfetch hremaining hfailed =>
    simp [(fetch_eq_some hfetch).1, hfetch, hremaining, hfailed]
  | readFails h hfetch hremaining hok hreads =>
    rcases hreads with hreads | hreads <;> simp [h, hfetch, hremaining, hok, hreads]
  | commitFails hfetch hremaining hok hstored hterminal hcommit =>
    simp [(fetch_eq_some hfetch).1, hfetch, hremaining, hok, hstored, hterminal, hcommit]
  | commits h hfetch hremaining hok hstored hterminal hcommit =>
    simp [h, hfetch, hremaining, hok, hstored, hterminal, hcommit]

/-- A group only adds to what was settled and to the failures. -/
theorem drainGroup_grows (w : Outside β) (claimer : Text) (s : CycleState β) (g : ClaimGroup) :
    (∀ id ∈ s.releasedIds, id ∈ (drainGroup w claimer s g).2.releasedIds) ∧
      ∀ id ∈ s.committedIds, id ∈ (drainGroup w claimer s g).2.committedIds := by
  generalize hr : drainGroup w claimer s g = r
  have hcase := hr ▸ drainGroup_case w claimer s g
  cases hcase with
  | namespaceFails _ => exact ⟨fun _ h => h, fun _ h => h⟩
  | turnedAway _ _ | emptied _ _ _ | fetchFails _ _ _ | readFails _ _ _ _ _ | commitFails _ _ _ _ _ _ =>
    exact ⟨fun _ h => mem_append_left _ h, fun _ h => h⟩
  | commits _ _ _ _ _ _ _ => exact ⟨fun _ h => mem_append_left _ h, fun _ h => mem_append_left _ h⟩

/-- The claims of a group: distinct, under the claim of the drain, of one tenant and index. -/
structure ClaimGroup.Sound (g : ClaimGroup) (before : Ledger) (claimer : Text) : Prop where
  nodup : (g.members.map ClaimedSegment.id).Nodup
  claimed : ∀ c ∈ g.members, ∃ row, before.row c.id = some row ∧ row.ClaimedBy claimer
  key : ∀ c ∈ g.members, c.tenant = g.tenant ∧ c.indexId = g.indexId

namespace Progress

section

variable (h : Progress before done s) (hfresh : ∀ c ∈ g.members, ∀ d ∈ done, d.id ≠ c.id)
include h hfresh

theorem extend (hblamed : AllBlamed done s) : Progress before (done ++ g.members) s ∧ AllBlamed (done ++ g.members) s := by
  refine ⟨h.mono fun c hc => mem_append_left _ hc, fun c hc hid => ?_⟩
  rcases mem_append.mp hc with hd | hm
  · exact hblamed c hd hid
  · exact absurd hid (h.unsettled_of_fresh (hfresh c hm)).1

theorem mem_releasedIds_setAside (claimer : Text) {refused : List (Text × Refusal)} (hc : c ∈ g.members) :
    c.id ∈ (s.setAside claimer refused).releasedIds ↔ c ∉ g.remaining refused := by
  have hnot : c.id ∉ s.releasedIds := (h.unsettled_of_fresh (hfresh c hc)).1
  unfold CycleState.setAside remaining
  rw [mem_append, mem_filter, decide_eq_true_eq]
  simp [hnot, hc]

variable (hg : g.Sound before claimer)
include hg

theorem giveBack_members {f : Ledger → Text → Ledger} (hf : GivesBack claimer f)
    (hsub : ids.Sublist (g.members.map ClaimedSegment.id)) (failures : List Failure) :
    Progress before (done ++ g.members)
      { s with
        ledger := ids.foldl f s.ledger
        releasedIds := s.releasedIds ++ ids
        failures := failures } := by
  have hmembers : ∀ id ∈ ids, ∃ c ∈ g.members, c.id = id := fun id hid => mem_map.mp (hsub.subset hid)
  refine (h.mono fun c hc => mem_append_left _ hc).giveBack hf (hg.nodup.sublist hsub) ?_ ?_ ?_ failures
  · intro id hid
    obtain ⟨c, hc, rfl⟩ := hmembers id hid
    exact h.unsettled_of_fresh (hfresh c hc)
  · intro id hid
    obtain ⟨c, hc, hsame⟩ := hmembers id hid
    exact ⟨c, mem_append_right _ hc, hsame⟩
  · intro id hid
    obtain ⟨c, hc, rfl⟩ := hmembers id hid
    exact hg.claimed c hc

variable (hblamed : AllBlamed done s)
include hblamed

theorem turnAway :
    Progress before (done ++ g.members) (s.turnAway w claimer g) ∧ AllBlamed (done ++ g.members) (s.turnAway w claimer g) := by
  refine ⟨h.giveBack_members hfresh hg (givesBack_release claimer w.releasedAt) (List.Sublist.refl _) _,
    hblamed.giveBack h hfresh rfl (fun id hid => mem_map.mp hid) rfl ?_⟩
  intro c hc _
  obtain ⟨htenant, hindex⟩ := hg.key c hc
  exact ⟨_, mem_singleton_self _, Or.inr (by rw [htenant, hindex])⟩

theorem setAside (hfetch : g.fetch w = some f) : Progress before (done ++ g.members) (s.setAside claimer f.2.refused) ∧
      AllBlamed (done ++ g.members) (s.setAside claimer f.2.refused) := by
  obtain ⟨-, strict, hf⟩ := fetch_eq_some hfetch
  have hsub : (f.2.refused.map Prod.fst).Sublist (g.members.map ClaimedSegment.id) :=
    hf ▸ fetchGroup_refused_sublist w f.1 strict g.members
  refine ⟨h.giveBack_members hfresh hg (givesBack_quarantineTerminal claimer) hsub _,
    hblamed.giveBack h hfresh rfl (fun id hid => mem_map.mp (hsub.subset hid)) rfl ?_⟩
  intro c _ hid
  exact ⟨_, mem_map_of_mem hid, Or.inl rfl⟩

theorem drainGroup {r : LoopExit × CycleState β} (hr : drainGroup w claimer s g = r) :
    (Progress before (done ++ g.members) r.2 ∧ AllBlamed (done ++ g.members) r.2) ∧ (r.1 = .next → Complete g.members r.2) ∧
    (r.1 = .breakOuter → .group g.tenant g.indexId ∈ r.2.failures) ∧
    (r.1 = .returnErr → ∃ c ∈ g.members, c.id ∉ r.2.releasedIds) := by
  have hcase := hr ▸ drainGroup_case w claimer s g
  have hfail : ∀ s' : CycleState β, Progress before (done ++ g.members) s' ∧ AllBlamed (done ++ g.members) s' →
      Progress before (done ++ g.members) (s'.groupFailed g) ∧ AllBlamed (done ++ g.members) (s'.groupFailed g) :=
    fun s' h => ⟨h.1.groupFailed g, h.2.of_failures rfl rfl⟩
  have hnoted : ∀ s' : CycleState β, .group g.tenant g.indexId ∈ (s'.groupFailed g).failures :=
    fun s' => mem_append_right _ (mem_singleton_self _)
  cases hcase with
  | namespaceFails hfails =>
    exact ⟨hfail s (h.extend hfresh hblamed), by simp, fun _ => hnoted s, by simp⟩
  | turnedAway hopen hfetch =>
    refine ⟨h.turnAway hfresh hg hblamed, fun _ c hc => ?_, by simp, by simp⟩
    exact .inl (mem_append_right _ (mem_map_of_mem hc))
  | emptied hopen hfetch hremaining =>
    refine ⟨h.setAside hfresh hg hblamed hfetch, fun _ c hc => .inl ?_, by simp, by simp⟩
    rw [h.mem_releasedIds_setAside hfresh claimer hc, hremaining]
    exact not_mem_nil
  | fetchFails hfetch hremaining hfailed | commitFails hfetch hremaining hok hstored hterminal hcommit =>
    exact ⟨hfail _ (h.setAside hfresh hg hblamed hfetch), by simp, fun _ => hnoted _, by simp⟩
  | readFails hopen hfetch hremaining hok hreads =>
    refine ⟨hfail _ (h.setAside hfresh hg hblamed hfetch), by simp, by simp, fun _ => ?_⟩
    obtain ⟨c, hc⟩ := exists_mem_of_ne_nil _ hremaining
    have hmember : c ∈ g.members := mem_of_mem_filter hc
    exact ⟨c, hmember, fun hid => (h.mem_releasedIds_setAside hfresh claimer hmember).mp hid hc⟩
  | @commits f stored terminal hopen hfetch hremaining hok hstored hterminal hcommit =>
    obtain ⟨-, strict, hf⟩ := fetch_eq_some hfetch
    have hmember : ∀ c ∈ g.remaining f.2.refused, c ∈ g.members := fun c hc => mem_of_mem_filter hc
    have hconsumed : f.2.consumed = (g.remaining f.2.refused).map fun c => ⟨basename c.id, c.claimedAt⟩ := by
      rw [hf] at hok ⊢
      exact fetchGroup_consumed hg.nodup hok
    obtain ⟨haside, hblamed'⟩ := h.setAside hfresh hg hblamed hfetch
    refine ⟨⟨haside.groupCommitted ?_ ?_ ?_, hblamed'⟩, fun _ c hc => ?_, by simp, by simp⟩
    · intro id hid
      obtain ⟨c, hc, rfl⟩ := mem_map.mp hid
      exact ⟨c, mem_append_right _ (hmember c hc), rfl⟩
    · intro id hid
      obtain ⟨c, hc, rfl⟩ := mem_map.mp hid
      exact fun hreleased => (h.mem_releasedIds_setAside hfresh claimer (hmember c hc)).mp hreleased hc
    · intro id
      unfold request
      dsimp only
      rw [hconsumed, mem_map]
      constructor
      · rintro ⟨c, hc, rfl⟩
        exact ⟨_, mem_map_of_mem hc, rfl⟩
      · rintro ⟨entry, hentry, hname⟩
        obtain ⟨c, hc, rfl⟩ := mem_map.mp hentry
        exact ⟨c, hc, basename_injective hname⟩
    · by_cases hin : c ∈ g.remaining f.2.refused
      · exact .inr (mem_append_right _ (mem_map_of_mem hin))
      · exact .inl ((h.mem_releasedIds_setAside hfresh claimer hc).mpr hin)

end

end Progress

/-! ## The loop -/

def groupClaims (groups : List ClaimGroup) : List ClaimedSegment := groups.flatMap ClaimGroup.members

/-- How the loop over the groups ends: with every claim settled; at a group where the cycle stops; or at a group whose reads
fail, with a claim of the group as it was. -/
inductive LoopEnd (w : Outside β) (before : Ledger) (done : List ClaimedSegment) (groups : List ClaimGroup) :
    LoopExit × CycleState β → Prop
  | finished {s : CycleState β} (hreads : ReadsAnswered w groups) (hprogress : Progress before (done ++ groupClaims groups) s)
      (hblamed : AllBlamed (done ++ groupClaims groups) s) (hcomplete : Complete (done ++ groupClaims groups) s) :
      LoopEnd w before done groups (.next, s)
  | broken {s : CycleState β} (front : List ClaimGroup) {back : List ClaimGroup} {g : ClaimGroup} (hreads : ReadsAnswered w groups)
      (hgroups : groups = front ++ g :: back) (hbreaks : g.Breaks w)
      (hprogress : Progress before (done ++ groupClaims front ++ g.members) s)
      (hblamed : AllBlamed (done ++ groupClaims front ++ g.members) s) (hcomplete : Complete (done ++ groupClaims front) s)
      (hnoted : .group g.tenant g.indexId ∈ s.failures) : LoopEnd w before done groups (.breakOuter, s)
  | returned {s : CycleState β} (front : List ClaimGroup) {back : List ClaimGroup} {g : ClaimGroup} (hreads : ¬ ReadsAnswered w groups)
      (hgroups : groups = front ++ g :: back) (hprogress : Progress before (done ++ groupClaims front ++ g.members) s)
      (hblamed : AllBlamed (done ++ groupClaims front ++ g.members) s) {c : ClaimedSegment} (hc : c ∈ g.members)
      (hheld : c.id ∉ s.releasedIds) : LoopEnd w before done groups (.returnErr, s)

theorem groupClaims_cons (g : ClaimGroup) (groups : List ClaimGroup) :
    groupClaims (g :: groups) = g.members ++ groupClaims groups := flatMap_cons

theorem LoopEnd.cons {groups : List ClaimGroup}
    {r : LoopExit × CycleState β} (hreads : g.ReadsAnswer w) (hbreaks : ¬ g.Breaks w)
    (h : LoopEnd w before (done ++ g.members) groups r) : LoopEnd w before done (g :: groups) r := by
  have hanswered : ReadsAnswered w (g :: groups) ↔ ReadsAnswered w groups := by
    constructor
    · rintro ⟨-, hrest⟩
      exact hrest.resolve_left hbreaks
    · intro hrest
      exact ⟨hreads, Or.inr hrest⟩
  cases h with
  | finished hreads hprogress hblamed hcomplete =>
    refine .finished (hanswered.mpr hreads) ?_ ?_ ?_
    all_goals rwa [groupClaims_cons, ← append_assoc]
  | broken front hreads hgroups hbreaks hprogress hblamed hcomplete hnoted =>
    refine .broken (g :: front) (hanswered.mpr hreads) (by rw [hgroups, cons_append]) hbreaks ?_ ?_ ?_ hnoted
    all_goals rwa [groupClaims_cons, ← append_assoc]
  | returned front hreads hgroups hprogress hblamed hc hheld =>
    refine .returned (g :: front) (fun hall => hreads (hanswered.mp hall)) (by rw [hgroups, cons_append]) ?_ ?_ hc hheld
    all_goals rwa [groupClaims_cons, ← append_assoc]

/-- The loop settles every claim of the groups it came to. -/
theorem drainGroups_end {groups : List ClaimGroup} (h : Progress before done s) (hblamed : AllBlamed done s)
    (hcomplete : Complete done s) (hsound : ∀ g ∈ groups, g.Sound before claimer)
    (hnodup : ((done ++ groupClaims groups).map ClaimedSegment.id).Nodup) :
    LoopEnd w before done groups (drainGroups w claimer s groups) := by
  induction groups generalizing done s with
  | nil =>
    refine .finished trivial ?_ ?_ ?_
    all_goals rwa [groupClaims, flatMap_nil, append_nil]
  | cons g groups ih =>
    rw [groupClaims_cons] at hnodup
    have hfresh : ∀ c ∈ g.members, ∀ d ∈ done, d.id ≠ c.id := by
      intro c hc d hd hsame
      rw [map_append, nodup_append] at hnodup
      exact hnodup.2.2 _ (mem_map_of_mem hd) _ (mem_map_of_mem (mem_append_left _ hc)) hsame
    obtain ⟨⟨hprogress, hblamed'⟩, hsettled, hnoted, hheld⟩ :=
      h.drainGroup (w := w) hfresh (hsound g mem_cons_self) hblamed rfl
    obtain ⟨hbreaks, hreads⟩ := drainGroup_exit w claimer s g
    obtain ⟨hreleased, hcommitted⟩ := drainGroup_grows w claimer s g
    rw [drainGroups]
    generalize hr : drainGroup w claimer s g = r at *
    obtain ⟨exit, s'⟩ := r
    cases exit with
    | next =>
      have hcomplete' : Complete (done ++ g.members) s' := (hcomplete.mono hreleased hcommitted).append (hsettled rfl)
      refine LoopEnd.cons ?_ ?_ (ih hprogress hblamed' hcomplete' (fun g' hg' => hsound g' (mem_cons_of_mem _ hg')) ?_)
      · by_contra hnot
        cases hreads.mpr hnot
      · intro hnot
        cases hbreaks.mpr hnot
      · rwa [append_assoc]
    | breakOuter =>
      have hanswer : g.ReadsAnswer w := by
        by_contra hnot
        cases hreads.mpr hnot
      refine .broken [] ⟨hanswer, Or.inl (hbreaks.mp rfl)⟩ rfl (hbreaks.mp rfl) ?_ ?_ ?_ (hnoted rfl)
      · rwa [groupClaims, flatMap_nil, append_nil]
      · rwa [groupClaims, flatMap_nil, append_nil]
      · rw [groupClaims, flatMap_nil, append_nil]
        exact hcomplete.mono hreleased hcommitted
    | returnErr =>
      obtain ⟨c, hc, hout⟩ := hheld rfl
      refine .returned [] (fun hall => hreads.mp rfl hall.1) rfl ?_ ?_ hc hout
      · rwa [groupClaims, flatMap_nil, append_nil]
      · rwa [groupClaims, flatMap_nil, append_nil]

/-! ## The groups of a cycle -/

theorem nodup_sortDedup {α : Type*} [LinearOrder α] (l : List α) : l.sortDedup.Nodup :=
  (pairwise_sortDedup l).imp fun h => ne_of_lt h

/-- The groups hold the claims, each once. -/
theorem groupClaims_byGroup_perm (claimed : List ClaimedSegment) : (groupClaims (byGroup claimed)).Perm claimed := by
  obtain ⟨keys, hkeys⟩ : ∃ keys, keys = (claimed.map fun c => toLex (c.tenant, c.indexId)).sortDedup := ⟨_, rfl⟩
  have hparts : groupClaims (byGroup claimed) =
      keys.flatMap fun key => claimed.filter fun c => toLex (c.tenant, c.indexId) = key := by
    rw [hkeys]
    unfold groupClaims byGroup
    rw [flatMap_map]
  have hall : claimed.filter (fun c => toLex (c.tenant, c.indexId) ∈ keys) = claimed := by
    rw [filter_eq_self]
    intro c hc
    rw [decide_eq_true_eq, hkeys, mem_sortDedup]
    exact mem_map_of_mem hc
  have hperm : (keys.flatMap fun key => claimed.filter fun c => toLex (c.tenant, c.indexId) = key).Perm
      (claimed.filter fun c => toLex (c.tenant, c.indexId) ∈ keys) := by
    apply perm_flatMap_filter
    intro c
    have hnodup : keys.Nodup := hkeys ▸ nodup_sortDedup _
    have hcount := hnodup.count (a := toLex (c.tenant, c.indexId))
    rw [count_eq_countP] at hcount
    simp only [decide_eq_true_eq]
    rw [← hcount]
    apply countP_congr
    intro key _
    rw [beq_iff_eq, decide_eq_true_eq]
    exact eq_comm
  rwa [hall, ← hparts] at hperm

theorem sound_of_mem_byGroup {claimed : List ClaimedSegment} (hnodup : (claimed.map ClaimedSegment.id).Nodup)
    (hclaimed : ∀ c ∈ claimed, ∃ row, before.row c.id = some row ∧ row.ClaimedBy claimer)
    (hg : g ∈ byGroup claimed) : g.Sound before claimer := by
  obtain ⟨key, -, rfl⟩ := mem_map.mp hg
  refine ⟨hnodup.sublist (filter_sublist.map _), fun c hc => hclaimed c (mem_of_mem_filter hc), fun c hc => ?_⟩
  have hkey : toLex (c.tenant, c.indexId) = key := of_decide_eq_true (mem_filter.mp hc).2
  rw [← hkey]
  exact ⟨rfl, rfl⟩

/-! ## The end of the cycle -/

namespace Progress

section

variable (h : Progress before done s)
include h

variable (w : Outside β)

theorem row_markAll_of_released (claimer : Text) (hid : id ∈ s.releasedIds) (hrow : before.row id = some row) :
    ∃ row', (s.markAll w claimer).ledger.row id = some row' ∧ row.Returned row' := by
  obtain ⟨row', hrow', hreturned⟩ := h.returned id hid row hrow
  refine ⟨row', row_markChunks_of_not_claimedBy hrow' fun hclaimed => ?_, hreturned⟩
  rcases hreturned.2.2.2 with hstatus | hstatus
  · exact absurd (hstatus.symm.trans hclaimed.1) (by decide)
  · exact absurd (hstatus.symm.trans hclaimed.1) (by decide)

theorem row_markAll_of_committed (hid : id ∈ s.committedIds) (hrow : before.row id = some row) (hclaimed : row.ClaimedBy claimer) :
    ∃ t, (s.markAll w claimer).ledger.row id = some { row with status := .committed, committedAt := some t } :=
  row_markChunks_of_mem (mem_chunks.mpr hid) ((h.kept id (h.disjoint id hid)).trans hrow) hclaimed

theorem row_markAll_of_unsettled (claimer : Text) (hreleased : id ∉ s.releasedIds)
    (hcommitted : id ∉ s.committedIds) : (s.markAll w claimer).ledger.row id = before.row id := by
  have hchunks : ∀ chunk ∈ (s.committedIds.toChunks 256).zipIdx, id ∉ chunk.1 :=
    fun chunk hchunk hid => hcommitted (mem_chunks.mp ⟨chunk, hchunk, hid⟩)
  exact (row_markChunks_of_not_mem hchunks s.ledger).trans (h.kept id hreleased)

end

end Progress

theorem BreaksLast.eq_nil {front back : List ClaimGroup}
    (h : BreaksLast w (front ++ g :: back)) (hbreaks : g.Breaks w) : back = [] := by
  induction front with
  | nil => exact h.1 hbreaks
  | cons first front ih => exact ih h.2

variable {claimed : List ClaimedSegment}

/-- The release at the end settles every claim that is left. -/
theorem Progress.release_rest
    (h : Progress before claimed s) (w : Outside β) (hnodup : (claimed.map ClaimedSegment.id).Nodup)
    (hclaimed : ∀ c ∈ claimed, ∃ row, before.row c.id = some row ∧ row.ClaimedBy claimer) {rest : List Text}
    (hrest : rest = (claimed.map ClaimedSegment.id).filter fun id => id ∉ s.committedIds ∧ id ∉ s.releasedIds) :
    Progress before claimed { s.releaseAll w claimer rest with releasedIds := s.releasedIds ++ rest } ∧
      Complete claimed { s.releaseAll w claimer rest with releasedIds := s.releasedIds ++ rest } := by
  have hmem : ∀ id, id ∈ rest ↔ (∃ c ∈ claimed, c.id = id) ∧ id ∉ s.committedIds ∧ id ∉ s.releasedIds := by
    intro id
    rw [hrest, mem_filter, decide_eq_true_eq, mem_map]
  constructor
  · refine h.giveBack (givesBack_release claimer w.releasedAt) (hrest ▸ hnodup.filter _) ?_ ?_ ?_ s.failures
    · intro id hid
      exact ⟨((hmem id).mp hid).2.2, ((hmem id).mp hid).2.1⟩
    · intro id hid
      exact ((hmem id).mp hid).1
    · intro id hid
      obtain ⟨c, hc, rfl⟩ := ((hmem id).mp hid).1
      exact hclaimed c hc
  · intro c hc
    by_cases hcommitted : c.id ∈ s.committedIds
    · exact .inr hcommitted
    · left
      by_cases hreleased : c.id ∈ s.releasedIds
      · exact mem_append_left _ hreleased
      · exact mem_append_right _ ((hmem _).mpr ⟨⟨c, hc, rfl⟩, hcommitted, hreleased⟩)

/-- After a cycle every claim is committed or given back, and charged for a failure. -/
theorem drainClaimed_account (hnodup : (claimed.map ClaimedSegment.id).Nodup)
    (hclaimed : ∀ c ∈ claimed, ∃ row, before.row c.id = some row ∧ row.ClaimedBy claimer)
    {after : CycleState β} (hafter : (drainClaimed w claimer before claimed).state = after) :
    (ReadsAnswered w (byGroup claimed) ∧ ∃ s : CycleState β, Progress before claimed s ∧ Complete claimed s ∧
        (BreaksLast w (byGroup claimed) → AllBlamed claimed s) ∧
        after.ledger = (s.markAll w claimer).ledger ∧ after.commits = s.commits ∧ after.failures = s.failures) ∨
    (¬ ReadsAnswered w (byGroup claimed) ∧ Progress before claimed after ∧ AllBlamed claimed after ∧
        ∃ c ∈ claimed, c.id ∉ after.releasedIds) := by
  subst hafter
  have hperm := groupClaims_byGroup_perm claimed
  have hmem : ∀ c, c ∈ groupClaims (byGroup claimed) ↔ c ∈ claimed := fun c => hperm.mem_iff
  have hfront : ∀ {front back : List ClaimGroup} {g : ClaimGroup}, byGroup claimed = front ++ g :: back →
      ∀ c ∈ groupClaims front ++ g.members, c ∈ claimed := by
    intro front back g hgroups c hc
    rw [← hmem, hgroups]
    unfold groupClaims
    rw [flatMap_append, flatMap_cons, ← append_assoc]
    exact mem_append_left _ hc
  have hend : LoopEnd w before [] (byGroup claimed) (drainGroups w claimer (.start before) (byGroup claimed)) := by
    refine drainGroups_end (progress_start before) (fun _ h => by cases h) (fun _ h => by cases h)
      (fun g hg => sound_of_mem_byGroup hnodup hclaimed hg) ?_
    exact (hperm.map _).nodup_iff.mpr hnodup
  unfold drainClaimed
  generalize drainGroups w claimer (.start before) (byGroup claimed) = r at hend
  cases hend with
  | @finished s hreads hprogress hblamed hcomplete =>
    refine .inl ⟨hreads, s, hprogress.mono fun c hc => (hmem c).mp hc, fun c hc => hcomplete c ((hmem c).mpr hc),
      fun _ c hc => hblamed c ((hmem c).mpr hc), rfl, rfl, rfl⟩
  | @broken s front back g hreads hgroups hbreaks hprogress hblamed hcomplete hnoted =>
    have hsub := hfront hgroups
    obtain ⟨hprogress', hcomplete'⟩ := (hprogress.mono hsub).release_rest w hnodup hclaimed rfl
    refine .inl ⟨hreads, _, hprogress', hcomplete', ?_, rfl, rfl, rfl⟩
    intro hlast c hc hid
    -- Without a group after the one where the cycle stopped, the rest belongs to that group.
    rw [hgroups] at hlast
    rw [← hmem, hgroups, hlast.eq_nil hbreaks] at hc
    unfold groupClaims at hc
    rw [flatMap_append, flatMap_singleton] at hc
    rcases mem_append.mp hid with hold | hin
    · exact hblamed c hc hold
    · have hrest := (mem_filter.mp hin).2
      rw [decide_eq_true_eq] at hrest
      rcases mem_append.mp hc with hold | hg
      · rcases hcomplete c hold with hreleased | hcommitted
        · exact absurd hreleased hrest.2
        · exact absurd hcommitted hrest.1
      · have hkey := (sound_of_mem_byGroup hnodup hclaimed (g := g) (by rw [hgroups]; simp)).key c hg
        exact ⟨_, hnoted, Or.inr (by rw [hkey.1, hkey.2])⟩
  | @returned s front back g hreads hgroups hprogress hblamed c hc hheld =>
    have hsub := hfront hgroups
    refine .inr ⟨hreads, hprogress.mono hsub, ?_, c, hsub c (mem_append_right _ hc), hheld⟩
    intro d hd hid
    obtain ⟨d', hd', hsame⟩ := hprogress.released _ hid
    obtain rfl : d' = d := inj_on_of_nodup_map hnodup (hsub d' hd') hd hsame
    exact hblamed d' hd' hid

end LogLake.Catalog
