import LogLake.Lemmas.MirrorKeys
import LogLake.Lemmas.MirrorSync

/-! # Reconciliation of the mirror misses nothing -/

namespace LogLake.Mirror

open List Option Transition

open Pages (After IsPage)
open SyncState (init)
open MirrorSyncObject (path)

variable {cfg : SyncConfig} {s s' : SyncState} {event : SyncEvent}

/-! ## Events -/

/-- The rows of objects that are in the mirror stay. -/
def SyncState.KeepsRows (cfg : SyncConfig) (s s' : SyncState) : Prop :=
  ∀ key id, cfg.segmentId key = some id → s.Holds key → s.Registered id → s'.Registered id

theorem syncEvent_cases (h : syncEvent cfg s event = some s') :
    (∃ owner phase action out, s.owners[owner]? = some phase ∧ syncStep cfg s.world phase action = some out ∧
      s' = { world := out.world
             owners := s.owners.set owner out.phase
             done := s.done + out.success.toNat
             calls := if out.success then (if out.world.cursor.rotation = s.rotation then s.calls + 1 else 0) else s.calls }) ∨
    (s'.world.stored = s.world.stored ∧ s'.owners = s.owners ∧ s'.done = s.done ∧ s'.calls = s.calls ∧ s.KeepsRows cfg s') := by
  cases event with
  | call owner action =>
    obtain ⟨phase, hphase, hmap⟩ := bind_eq_some_iff.mp h
    obtain ⟨out, hout, rfl⟩ := map_eq_some_iff.mp hmap
    exact .inl ⟨owner, phase, action, out, hphase, hout, rfl⟩
  | put key entry | remove key =>
    cases h
    exact .inr ⟨rfl, rfl, rfl, rfl, fun _ _ _ _ hrow => hrow⟩
  | ledger next =>
    obtain ⟨hkept, rfl⟩ := Option.ite_some_none_eq_some.mp h
    refine .inr ⟨rfl, rfl, rfl, rfl, fun key id _ _ hrow => ?_⟩
    obtain ⟨row, hrow⟩ := isSome_iff_exists.mp hrow
    obtain ⟨hmem, rfl⟩ := KeyedTable.row_eq_some.mp hrow
    exact hkept row hmem
  | purge ids =>
    obtain ⟨hgone, rfl⟩ := Option.ite_some_none_eq_some.mp h
    refine .inr ⟨rfl, rfl, rfl, rfl, fun key id hid ⟨e, hget, hfile⟩ hrow => ?_⟩
    obtain ⟨row, hrow⟩ := isSome_iff_exists.mp hrow
    obtain ⟨o, ho, -, rfl⟩ := exists_object hid hget hfile
    obtain ⟨entry, hentry, hobject⟩ := mem_filterMap.mp ho
    -- the mirror has an object of the row's id
    have hnot : row.id ∉ ids := fun hin =>
      hgone row.id hin entry (mem_of_mem_filter hentry) o hobject (KeyedTable.key_of_row hrow).symm
    unfold SyncState.Registered Catalog.purgeCommitted
    rw [KeyedTable.row_retain, hrow, filter_some, if_pos (by simp [hnot])]
    rfl

theorem isSome_row_register (o : MirrorSyncObject) (now : Int) (ledger : Catalog.Ledger) (id : Text) :
    ((Catalog.register o.id o.tenant o.indexId o.url o.bytes.toInt 0 now ledger).row id).isSome = true ↔
      (ledger.row id).isSome = true ∨ o.id = id := by
  unfold Catalog.register
  rw [KeyedTable.row_insertNew]
  split
  · next hid => exact ⟨fun _ => .inr hid, fun _ => rfl⟩
  · next hid => exact ⟨Or.inl, fun h => h.resolve_right hid⟩

/-! ## Cursors -/

/-- No call is ahead of the cursor, and the pages are pages after the cursors they were listed with. -/
def PhaseOk (cfg : SyncConfig) (current : MirrorSyncCursor) : SyncPhase → Prop
  | .idle => True
  | .loaded cursor => cursor.Reached current
  | .registering cursor page _ =>
    cursor.Reached current ∧ ∃ items, IsPage path items cursor.lastKey cfg.budget page.objects page.endOfPrefix

def Ordered (cfg : SyncConfig) (s : SyncState) : Prop := ∀ phase ∈ s.owners, PhaseOk cfg s.world.cursor phase

variable {current : MirrorSyncCursor}

theorem PhaseOk.moved {next : MirrorSyncCursor} {phase : SyncPhase} (h : PhaseOk cfg current phase)
    (hbefore : current.Before next) : PhaseOk cfg next phase := by
  cases phase with
  | idle => trivial
  | loaded cursor => exact .inr (h.before hbefore)
  | registering cursor page pending => exact ⟨Or.inr (h.1.before hbefore), h.2⟩

variable {page : MirrorSyncPage}

theorem nextLastKey_eq_some {last : Text} :
    page.nextLastKey = some last ↔ page.endOfPrefix = false ∧ ∃ o, page.objects.getLast? = some o ∧ o.path = last := by
  unfold MirrorSyncPage.nextLastKey
  rw [ite_none_left_eq_some, map_eq_some_iff, Bool.not_eq_true]

variable {cursor : MirrorSyncCursor} {now : Int} {items : List MirrorSyncObject}

theorem before_next (hat : cursor.At current)
    (hpage : IsPage path items cursor.lastKey cfg.budget page.objects page.endOfPrefix) :
    current.Before (cursor.next page.nextLastKey page.endOfPrefix page.objects.length now) := by
  cases hend : page.endOfPrefix with
  | true => exact .inl (by rw [← hat.1]; exact Nat.lt_succ_self _)
  | false =>
    have hne := hpage.ne_nil (le_max_right ..) hend
    refine .inr ⟨hat.1.symm, (page.objects.getLast hne).path, ?_, ?_⟩
    · exact nextLastKey_eq_some.mpr ⟨hend, _, List.getLast?_eq_some_getLast hne, rfl⟩
    · rw [← hat.2]
      exact hpage.after _ (getLast_mem hne)

variable {owner : Nat}

theorem syncEvent_store (hordered : Ordered cfg s) {phase : SyncPhase} (hphase : s.owners[owner]? = some phase)
    {next : MirrorSyncCursor} (hp : phase = .registering cursor page [])
    (hcas : compareAndSetMirrorSyncCursor s.world.stored cursor page.nextLastKey page.endOfPrefix page.objects.length now =
      .ok (some next)) :
    cursor.At s.world.cursor ∧ next = cursor.next page.nextLastKey page.endOfPrefix page.objects.length now ∧
      s.world.cursor.Before next ∧ ∃ items, IsPage path items cursor.lastKey cfg.budget page.objects page.endOfPrefix := by
  obtain ⟨hreached, items, hpage⟩ := hp ▸ hordered phase (mem_of_getElem? hphase)
  obtain ⟨hat, rfl⟩ := compareAndSet_eq_some hreached hcas
  exact ⟨hat, rfl, before_next hat hpage, items, hpage⟩

theorem syncEvent_ordered (hordered : Ordered cfg s) (h : syncEvent cfg s event = some s') : Ordered cfg s' := by
  rcases syncEvent_cases h with ⟨owner, phase, action, out, hphase, hstep, rfl⟩ | ⟨hstored, howners, -⟩
  · have hok := hordered phase (mem_of_getElem? hphase)
    rcases syncStep_cases hstep with ⟨started, -, rfl⟩ | ⟨cursor, listing, rfl, hyields, rfl⟩ |
      ⟨cursor, page, o, pending, now, rfl, rfl⟩ | ⟨cursor, page, now, next, hp, hcas, rfl⟩ | rfl
    · refine forall_mem_set hordered ?_ owner
      exact .inl ⟨rfl, rfl⟩
    · refine forall_mem_set hordered ?_ owner
      exact ⟨hok, _, isPage_listMirrorSyncPage hyields⟩
    · refine forall_mem_set hordered ?_ owner
      exact hok
    · obtain ⟨-, -, hbefore, -⟩ := syncEvent_store hordered hphase hp hcas
      refine forall_mem_set (fun phase hphase => (hordered phase hphase).moved hbefore) ?_ owner
      trivial
    · refine forall_mem_set hordered ?_ owner
      trivial
  · intro phase hphase
    rw [howners] at hphase
    unfold SyncWorld.cursor
    rw [hstored]
    exact hordered phase hphase

/-- What is said of a call with a page holds when the call is at the present place of the cursor, in the rotation. -/
def AtPresent (s : SyncState) (rotation : Nat) (q : MirrorSyncCursor → MirrorSyncPage → List MirrorSyncObject → Prop) :
    SyncPhase → Prop
  | .registering cursor page pending => cursor.At s.world.cursor → s.rotation = rotation → q cursor page pending
  | _ => True

variable {rotation : Nat} {phase : SyncPhase} {q q' : MirrorSyncCursor → MirrorSyncPage → List MirrorSyncObject → Prop}

theorem AtPresent.kept (h : AtPresent s rotation q phase) (hcursor : s'.world.cursor = s.world.cursor)
    (hq : s.rotation = rotation → ∀ cursor page pending, q cursor page pending → q' cursor page pending) :
    AtPresent s' rotation q' phase := by
  cases phase with
  | idle | loaded cursor => trivial
  | registering cursor page pending =>
    intro hat hrotation
    unfold SyncState.rotation at hrotation
    rw [hcursor] at hat hrotation
    exact hq hrotation _ _ _ (h hat hrotation)

theorem AtPresent.of_moved (hok : PhaseOk cfg s.world.cursor phase) (hbefore : s.world.cursor.Before s'.world.cursor) :
    AtPresent s' rotation q phase := by
  cases phase with
  | idle | loaded cursor => trivial
  | registering cursor page pending => exact fun hat => absurd hat (hok.1.before hbefore).not_at

/-! ## Registration -/

/-- An object after the cursor of a call is registered, still to be registered by the call, or after the page. -/
def Awaits (s : SyncState) (key id : Text) (cursor : MirrorSyncCursor) (page : MirrorSyncPage)
    (pending : List MirrorSyncObject) : Prop :=
  After cursor.lastKey key → s.Registered id ∨ (∃ o ∈ pending, o.id = id) ∨
    page.endOfPrefix = false ∧ ∃ last, page.objects.getLast? = some last ∧ last.path < key

/-- In the rotation, what the cursor has passed is registered. -/
structure Registers (rotation : Nat) (key id : Text) (s : SyncState) : Prop where
  passed : s.rotation = rotation → ∀ last, s.world.cursor.lastKey = some last → key ≤ last → s.Registered id
  phases : ∀ phase ∈ s.owners, AtPresent s rotation (Awaits s key id) phase

variable {key id : Text}

theorem Awaits.kept {pending : List MirrorSyncObject}
    (h : Awaits s key id cursor page pending) (hkept : s.Registered id → s'.Registered id) : Awaits s' key id cursor page pending :=
  fun hafter => (h hafter).imp_left hkept

theorem Registers.kept (h : Registers rotation key id s) (hcursor : s'.world.cursor = s.world.cursor)
    (howners : s'.owners = s.owners) (hkept : s.rotation = rotation → s.Registered id → s'.Registered id) :
    Registers rotation key id s' where
  passed := by
    intro hrotation last hlast hle
    unfold SyncState.rotation at hrotation
    rw [hcursor] at hrotation hlast
    exact hkept hrotation (h.passed hrotation last hlast hle)
  phases := by
    rw [howners]
    exact fun phase hphase => (h.phases phase hphase).kept hcursor fun hrotation _ _ _ hq => hq.kept (hkept hrotation)

theorem Registers.registered (h : Registers rotation key id s)
    (hphase : s.owners[owner]? = some (.registering cursor page [])) (hat : cursor.At s.world.cursor)
    (hrotation : s.rotation = rotation)
    (hpassed : page.endOfPrefix = true ∨ ∃ last, page.objects.getLast? = some last ∧ key ≤ last.path) : s.Registered id := by
  by_cases hafter : After cursor.lastKey key
  · rcases h.phases _ (mem_of_getElem? hphase) hat hrotation hafter with hrow | ⟨o, ho, -⟩ | ⟨hend, last, hlast, hlt⟩
    · exact hrow
    · exact absurd ho not_mem_nil
    · rcases hpassed with hend' | ⟨last', hlast', hle⟩
      · rw [hend] at hend'
        cases hend'
      · rw [hlast, some.injEq] at hlast'
        exact absurd hle (not_le.mpr (hlast' ▸ hlt))
  · obtain ⟨last, hlast, hle⟩ := Pages.not_after_iff.mp hafter
    exact h.passed hrotation last (hat.2 ▸ hlast) hle

theorem syncEvent_registers (hid : cfg.segmentId key = some id) (hordered : Ordered cfg s) (hregisters : Registers rotation key id s)
    (hholds : s.rotation = rotation → s.Holds key) (h : syncEvent cfg s event = some s') : Registers rotation key id s' := by
  rcases syncEvent_cases h with ⟨owner, phase, action, out, hphase, hstep, rfl⟩ | ⟨hstored, howners, -, -, hkeeps⟩
  · rcases syncStep_cases hstep with ⟨started, -, rfl⟩ | ⟨cursor, listing, rfl, hyields, rfl⟩ |
      ⟨cursor, page, o, pending, now, rfl, rfl⟩ | ⟨cursor, page, now, next, hp, hcas, rfl⟩ | rfl
    · refine ⟨hregisters.passed, forall_mem_set hregisters.phases ?_ owner⟩
      trivial
    · refine ⟨hregisters.passed, forall_mem_set hregisters.phases ?_ owner⟩
      -- the object is in the mirror, so on the page or after it
      intro _ hrotation hafter
      obtain ⟨e, hget, hfile⟩ := hholds hrotation
      obtain ⟨o, ho, hpath, hoid⟩ := exists_object hid hget hfile
      rcases (isPage_listMirrorSyncPage hyields).complete o ho (hpath ▸ hafter) with hmem | ⟨hend, last, hlast, hlt⟩
      · exact .inr (.inl ⟨o, hmem, hoid⟩)
      · exact .inr (.inr ⟨hend, last, hlast, hpath ▸ hlt⟩)
    · have hkept : s.Registered id →
          ((Catalog.register o.id o.tenant o.indexId o.url o.bytes.toInt 0 now s.world.ledger).row id).isSome = true :=
        fun hrow => (isSome_row_register o now s.world.ledger id).mpr (.inl hrow)
      refine ⟨fun hrotation last hlast hle => hkept (hregisters.passed hrotation last hlast hle), ?_⟩
      refine forall_mem_set (p := AtPresent _ rotation (Awaits _ key id)) ?_ ?_ owner
      · exact fun phase hphase => (hregisters.phases phase hphase).kept rfl fun _ _ _ _ hq => hq.kept hkept
      intro hat hrotation hafter
      rcases hregisters.phases _ (mem_of_getElem? hphase) hat hrotation hafter with hrow | ⟨o', ho', hid'⟩ | hlast
      · exact .inl (hkept hrow)
      · rcases mem_cons.mp ho' with rfl | ho'
        · exact .inl ((isSome_row_register o' now s.world.ledger id).mpr (.inr hid'))
        · exact .inr (.inl ⟨o', ho', hid'⟩)
      · exact .inr (.inr hlast)
    · obtain ⟨hat, rfl, hbefore, -⟩ := syncEvent_store hordered hphase hp hcas
      refine ⟨?_, ?_⟩
      · intro hrotation last hlast hle
        -- a cursor with a key has not ended its rotation
        obtain ⟨hend, o, ho, rfl⟩ := nextLastKey_eq_some.mp hlast
        subst hp
        refine hregisters.registered hphase hat ?_ (.inr ⟨o, ho, hle⟩)
        rw [← hrotation]
        exact hat.1.symm.trans (by simp [SyncState.rotation, SyncWorld.cursor, MirrorSyncCursor.next, hend])
      · refine forall_mem_set (p := AtPresent _ rotation (Awaits _ key id)) ?_ ?_ owner
        · exact fun phase hphase => AtPresent.of_moved (hordered phase hphase) hbefore
        · trivial
    · refine ⟨hregisters.passed, forall_mem_set hregisters.phases ?_ owner⟩
      trivial
  · refine hregisters.kept ?_ howners fun hrotation => hkeeps key id hid (hholds hrotation)
    unfold SyncWorld.cursor
    rw [hstored]

/-! ## Calls of a rotation -/

/-- In the rotation, the calls have met as many different keys as fill their pages, none after the cursor. -/
structure Counted (cfg : SyncConfig) (rotation : Nat) (keys : List Text) (s : SyncState) : Prop where
  seen : s.rotation = rotation → ∃ seen : List Text, seen.Nodup ∧ seen.length = s.calls * cfg.budget ∧
    ∀ k ∈ seen, k ∈ keys ∧ ∃ last, s.world.cursor.lastKey = some last ∧ k ≤ last
  phases : ∀ phase ∈ s.owners, AtPresent s rotation (fun _ page _ => ∀ o ∈ page.objects, o.path ∈ keys) phase

variable {keys : List Text}

theorem Counted.kept (h : Counted cfg rotation keys s) (hcursor : s'.world.cursor = s.world.cursor)
    (hcalls : s'.calls = s.calls)
    (hphases : ∀ phase ∈ s'.owners, AtPresent s' rotation (fun _ page _ => ∀ o ∈ page.objects, o.path ∈ keys) phase) :
    Counted cfg rotation keys s' where
  seen := by
    intro hrotation
    unfold SyncState.rotation at hrotation
    rw [hcursor] at hrotation ⊢
    rw [hcalls]
    exact h.seen hrotation
  phases := hphases

theorem Counted.stored (h : Counted cfg rotation keys s) (hphase : s.owners[owner]? = some (.registering cursor page []))
    (hat : cursor.At s.world.cursor) (hpage : IsPage path items cursor.lastKey cfg.budget page.objects page.endOfPrefix)
    (hrotation : (cursor.next page.nextLastKey page.endOfPrefix page.objects.length now).rotation = rotation) :
    ∃ seen : List Text, seen.Nodup ∧
      seen.length = (if (cursor.next page.nextLastKey page.endOfPrefix page.objects.length now).rotation = s.rotation then
        s.calls + 1 else 0) * cfg.budget ∧ ∀ k ∈ seen, k ∈ keys ∧ ∃ last, page.nextLastKey = some last ∧ k ≤ last := by
  have hsame : cursor.rotation = s.rotation := hat.1
  cases hend : page.endOfPrefix with
  | true =>
    have hnext : (cursor.next page.nextLastKey true page.objects.length now).rotation ≠ s.rotation := by
      simp [MirrorSyncCursor.next, hsame]
    exact ⟨[], nodup_nil, by rw [if_neg hnext, Nat.zero_mul]; rfl, fun k hk => absurd hk not_mem_nil⟩
  | false =>
    rw [hend] at hrotation
    have hnext : (cursor.next page.nextLastKey false page.objects.length now).rotation = s.rotation := by
      simp [MirrorSyncCursor.next, hsame]
    rw [hnext] at hrotation
    obtain ⟨seen, hnodup, hlength, hseen⟩ := h.seen hrotation
    have hkeys := h.phases _ (mem_of_getElem? hphase) hat hrotation
    have hlast : ∀ k ∈ seen, ∀ o ∈ page.objects, k < o.path := by
      intro k hk o ho
      obtain ⟨-, last, hcursor, hle⟩ := hseen k hk
      exact lt_of_le_of_lt hle (hpage.after o ho last (hat.2 ▸ hcursor))
    have hpos := hpage.ne_nil (le_max_right ..) hend
    refine ⟨seen ++ page.objects.map path, ?_, ?_, ?_⟩
    · refine nodup_append.mpr ⟨hnodup, hpage.nodup_keys, ?_⟩
      intro k hk k' hk'
      obtain ⟨o, ho, rfl⟩ := mem_map.mp hk'
      exact ne_of_lt (hlast k hk o ho)
    · rw [if_pos hnext, length_append, length_map, hpage.full hend, hlength, Nat.succ_mul]
    · intro k hk
      have hgetLast := List.getLast?_eq_some_getLast hpos
      refine ⟨?_, (page.objects.getLast hpos).path, nextLastKey_eq_some.mpr ⟨hend, _, hgetLast, rfl⟩, ?_⟩
      · rcases mem_append.mp hk with hk | hk
        · exact (hseen k hk).1
        · obtain ⟨o, ho, rfl⟩ := mem_map.mp hk
          exact hkeys o ho
      · rcases mem_append.mp hk with hk | hk
        · exact (hlast k hk _ (getLast_mem hpos)).le
        · obtain ⟨o, ho, rfl⟩ := mem_map.mp hk
          exact hpage.le_last hgetLast ho

theorem syncEvent_counted (hordered : Ordered cfg s) (hcounted : Counted cfg rotation keys s)
    (hall : s.rotation = rotation → ∀ k ∈ s.world.mirror.entries.map Prod.fst, k ∈ keys)
    (h : syncEvent cfg s event = some s') : Counted cfg rotation keys s' := by
  rcases syncEvent_cases h with ⟨owner, phase, action, out, hphase, hstep, rfl⟩ | ⟨hstored, howners, -, hcalls, -⟩
  · rcases syncStep_cases hstep with ⟨started, -, rfl⟩ | ⟨cursor, listing, rfl, hyields, rfl⟩ |
      ⟨cursor, page, o, pending, now, rfl, rfl⟩ | ⟨cursor, page, now, next, hp, hcas, rfl⟩ | rfl
    · refine hcounted.kept rfl rfl (forall_mem_set hcounted.phases ?_ owner)
      trivial
    · refine hcounted.kept rfl rfl (forall_mem_set hcounted.phases ?_ owner)
      intro _ hrotation o ho
      exact hall hrotation _ (segmentId_of_mem ((isPage_listMirrorSyncPage hyields).mem o ho)).2
    · have hpage := hcounted.phases _ (mem_of_getElem? hphase)
      refine hcounted.kept rfl rfl (forall_mem_set hcounted.phases ?_ owner)
      exact hpage
    · obtain ⟨hat, rfl, hbefore, items, hpage⟩ := syncEvent_store hordered hphase hp hcas
      refine ⟨?_, ?_⟩
      · intro hrotation
        subst hp
        exact hcounted.stored hphase hat hpage hrotation
      · refine forall_mem_set (p := AtPresent _ rotation fun _ page _ => ∀ o ∈ page.objects, o.path ∈ keys) ?_ ?_ owner
        · exact fun phase hphase => AtPresent.of_moved (hordered phase hphase) hbefore
        · trivial
    · refine hcounted.kept rfl rfl (forall_mem_set hcounted.phases ?_ owner)
      trivial
  · have hcursor : s'.world.cursor = s.world.cursor := by
      unfold SyncWorld.cursor
      rw [hstored]
    refine hcounted.kept hcursor hcalls ?_
    rw [howners]
    exact fun phase hphase => (hcounted.phases phase hphase).kept hcursor fun _ _ _ _ hq => hq

/-! ## Runs -/

variable {owners : Nat}

theorem SyncState.mem_init (hphase : phase ∈ (init owners).owners) : phase = .idle :=
  eq_of_mem_replicate hphase

theorem ordered_init (owners : Nat) : Ordered cfg (init owners) := by
  intro phase hphase
  obtain rfl := SyncState.mem_init hphase
  trivial

variable {events : List SyncEvent}

theorem ordered_run (hrun : run (syncEvent cfg) (init owners) events = some s) : Ordered cfg s :=
  invariant_run_of_step (fun _ _ _ hordered h => syncEvent_ordered hordered h) (ordered_init owners) hrun

theorem registers_run (hid : cfg.segmentId key = some id)
    (hholds : Transition.Meets (syncEvent cfg) (fun t _ => t.rotation = rotation → t.Holds key) (init owners) events)
    (hrun : run (syncEvent cfg) (init owners) events = some s) : Registers rotation key id s := by
  refine (invariant_run (I := fun t => Ordered cfg t ∧ Registers rotation key id t) ?_ ⟨ordered_init owners, ?_⟩
    hholds hrun).2
  · exact fun t e t' ht hok h => ⟨syncEvent_ordered ht.1 h, syncEvent_registers hid ht.1 ht.2 hok h⟩
  · refine ⟨fun _ last hlast => ?_, fun phase hphase => ?_⟩
    · cases hlast
    · obtain rfl := SyncState.mem_init hphase
      trivial

theorem counted_run (hall : Transition.Meets (syncEvent cfg)
      (fun t _ => t.rotation = rotation → ∀ k ∈ t.world.mirror.entries.map Prod.fst, k ∈ keys) (init owners) events)
    (hrun : run (syncEvent cfg) (init owners) events = some s) : Counted cfg rotation keys s := by
  refine (invariant_run (I := fun t => Ordered cfg t ∧ Counted cfg rotation keys t) ?_ ⟨ordered_init owners, ?_⟩
    hall hrun).2
  · exact fun t e t' ht hok h => ⟨syncEvent_ordered ht.1 h, syncEvent_counted ht.1 ht.2 hok h⟩
  · refine ⟨fun _ => ⟨[], nodup_nil, (Nat.zero_mul _).symm, fun k hk => absurd hk not_mem_nil⟩, fun phase hphase => ?_⟩
    obtain rfl := SyncState.mem_init hphase
    trivial

theorem cursor_of_syncEvent (hordered : Ordered cfg s) (h : syncEvent cfg s event = some s') :
    (s'.world.cursor = s.world.cursor ∧ s'.done = s.done) ∨
    ∃ (owner : Nat) (cursor : MirrorSyncCursor) (page : MirrorSyncPage) (now : Int),
      s.owners[owner]? = some (.registering cursor page []) ∧ cursor.At s.world.cursor ∧
      s'.world.cursor = cursor.next page.nextLastKey page.endOfPrefix page.objects.length now ∧
      s'.world.ledger = s.world.ledger ∧ s.world.cursor.Before s'.world.cursor := by
  rcases syncEvent_cases h with ⟨owner, phase, action, out, hphase, hstep, rfl⟩ | ⟨hstored, -, hdone, -⟩
  · rcases syncStep_cases hstep with ⟨started, -, rfl⟩ | ⟨cursor, listing, -, -, rfl⟩ | ⟨cursor, page, o, pending, now, -, rfl⟩ |
      ⟨cursor, page, now, next, rfl, hcas, rfl⟩ | rfl
    · exact .inl ⟨rfl, rfl⟩
    · exact .inl ⟨rfl, rfl⟩
    · exact .inl ⟨rfl, rfl⟩
    · obtain ⟨hat, rfl, hbefore, -⟩ := syncEvent_store hordered hphase rfl hcas
      exact .inr ⟨owner, cursor, page, now, hphase, hat, rfl, rfl, hbefore⟩
    · exact .inl ⟨rfl, rfl⟩
  · refine .inl ⟨?_, hdone⟩
    unfold SyncWorld.cursor
    rw [hstored]

/-- In every run of competing owners, whatever the page budget: a segment whose object is in the mirror as long as
a rotation is in progress is registered when the rotation ends; every successful call moves the cursor on; and the successful calls
of a rotation, by full pages, meet different objects, so there are no more of them than the objects of the mirror in that rotation
allow. -/
theorem rotations_miss_nothing {owners : Nat} {events : List SyncEvent}
    (hrun : run (syncEvent cfg) (init owners) events = some s) (hstep : syncEvent cfg s event = some s') :
    (∀ key id, cfg.segmentId key = some id → s'.rotation = s.rotation + 1 →
      Transition.Meets (syncEvent cfg) (fun t _ => t.rotation = s.rotation → t.Holds key) (init owners)
        (events ++ [event]) → s'.Registered id) ∧
    (s'.done = s.done + 1 → s.world.cursor.Before s'.world.cursor) ∧
    ∀ keys : List Text,
      Transition.Meets (syncEvent cfg)
        (fun t _ => t.rotation = s.rotation → ∀ k ∈ t.world.mirror.entries.map Prod.fst, k ∈ keys) (init owners)
        events → s.calls * cfg.budget ≤ keys.length := by
  have hordered := ordered_run hrun
  refine ⟨?_, ?_, ?_⟩
  · intro key id hid hended hholds
    have hregisters := registers_run hid (meets_append.mp hholds).1 hrun
    rcases cursor_of_syncEvent hordered hstep with ⟨hcursor, -⟩ | ⟨owner, cursor, page, now, hphase, hat, hcursor, hledger, -⟩
    · unfold SyncState.rotation at hended
      rw [hcursor] at hended
      omega
    · have hend : page.endOfPrefix = true := by
        have hsame := hat.1
        unfold SyncState.rotation at hended
        rw [hcursor, MirrorSyncCursor.next, hsame, Nat.add_left_cancel_iff] at hended
        exact Bool.toNat_eq_one.mp hended
      have hregistered := hregisters.registered hphase hat rfl (.inl hend)
      unfold SyncState.Registered
      rw [hledger]
      exact hregistered
  · intro hdone
    rcases cursor_of_syncEvent hordered hstep with ⟨-, hsame⟩ | ⟨-, -, -, -, -, -, -, -, hbefore⟩
    · omega
    · exact hbefore
  · intro keys hall
    obtain ⟨seen, hnodup, hlength, hseen⟩ := (counted_run hall hrun).seen rfl
    rw [← hlength]
    exact (subperm_of_subset hnodup fun k hk => (hseen k hk).1).length_le

/-! ## Runs on fixed inputs -/

def pagesOfOne : SyncConfig := ⟨"w".toList, 1, true⟩

variable (n : Nat)

/-- The keys of segments of the tenant `t`, in the order they are made. -/
def nthKey : Text := sealedKey "w".toList "t".toList eventsIndexId (List.replicate n 'a')

def oneFile : MirrorEntry := ⟨true, 8⟩

/-- A call on a mirror with one object. -/
def callOn : List SyncEvent :=
  [.call 0 (.load 0), .call 0 (.list [(nthKey n, oneFile)]), .call 0 (.register 0), .call 0 (.store 0)]

def uploadedMeanwhile : List SyncEvent :=
  [.call 0 (.load 0), .call 0 (.list []), .put (nthKey 1) oneFile, .call 0 (.store 0)] ++ callOn 1 ++
    [.call 0 (.load 0), .call 0 (.list [])]

/-- The object is in the mirror all through the rotation 1, and is registered when that ends. -/
theorem upload_registered : ∃ s s', run (syncEvent pagesOfOne) (init 1) uploadedMeanwhile = some s ∧
    syncEvent pagesOfOne s (.call 0 (.store 0)) = some s' ∧ s.rotation = 1 ∧ s'.rotation = 2 ∧ s'.Registered ['a'] := by
  have hrun : ((run (syncEvent pagesOfOne) (init 1) uploadedMeanwhile).bind fun s =>
      (syncEvent pagesOfOne s (.call 0 (.store 0))).map fun s' => (s.rotation, s'.rotation)) = some (1, 2) := by decide +kernel
  obtain ⟨s, hs, hmap⟩ := bind_eq_some_iff.mp hrun
  obtain ⟨s', hs', hrotations⟩ := map_eq_some_iff.mp hmap
  obtain ⟨hone, htwo⟩ := Prod.mk.inj hrotations
  refine ⟨s, s', hs, hs', hone, htwo, ?_⟩
  refine (rotations_miss_nothing hs hs').1 (nthKey 1) ['a'] (by decide +kernel) (by rw [hone, htwo]) ?_
  rw [hone]
  decide +kernel

/-- An object is uploaded, a call meets it, and it is removed again. -/
def chaseRound : List SyncEvent := .put (nthKey n) oneFile :: callOn n ++ [.remove (nthKey n)]

def chase : Nat → List SyncEvent
  | 0 => []
  | n + 1 => chase n ++ chaseRound n

theorem accepted_t : Accepted "t".toList eventsIndexId := ⟨⟨"t".toList, by decide +kernel⟩, Or.inr rfl⟩

theorem no_slash_replicate : '/' ∉ List.replicate n 'a' := fun h => absurd (eq_of_mem_replicate h) (by decide)

theorem nthKey_eq : nthKey n = "w/t/".toList ++ (List.replicate n 'a' ++ ".arrow".toList) := by
  have hdirs : prefixParts "w".toList ++ laneDirs "t".toList eventsIndexId = ["w".toList, "t".toList] := by decide +kernel
  unfold nthKey
  rw [sealedKey_eq accepted_t (no_slash_replicate n), ← append_assoc, hdirs, cons_append, singleton_append,
    joinSlashes_cons_cons, joinSlashes_cons_cons, joinSlashes_singleton]
  rfl

theorem nthKey_lt : nthKey n < nthKey (n + 1) := by
  have hstems : List.replicate n 'a' ++ ".arrow".toList < List.replicate (n + 1) 'a' ++ ".arrow".toList := by
    induction n with
    | zero => decide
    | succ n ih =>
      rw [replicate_succ, replicate_succ, cons_append, cons_append, cons_lt_cons_iff]
      exact .inr ⟨rfl, ih⟩
  rw [nthKey_eq, nthKey_eq]
  simpa [cons_lt_cons_iff] using hstems

def nthObject : MirrorSyncObject :=
  ⟨nthKey n, List.replicate n 'a', "t".toList, [],
    "w".toList ++ '/' :: mirrorKeySuffix "t".toList eventsIndexId (List.replicate n 'a'), 8⟩

theorem object?_nthKey : pagesOfOne.object? (nthKey n, oneFile) = some (nthObject n) := by
  have hobject := mirrorSyncObject_sealedKey accepted_t (no_slash_replicate n) "w".toList 8
  rw [if_pos (by decide +kernel)] at hobject
  exact hobject

theorem under_nthKey : pagesOfOne.under (nthKey n) = true := by
  have htrimmed : pagesOfOne.trimmed ++ ['/'] = "w/".toList := by decide
  rw [SyncConfig.under, htrimmed, nthKey_eq, isPrefixOf_iff_prefix]
  exact ⟨"t/".toList ++ (List.replicate n 'a' ++ ".arrow".toList), rfl⟩

theorem syncStep_list_nthKey {w : SyncWorld} {c : MirrorSyncCursor} {n : Nat} (hmirror : w.mirror.entries = [(nthKey n, oneFile)])
    (hafter : After c.lastKey (nthKey n)) (hcount : c.previousObjects ≤ i64Max) :
    syncStep pagesOfOne w (.loaded c) (.list [(nthKey n, oneFile)]) =
      some ⟨w, .registering c ⟨[nthObject n], false⟩ [nthObject n], false⟩ := by
  have hyields : pagesOfOne.Yields w.mirror c.lastKey [(nthKey n, oneFile)] := by
    have hstart : pagesOfOne.supportsStartAfter = true := rfl
    unfold SyncConfig.Yields
    rw [if_pos hstart, hmirror, filter_cons_of_pos (by simp [under_nthKey, hafter]), filter_nil]
  have hpage : listMirrorSyncPage pagesOfOne c.lastKey [(nthKey n, oneFile)] = ⟨[nthObject n], false⟩ := by
    unfold listMirrorSyncPage
    rw [filterMap_cons_some (object?_nthKey n), filterMap_nil]
    rfl
  have hfits : ¬ u64Max < c.previousObjects + 1 := by
    unfold u64Max
    unfold i64Max at hcount
    omega
  simp only [syncStep]
  rw [if_pos hyields, hpage]
  exact if_neg hfits

theorem compareAndSet_chase {stored : Option MirrorSyncCursor} {c : MirrorSyncCursor} {n : Nat} (hat : c.At (stored.getD .start))
    (hrotation : c.rotation = 0) (hcount : c.previousObjects ≤ i64Max) :
    compareAndSetMirrorSyncCursor stored c (some (nthKey n)) false 1 0 =
      if c.previousObjects < i64Max then .ok (some (c.next (some (nthKey n)) false 1 0)) else .error .countRange := by
  have hreplace : ∀ next, replaceCursor stored c next = some next := by
    intro next
    cases stored with
    | none => rfl
    | some row => exact if_pos ⟨hat.1.symm, hat.2.symm⟩
  have hfits : ¬ u64Max < c.previousObjects + 1 := by
    unfold u64Max
    unfold i64Max at hcount
    omega
  have hrange : ¬ i64Max < 0 + false.toNat := Nat.not_lt_zero _
  unfold compareAndSetMirrorSyncCursor
  rw [Bool.false_and, if_neg Bool.false_ne_true, hrotation, if_neg (Nat.not_lt_zero _), if_neg hrange, if_neg hfits, hreplace]
  split_ifs <;> first | rfl | omega

/-- The mirror is empty, no call is in progress, and the cursor of rotation zero is before the next key; up to the largest count
every call has succeeded. -/
structure Chasing (n : Nat) (s : SyncState) : Prop where
  mirror : s.world.mirror.entries = []
  owners : s.owners = [.idle]
  rotation : s.rotation = 0
  behind : After s.world.cursor.lastKey (nthKey n)
  count : s.world.cursor.previousObjects ≤ i64Max
  done : n ≤ i64Max → s.done = n ∧ s.world.cursor.previousObjects = n

section OneOwner

variable {w w' : SyncWorld} {phase phase' : SyncPhase} {action : SyncAction} {done calls : Nat}

theorem syncEvent_quiet (h : syncStep cfg w phase action = some ⟨w', phase', false⟩) :
    syncEvent cfg ⟨w, [phase], done, calls⟩ (.call 0 action) = some ⟨w', [phase'], done, calls⟩ := by
  simp [syncEvent, h]

theorem syncEvent_success (h : syncStep cfg w phase action = some ⟨w', phase', true⟩)
    (hrotation : w'.cursor.rotation = w.cursor.rotation) :
    syncEvent cfg ⟨w, [phase], done, calls⟩ (.call 0 action) = some ⟨w', [phase'], done + 1, calls + 1⟩ := by
  simp [syncEvent, h, SyncState.rotation, hrotation]

end OneOwner

theorem Chasing.round {n : Nat} (h : Chasing n s) :
    ∃ s', run (syncEvent pagesOfOne) s (chaseRound n) = some s' ∧ Chasing (n + 1) s' := by
  obtain ⟨⟨mirror, ledger, stored⟩, owners, done, calls⟩ := s
  obtain rfl : owners = [.idle] := h.owners
  have hmirror : (mirror.upsert (nthKey n) fun _ => oneFile).entries = [(nthKey n, oneFile)] := by
    have hempty : mirror.entries = [] := h.mirror
    simp [SortedMap.upsert, hempty, SortedMap.upsertEntries]
  have hremoved : ((mirror.upsert (nthKey n) fun _ => oneFile).erase (nthKey n)).entries = [] := by
    simp [SortedMap.erase, hmirror]
  -- the cursor as the call reads it
  obtain ⟨c, hc⟩ : ∃ c : MirrorSyncCursor, c = { stored.getD .start with
      rotationStartedAt := some (((stored.getD .start).rotationStartedAt).getD 0) } := ⟨_, rfl⟩
  have hat : c.At (stored.getD .start) := by rw [hc]; exact ⟨rfl, rfl⟩
  have hcount : c.previousObjects = (stored.getD .start).previousObjects := by rw [hc]; rfl
  have hrotation : c.rotation = 0 := hat.1.trans h.rotation
  have hbehind : After c.lastKey (nthKey n) := by rw [hat.2]; exact h.behind
  have hcounted : c.previousObjects ≤ i64Max := by rw [hcount]; exact h.count
  have hload : syncStep pagesOfOne ⟨mirror.upsert (nthKey n) fun _ => oneFile, ledger, stored⟩ .idle (.load 0) =
      some ⟨⟨mirror.upsert (nthKey n) fun _ => oneFile, ledger, stored⟩, .loaded c, false⟩ := by rw [hc]; rfl
  have hlist := syncStep_list_nthKey (w := ⟨mirror.upsert (nthKey n) fun _ => oneFile, ledger, stored⟩) (c := c) hmirror hbehind
    hcounted
  have hcas := compareAndSet_chase (n := n) hat hrotation hcounted
  have hkey : MirrorSyncPage.nextLastKey ⟨[nthObject n], false⟩ = some (nthKey n) := rfl
  unfold chaseRound callOn
  simp only [cons_append, nil_append]
  rw [run_cons_of_step rfl, run_cons_of_step (syncEvent_quiet hload),
    run_cons_of_step (syncEvent_quiet hlist), run_cons_of_step (syncEvent_quiet rfl)]
  by_cases hfits : c.previousObjects < i64Max
  · rw [if_pos hfits] at hcas
    have hstore : ∀ m l, syncStep pagesOfOne ⟨m, l, stored⟩ (.registering c ⟨[nthObject n], false⟩ []) (.store 0) =
        some ⟨⟨m, l, some (c.next (some (nthKey n)) false 1 0)⟩, .idle, true⟩ := by
      intro m l
      simp only [syncStep, hkey, length_singleton, hcas]
    rw [run_cons_of_step (syncEvent_success (hstore _ _) hat.1), run_cons_of_step rfl]
    refine ⟨_, rfl, hremoved, rfl, hrotation, ?_, ?_, ?_⟩
    · rintro last hlast
      cases hlast
      exact nthKey_lt n
    · exact Nat.succ_le_of_lt hfits
    · intro hn
      obtain ⟨hdone, hobjects⟩ := h.done (Nat.le_of_succ_le hn)
      exact ⟨congrArg Nat.succ hdone, congrArg Nat.succ (hcount.trans hobjects)⟩
  · rw [if_neg hfits] at hcas
    have hstore : ∀ m l, syncStep pagesOfOne ⟨m, l, stored⟩ (.registering c ⟨[nthObject n], false⟩ []) (.store 0) =
        some ⟨⟨m, l, stored⟩, .idle, false⟩ := by
      intro m l
      simp only [syncStep, hkey, length_singleton, hcas]
    rw [run_cons_of_step (syncEvent_quiet (hstore _ _)), run_cons_of_step rfl]
    refine ⟨_, rfl, hremoved, rfl, h.rotation, h.behind.of_lt (nthKey_lt n), h.count, ?_⟩
    intro hn
    have hobjects := (h.done (Nat.le_of_succ_le hn)).2
    have hsame := hcount.trans hobjects
    omega

/-- Objects that keep coming in ahead of the cursor keep the rotation from ending: it is still the first after any number of rounds,
each with a call on one object, although the calls succeed as long as the count of objects has room. The mirror never has more than
one object. -/
theorem rotation_never_ends :
    (∀ n, chase (n + 1) = chase n ++ chaseRound n) ∧
    ∀ n, ∃ s, run (syncEvent pagesOfOne) (init 1) (chase n) = some s ∧ s.rotation = 0 ∧
      (n ≤ i64Max → s.done = n) ∧ s.world.mirror.entries = [] := by
  refine ⟨fun n => rfl, fun n => ?_⟩
  have hchasing : ∃ s, run (syncEvent pagesOfOne) (init 1) (chase n) = some s ∧ Chasing n s := by
    induction n with
    | zero =>
      refine ⟨init 1, rfl, rfl, rfl, rfl, ?_, Nat.zero_le _, fun _ => ⟨rfl, rfl⟩⟩
      rintro last hlast
      cases hlast
    | succ n ih =>
      obtain ⟨s, hs, hchasing⟩ := ih
      obtain ⟨s', hs', hnext⟩ := hchasing.round
      exact ⟨s', run_append_eq_some.mpr ⟨s, hs, hs'⟩, hnext⟩
  obtain ⟨s, hs, h⟩ := hchasing
  exact ⟨s, hs, h.rotation, fun hn => (h.done hn).1, h.mirror⟩

end LogLake.Mirror
