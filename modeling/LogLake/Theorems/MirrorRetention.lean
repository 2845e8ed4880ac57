import LogLake.Lemmas.MirrorSync
import LogLake.Mirror.Retention

/-! # Retention and reconciliation under one lease -/

namespace LogLake.Mirror

open List Prod

open Catalog (Ledger purgeableCommitted purgeCommitted)
open KeyedTable (row_eq_some row_retain)
open Transition (run)
open Option (ite_none_right_eq_some map_eq_some_iff bind_eq_some_iff)

variable {cfg : MaintenanceConfig} {s s' : MaintenanceState} {action : MaintenanceAction}

/-! ## Objects and rows -/

section Objects

variable {sync : SyncConfig} {mirror : Store} {key : Text} {o : MirrorSyncObject}

theorem mem_objects : o ∈ sync.objects mirror ↔
    ∃ e, mirror.get? o.path = some e ∧ sync.under o.path = true ∧ sync.object? (o.path, e) = some o := by
  simp only [SyncConfig.objects, mem_filterMap, mem_filter]
  constructor
  · rintro ⟨⟨k, e⟩, ⟨hmem, hunder⟩, ho⟩
    obtain rfl : o.path = k := (object?_eq_some ho).2.1
    exact ⟨e, SortedMap.get?_eq_some_iff.mpr hmem, hunder, ho⟩
  · rintro ⟨e, hget, hunder, ho⟩
    exact ⟨(o.path, e), ⟨SortedMap.get?_eq_some_iff.mp hget, hunder⟩, ho⟩

theorem mem_objects_upsert {entry : MirrorEntry} (h : o ∈ sync.objects (mirror.upsert key fun _ => entry)) :
    sync.object? (key, entry) = some o ∨ o ∈ sync.objects mirror := by
  obtain ⟨e, hget, hunder, ho⟩ := mem_objects.mp h
  rw [SortedMap.get?_upsert] at hget
  split at hget
  · next hkey =>
    cases hget
    exact .inl (hkey ▸ ho)
  · exact .inr (mem_objects.mpr ⟨e, hget, hunder, ho⟩)

theorem mem_objects_erase (h : o ∈ sync.objects (mirror.erase key)) : o ∈ sync.objects mirror ∧ o.path ≠ key := by
  obtain ⟨e, hget, hunder, ho⟩ := mem_objects.mp h
  rw [SortedMap.get?_erase] at hget
  split at hget
  · cases hget
  · next hkey => exact ⟨mem_objects.mpr ⟨e, hget, hunder, ho⟩, hkey⟩

end Objects

variable {ledger : Ledger} {id : Text}

theorem row_of_mem_purgeable {now maxAge : Int} {limit : Nat} {key : Text}
    (h : (id, key) ∈ purgeableCommitted now maxAge limit ledger) :
    ∃ row, ledger.row id = some row ∧ row.status = .committed ∧ row.segmentUrl = key := by
  obtain ⟨⟨t, e⟩, he, heq⟩ := mem_map.mp h
  obtain rfl : e = (id, key) := heq
  have hmem := (mem_insertionSort _).mp (mem_of_mem_take he)
  obtain ⟨row, hrow, hsome⟩ := mem_filterMap.mp hmem
  obtain ⟨hcommitted, hsome⟩ := ite_none_right_eq_some.mp hsome
  obtain ⟨t', -, heq⟩ := map_eq_some_iff.mp hsome
  simp only [Prod.mk.injEq] at heq
  exact ⟨row, row_eq_some.mpr ⟨hrow, heq.2.1⟩, hcommitted, heq.2.2⟩

variable {ids : List Text}

theorem row_purgeCommitted {row : Catalog.Row}
    (h : (purgeCommitted ids ledger).row id = some row) : ledger.row id = some row := by
  unfold purgeCommitted at h
  rw [row_retain] at h
  exact (Option.filter_eq_some_iff.mp h).1

theorem row_purgeCommitted_eq_none (h : (purgeCommitted ids ledger).row id = none) : ledger.row id = none ∨ id ∈ ids := by
  unfold purgeCommitted at h
  rw [row_retain] at h
  cases hrow : ledger.row id with
  | none => exact .inl rfl
  | some row =>
    rw [hrow, Option.filter_some] at h
    split at h
    · cases h
    · next hnot =>
      have hkey := KeyedTable.key_of_row hrow
      simp only [decide_eq_true_eq, not_not] at hnot
      exact .inr (hkey ▸ hnot.2)

theorem row_register (o : MirrorSyncObject) (rows now : Int) (ledger : Ledger) (id : Text) :
    (Catalog.register o.id o.tenant o.indexId o.url o.bytes.toInt rows now ledger).row id =
      if o.id = id then some ((ledger.row id).getD
        (Catalog.newRow o.id o.tenant o.indexId o.url o.bytes.toInt rows now)) else ledger.row id :=
  KeyedTable.row_insertNew ..

/-! ## The invariant -/

/-- The segment is drained and the mirror has no object of it. -/
def Cleared (cfg : MaintenanceConfig) (w : SyncWorld) (drained : List Text) (id : Text) : Prop :=
  id ∈ drained ∧ ∀ o ∈ cfg.sync.objects w.mirror, o.id ≠ id

/-- What a pass holds on to: a reconciliation registers no drained segment anew, and retention purges only what is cleared. -/
def PassOk (cfg : MaintenanceConfig) (w : SyncWorld) (uploaded : List (Text × Text)) (drained : List Text) : Pass → Prop
  | .sync (.registering _ _ pending) =>
    ∀ o ∈ pending, (o.id, o.url) ∈ uploaded ∧ (o.id ∈ drained → w.ledger.row o.id ≠ none)
  | .retention (.deleting _ _ _ pending deletable) =>
    (∀ e ∈ pending, e ∈ uploaded ∧ e.1 ∈ drained) ∧ ∀ id ∈ deletable, Cleared cfg w drained id
  | .retention (.purging _ _ _ ids) => ∀ id ∈ ids, Cleared cfg w drained id
  | _ => True

/-- The mirror and the ledger: objects and rows are of uploads, each id with one key; the rows of drained segments are committed and
no others; and a drained segment without a row has no object. -/
structure CoreOk (cfg : MaintenanceConfig) (w : SyncWorld) (uploaded : List (Text × Text)) (drained : List Text) : Prop where
  once : ∀ e ∈ uploaded, ∀ e' ∈ uploaded, e.1 = e'.1 → e = e'
  objects : ∀ o ∈ cfg.sync.objects w.mirror, (o.id, o.path) ∈ uploaded ∧ o.url = o.path
  rows : ∀ id row, w.ledger.row id = some row → (id, row.segmentUrl) ∈ uploaded ∧ (row.status = .committed ↔ id ∈ drained)
  gone : ∀ id ∈ drained, w.ledger.row id = none → ∀ o ∈ cfg.sync.objects w.mirror, o.id ≠ id

/-- One operation is in progress at most. -/
def Exclusive (passes : List Pass) : Prop :=
  ∀ (i j : Nat) (p q : Pass), passes[i]? = some p → passes[j]? = some q → p.working = true → q.working = true → i = j

structure Maintained (cfg : MaintenanceConfig) (s : MaintenanceState) : Prop where
  core : CoreOk cfg s.world s.uploaded s.drained
  passes : ∀ pass ∈ s.passes, PassOk cfg s.world s.uploaded s.drained pass
  exclusive : Exclusive s.passes

variable {passes : List Pass}

theorem Exclusive.set (h : Exclusive passes) {i : Nat} {p : Pass}
    (hp : p.working = true → ∀ j q, passes[j]? = some q → q.working = true → j = i) : Exclusive (passes.set i p) := by
  intro a b x y hx hy hxw hyw
  rw [List.getElem?_set] at hx hy
  split at hx <;> split at hy
  · next ha hb => exact ha.symm.trans hb
  · next ha hb =>
    obtain ⟨-, rfl⟩ := Option.ite_some_none_eq_some.mp hx
    exact (ha ▸ (hp hxw b y hy hyw).symm)
  · next ha hb =>
    obtain ⟨-, rfl⟩ := Option.ite_some_none_eq_some.mp hy
    exact (hb ▸ hp hyw a x hx hxw)
  · exact h a b x y hx hy hxw hyw

theorem Exclusive.step (h : Exclusive passes) {i : Nat} {p q : Pass} (hp : passes[i]? = some p)
    (hworking : p.working = true) : Exclusive (passes.set i q) :=
  h.set fun _ j _ hj hjw => h j i _ _ hj hp hjw hworking

theorem Exclusive.stop (h : Exclusive passes) (i : Nat) {p : Pass} (hp : p.working = false) : Exclusive (passes.set i p) :=
  h.set fun hw => by rw [hp] at hw; cases hw

variable {uploaded : List (Text × Text)} {w : SyncWorld}

theorem PassOk.of_not_working {drained : List Text} {pass : Pass}
    (h : pass.working = false) : PassOk cfg w uploaded drained pass := by
  cases pass with
  | idle => trivial
  | sync phase | retention phase => cases h
  | releasing => trivial

/-- What changes of the mirror and the ledger leave to the passes: uploads and drained segments stay, no new object is of a drained
segment, and a drained segment does not lose its row. -/
structure Evolves (cfg : MaintenanceConfig) (w : SyncWorld) (uploaded : List (Text × Text)) (drained : List Text) (w' : SyncWorld)
    (uploaded' : List (Text × Text)) (drained' : List Text) : Prop where
  uploads : ∀ e ∈ uploaded, e ∈ uploaded'
  drains : ∀ id ∈ drained, id ∈ drained'
  objects : ∀ o ∈ cfg.sync.objects w'.mirror, o.id ∈ drained → o ∈ cfg.sync.objects w.mirror
  rows : ∀ id ∈ drained', w'.ledger.row id = none → id ∈ drained ∧ w.ledger.row id = none

section Evolution

variable {w w' : SyncWorld} {uploaded uploaded' : List (Text × Text)} {drained drained' : List Text}

theorem Cleared.evolves {id : Text} (h : Cleared cfg w drained id)
    (hevolves : Evolves cfg w uploaded drained w' uploaded' drained') : Cleared cfg w' drained' id := by
  refine ⟨hevolves.drains id h.1, fun o ho heq => ?_⟩
  exact h.2 o (hevolves.objects o ho (heq ▸ h.1)) heq

theorem PassOk.evolves {pass : Pass} (h : PassOk cfg w uploaded drained pass)
    (hevolves : Evolves cfg w uploaded drained w' uploaded' drained') : PassOk cfg w' uploaded' drained' pass := by
  rcases pass with _ | phase | phase | _
  · trivial
  · rcases phase with _ | _ | ⟨cursor, page, pending⟩
    · trivial
    · trivial
    · intro o ho
      refine ⟨hevolves.uploads _ (h o ho).1, fun hdrained hnone => ?_⟩
      obtain ⟨hold, hrow⟩ := hevolves.rows o.id hdrained hnone
      exact (h o ho).2 hold hrow
  · rcases phase with _ | ⟨examined, limit, selected, pending, deletable⟩ | ⟨examined, limit, selected, ids⟩ | _
    · trivial
    · exact ⟨fun e he => ⟨hevolves.uploads e (h.1 e he).1, hevolves.drains _ (h.1 e he).2⟩,
        fun id hid => (h.2 id hid).evolves hevolves⟩
    · exact fun id hid => (h id hid).evolves hevolves
    · trivial
  · trivial

theorem Evolves.of_ledger (hmirror : w'.mirror = w.mirror) (hrows : ∀ id, w'.ledger.row id = none → w.ledger.row id = none) :
    Evolves cfg w uploaded drained w' uploaded drained where
  uploads _ he := he
  drains _ hid := hid
  objects o ho _ := by rwa [hmirror] at ho
  rows id hid hnone := ⟨hid, hrows id hnone⟩

/-! ## What happens to the mirror and the ledger -/

variable {o : MirrorSyncObject} {key : Text} {entry : MirrorEntry}

theorem CoreOk.upload (h : CoreOk cfg w uploaded drained) (ho : cfg.sync.object? (key, entry) = some o) (hurl : o.url = key)
    (hfresh : o.id ∉ drained) (hkey : ∀ e ∈ uploaded, e.1 = o.id → e.2 = key) :
    CoreOk cfg { w with mirror := w.mirror.upsert key fun _ => entry } ((o.id, key) :: uploaded) drained ∧
      Evolves cfg w uploaded drained { w with mirror := w.mirror.upsert key fun _ => entry } ((o.id, key) :: uploaded) drained := by
  have hobjects : ∀ o' ∈ cfg.sync.objects (w.mirror.upsert key fun _ => entry), o' = o ∨ o' ∈ cfg.sync.objects w.mirror := by
    intro o' ho'
    rcases mem_objects_upsert ho' with hnew | hold
    · rw [ho, Option.some.injEq] at hnew
      exact .inl hnew.symm
    · exact .inr hold
  have hpath : o.path = key := (object?_eq_some ho).2.1
  have hold : ∀ e ∈ uploaded, e.1 = o.id → e = (o.id, key) := fun e he heq => Prod.ext heq (hkey e he heq)
  refine ⟨⟨?_, ?_, ?_, ?_⟩, ⟨fun _ he => mem_cons_of_mem _ he, fun _ hid => hid, ?_, fun _ hid hnone => ⟨hid, hnone⟩⟩⟩
  · intro e he e' he' heq
    rcases mem_cons.mp he with rfl | he <;> rcases mem_cons.mp he' with rfl | he'
    · rfl
    · exact (hold e' he' heq.symm).symm
    · exact hold e he heq
    · exact h.once e he e' he' heq
  · intro o' ho'
    rcases hobjects o' ho' with rfl | hold
    · exact ⟨hpath ▸ mem_cons_self, hurl.trans hpath.symm⟩
    · exact ⟨mem_cons_of_mem _ (h.objects o' hold).1, (h.objects o' hold).2⟩
  · exact fun id row hrow => ⟨mem_cons_of_mem _ (h.rows id row hrow).1, (h.rows id row hrow).2⟩
  · intro id hid hnone o' ho' heq
    rcases hobjects o' ho' with rfl | hold
    · exact hfresh (heq ▸ hid)
    · exact h.gone id hid hnone o' hold heq
  · intro o' ho' hid
    exact (hobjects o' ho').resolve_left fun heq => hfresh (heq ▸ hid)

theorem CoreOk.register (h : CoreOk cfg w uploaded drained) (hupload : (o.id, o.url) ∈ uploaded)
    (hrow : o.id ∈ drained → w.ledger.row o.id ≠ none) (rows now : Int) :
    CoreOk cfg { w with ledger := Catalog.register o.id o.tenant o.indexId o.url o.bytes.toInt rows now w.ledger } uploaded drained ∧
      Evolves cfg w uploaded drained
        { w with ledger := Catalog.register o.id o.tenant o.indexId o.url o.bytes.toInt rows now w.ledger } uploaded drained := by
  have hnone : ∀ id, (Catalog.register o.id o.tenant o.indexId o.url o.bytes.toInt rows now w.ledger).row id = none →
      w.ledger.row id = none := by
    intro id hid
    rw [row_register] at hid
    split at hid
    · cases hid
    · exact hid
  refine ⟨⟨h.once, h.objects, ?_, fun id hid hgone => h.gone id hid (hnone id hgone)⟩, Evolves.of_ledger rfl hnone⟩
  intro id row hid
  dsimp only at hid
  rw [row_register] at hid
  split at hid
  · next heq =>
    subst heq
    rw [Option.some.injEq] at hid
    cases hold : w.ledger.row o.id with
    | none =>
      rw [hold, Option.getD_none] at hid
      subst hid
      refine ⟨hupload, fun hcommitted => ?_, fun hdrained => absurd hold (hrow hdrained)⟩
      cases hcommitted
    | some old =>
      rw [hold, Option.getD_some] at hid
      exact hid ▸ h.rows o.id old hold
  · exact h.rows id row hid

theorem mem_committedIds {ledger : Ledger} {id : Text} :
    id ∈ committedIds ledger ↔ ∃ row, ledger.row id = some row ∧ row.status = .committed := by
  simp only [committedIds, mem_map, mem_filter, decide_eq_true_eq, row_eq_some]
  constructor
  · rintro ⟨row, ⟨hmem, hcommitted⟩, hid⟩
    exact ⟨row, ⟨hmem, hid⟩, hcommitted⟩
  · rintro ⟨row, ⟨hmem, hid⟩, hcommitted⟩
    exact ⟨row, ⟨hmem, hcommitted⟩, hid⟩

section

variable (h : CoreOk cfg w uploaded drained)
include h

theorem CoreOk.drain {next : Ledger} (hdrains : Drains w.ledger next) :
    CoreOk cfg { w with ledger := next } uploaded (committedIds next ++ drained) ∧
      Evolves cfg w uploaded drained { w with ledger := next } uploaded (committedIds next ++ drained) := by
  have hold : ∀ id row, next.row id = some row → ∃ old, w.ledger.row id = some old ∧ old.segmentUrl = row.segmentUrl ∧
      (old.status = .committed → row.status = .committed) := by
    intro id row hrow
    obtain ⟨hmem, rfl⟩ := row_eq_some.mp hrow
    obtain ⟨old, hold, hid, hurl, hstatus⟩ := hdrains.2 row hmem
    exact ⟨old, row_eq_some.mpr ⟨hold, hid⟩, hurl, hstatus⟩
  have hnone : ∀ id ∈ committedIds next ++ drained, next.row id = none → id ∈ drained ∧ w.ledger.row id = none := by
    intro id hid hgone
    rcases mem_append.mp hid with hid | hid
    · obtain ⟨row, hrow, -⟩ := mem_committedIds.mp hid
      rw [hrow] at hgone
      cases hgone
    · refine ⟨hid, ?_⟩
      by_contra hsome
      obtain ⟨old, hrow⟩ := Option.ne_none_iff_exists'.mp hsome
      obtain ⟨hmem, rfl⟩ := row_eq_some.mp hrow
      have hkept := hdrains.1 old hmem
      rw [hgone] at hkept
      cases hkept
  refine ⟨⟨h.once, h.objects, ?_, ?_⟩, ⟨fun _ he => he, fun _ hid => mem_append_right _ hid, fun _ ho _ => ho, hnone⟩⟩
  · intro id row hrow
    obtain ⟨old, holdRow, hurl, hstatus⟩ := hold id row hrow
    obtain ⟨hupload, hmarked⟩ := h.rows id old holdRow
    refine ⟨hurl ▸ hupload, fun hcommitted => ?_, fun hid => ?_⟩
    · exact mem_append_left _ (mem_committedIds.mpr ⟨row, hrow, hcommitted⟩)
    · rcases mem_append.mp hid with hid | hid
      · obtain ⟨row', hrow', hcommitted⟩ := mem_committedIds.mp hid
        obtain rfl : row = row' := Option.some.inj (hrow.symm.trans hrow')
        exact hcommitted
      · exact hstatus (hmarked.mpr hid)
  · intro id hid hgone
    obtain ⟨hdrained, hrow⟩ := hnone id hid hgone
    exact h.gone id hdrained hrow

theorem CoreOk.erase (key : Text) : CoreOk cfg { w with mirror := w.mirror.erase key } uploaded drained ∧
      Evolves cfg w uploaded drained { w with mirror := w.mirror.erase key } uploaded drained where
  left := ⟨h.once, fun o ho => h.objects o (mem_objects_erase ho).1, h.rows,
    fun id hid hnone o ho => h.gone id hid hnone o (mem_objects_erase ho).1⟩
  right := ⟨fun _ he => he, fun _ hid => hid, fun _ ho _ => (mem_objects_erase ho).1, fun _ hid hnone => ⟨hid, hnone⟩⟩

theorem CoreOk.cleared_of_erase {e : Text × Text} (hupload : e ∈ uploaded) (hdrained : e.1 ∈ drained) :
    Cleared cfg { w with mirror := w.mirror.erase e.2 } drained e.1 := by
  refine ⟨hdrained, fun o ho heq => ?_⟩
  obtain ⟨hold, hpath⟩ := mem_objects_erase ho
  have hother := (h.objects o hold).1
  -- one id, one key
  have hsame : (o.id, o.path) = e := h.once _ hother _ hupload heq
  exact hpath (congrArg snd hsame)

theorem CoreOk.purge (hids : ∀ id ∈ ids, Cleared cfg w drained id) :
    CoreOk cfg { w with ledger := purgeCommitted ids w.ledger } uploaded drained where
  __ := h
  rows id row hrow := h.rows id row (row_purgeCommitted hrow)
  gone := by
    intro id hid hnone
    rcases row_purgeCommitted_eq_none hnone with hnone | hpurged
    · exact h.gone id hid hnone
    · exact (hids id hpurged).2

end

end Evolution

/-! ## Steps -/

theorem passes_set {drained : List Text} {passes : List Pass} {i : Nat} {p : Pass}
    (h : ∀ pass ∈ passes, PassOk cfg w uploaded drained pass) (hp : PassOk cfg w uploaded drained p) :
    ∀ pass ∈ passes.set i p, PassOk cfg w uploaded drained pass := forall_mem_set h hp i

theorem Maintained.evolves (h : Maintained cfg s)
    (hevolves : Evolves cfg s.world s.uploaded s.drained s'.world s'.uploaded s'.drained) :
    ∀ pass ∈ s.passes, PassOk cfg s'.world s'.uploaded s'.drained pass :=
  fun pass hpass => (h.passes pass hpass).evolves hevolves

variable {owner : Nat}

theorem Maintained.pass (h : Maintained cfg s) {pass : Pass} (hpass : s.passes[owner]? = some pass) :
    PassOk cfg s.world s.uploaded s.drained pass := h.passes pass (mem_of_getElem? hpass)

theorem Maintained.sync (h : Maintained cfg s) {phase : SyncPhase} {action : SyncAction} {out : SyncOutcome}
    (hpass : s.passes[owner]? = some (.sync phase)) (hstep : syncStep cfg.sync s.world phase action = some out) :
    Maintained cfg { s with world := out.world, passes := s.passes.set owner (.afterSync out.phase) } := by
  have hexclusive : Exclusive (s.passes.set owner (.afterSync out.phase)) := h.exclusive.step hpass rfl
  have hok := h.pass hpass
  rcases syncStep_cases hstep with ⟨started, -, rfl⟩ | ⟨cursor, listing, -, hyields, rfl⟩ |
    ⟨cursor, page, o, pending, now, rfl, rfl⟩ | ⟨cursor, page, now, next, -, -, rfl⟩ | rfl
  · exact ⟨h.core, passes_set h.passes trivial, hexclusive⟩
  · refine ⟨h.core, passes_set h.passes ?_, hexclusive⟩
    -- what is listed is in the mirror, so a drained segment of it has its row
    intro o ho
    have hmem := (isPage_listMirrorSyncPage hyields).mem o ho
    obtain ⟨hupload, hurl⟩ := h.core.objects o hmem
    exact ⟨hurl ▸ hupload, fun hdrained hnone => h.core.gone o.id hdrained hnone o hmem rfl⟩
  · obtain ⟨hupload, hrow⟩ := hok o mem_cons_self
    obtain ⟨hcore, hevolves⟩ := h.core.register hupload hrow 0 now
    have hrest : PassOk cfg s.world s.uploaded s.drained (.sync (.registering cursor page pending)) :=
      fun o' ho' => hok o' (mem_cons_of_mem _ ho')
    exact ⟨hcore, passes_set (h.evolves hevolves) (hrest.evolves hevolves), hexclusive⟩
  · have hevolves : Evolves cfg s.world s.uploaded s.drained { s.world with stored := some next } s.uploaded s.drained :=
      Evolves.of_ledger rfl fun _ hnone => hnone
    refine ⟨⟨h.core.once, h.core.objects, h.core.rows, h.core.gone⟩,
      passes_set (h.evolves hevolves) trivial, hexclusive⟩
  · exact ⟨h.core, passes_set h.passes trivial, hexclusive⟩

variable {phase phase' : RetentionPhase}

theorem retentionStep_cases {now : Int} {w w' : SyncWorld} {action : RetentionAction}
    (h : retentionStep cfg now w phase action = some (w', phase')) : (w' = w ∧ phase' = .finished) ∨
    (∃ examined limit selected, w' = w ∧
      phase' = .deleting examined limit selected (purgeableCommitted now cfg.maxAge limit w.ledger) []) ∨
    (∃ examined limit selected pending deletable row result, phase = .deleting examined limit selected pending deletable ∧
      row ∈ pending ∧ w' = { w with mirror := if Deletion.removes result then w.mirror.erase row.2 else w.mirror } ∧
      phase' = .deleting examined limit selected (pending.erase row)
        (if result = .deleted then row.1 :: deletable else deletable)) ∨
    (∃ examined limit selected ids, phase = .deleting examined limit selected [] ids ∧ w' = w ∧
      phase' = .purging examined limit selected ids) ∨
    ∃ examined limit selected ids, phase = .purging examined limit selected ids ∧
      w' = { w with ledger := purgeCommitted (ids.take purgeChunk) w.ledger } ∧
      (phase' = .purging examined limit selected (ids.drop purgeChunk) ∨ phase' = .finished ∨ phase' = .selecting examined) := by
  cases phase with
  | selecting examined =>
    cases action <;> try cases h
    · next ok =>
      simp only [retentionStep] at h
      split at h
      · split at h
        · cases h
          exact .inl ⟨rfl, rfl⟩
        · cases h
          exact .inr (.inl ⟨_, _, _, rfl, rfl⟩)
      · cases h
        exact .inl ⟨rfl, rfl⟩
    · exact .inl ⟨rfl, rfl⟩
  | deleting examined limit selected pending deletable =>
    cases action with
    | select ok => cases h
    | delete row result =>
      obtain ⟨hmem, heq⟩ := ite_none_right_eq_some.mp h
      cases heq
      exact .inr (.inr (.inl ⟨_, _, _, _, _, row, result, rfl, hmem, rfl, rfl⟩))
    | collect =>
      cases pending with
      | cons row pending => cases h
      | nil =>
        cases h
        split
        · exact .inl ⟨rfl, rfl⟩
        · exact .inr (.inr (.inr (.inl ⟨_, _, _, _, rfl, rfl, rfl⟩)))
    | purge ok => cases h
    | fail =>
      cases h
      exact .inl ⟨rfl, rfl⟩
  | purging examined limit selected ids =>
    cases action <;> try cases h
    · next ok =>
      simp only [retentionStep] at h
      split at h
      · cases h
        refine .inr (.inr (.inr (.inr ⟨_, _, _, _, rfl, rfl, ?_⟩)))
        split
        · exact .inl rfl
        · split
          · exact .inr (.inl rfl)
          · exact .inr (.inr rfl)
      · cases h
        exact .inl ⟨rfl, rfl⟩
    · exact .inl ⟨rfl, rfl⟩
  | finished =>
    cases action <;> try cases h
    exact .inl ⟨rfl, rfl⟩

theorem Maintained.retention (h : Maintained cfg s) {action : RetentionAction} (hpass : s.passes[owner]? = some (.retention phase))
    (hstep : retentionStep cfg s.now s.world phase action = some (w, phase')) :
    Maintained cfg { s with world := w, passes := s.passes.set owner (.afterRetention phase') } := by
  have hexclusive : Exclusive (s.passes.set owner (.afterRetention phase')) := h.exclusive.step hpass rfl
  have hok := h.pass hpass
  rcases retentionStep_cases hstep with ⟨rfl, rfl⟩ | ⟨examined, limit, selected, rfl, rfl⟩ |
    ⟨examined, limit, selected, pending, deletable, row, result, rfl, hrow, rfl, rfl⟩ | ⟨examined, limit, selected, ids, rfl, rfl, rfl⟩ |
    ⟨examined, limit, selected, ids, rfl, rfl, hphase⟩
  · exact ⟨h.core, passes_set h.passes trivial, hexclusive⟩
  · refine ⟨h.core, passes_set h.passes ⟨?_, fun id hid => absurd hid not_mem_nil⟩, hexclusive⟩
    rintro ⟨id, key⟩ he
    obtain ⟨row, hrow, hcommitted, rfl⟩ := row_of_mem_purgeable he
    exact ⟨(h.core.rows id row hrow).1, (h.core.rows id row hrow).2.mp hcommitted⟩
  · obtain ⟨hupload, hdrained⟩ := hok.1 row hrow
    obtain ⟨hcore, hevolves⟩ := h.core.erase row.2
    have hcleared := h.core.cleared_of_erase hupload hdrained
    cases result with
    | deleted =>
      refine ⟨hcore, passes_set (h.evolves hevolves) ⟨?_, ?_⟩, hexclusive⟩
      · exact fun e he => hok.1 e (mem_of_mem_erase he)
      · intro id hid
        rcases mem_cons.mp hid with rfl | hid
        · exact hcleared
        · exact (hok.2 id hid).evolves hevolves
    | failed =>
      refine ⟨h.core, passes_set h.passes ⟨?_, hok.2⟩, hexclusive⟩
      exact fun e he => hok.1 e (mem_of_mem_erase he)
    | failedAfter =>
      refine ⟨hcore, passes_set (h.evolves hevolves) ⟨?_, ?_⟩, hexclusive⟩
      · exact fun e he => hok.1 e (mem_of_mem_erase he)
      · exact fun id hid => (hok.2 id hid).evolves hevolves
  · exact ⟨h.core, passes_set h.passes hok.2, hexclusive⟩
  · have hchunk : ∀ id ∈ ids.take purgeChunk, Cleared cfg s.world s.drained id := fun id hid => hok id (mem_of_mem_take hid)
    refine ⟨h.core.purge hchunk, ?_, hexclusive⟩
    intro pass hmem
    obtain ⟨i, hi⟩ := List.getElem?_of_mem hmem
    by_cases howner : owner = i
    · -- the pass itself keeps the ids it has not got to
      subst howner
      rw [List.getElem?_set_self', hpass] at hi
      cases hi
      rcases hphase with rfl | rfl | rfl
      · exact fun id hid => hok id (mem_of_mem_drop hid)
      · trivial
      · trivial
    · -- no other operation is in progress
      rw [List.getElem?_set_ne howner] at hi
      refine PassOk.of_not_working (Bool.eq_false_iff.mpr fun hworking => ?_)
      exact howner (h.exclusive owner i _ _ hpass hi rfl hworking)

theorem maintained_step (h : Maintained cfg s) (hok : Undisturbed cfg s action) (hstep : maintenanceStep cfg s action = some s') :
    Maintained cfg s' := by
  cases action with
  | tick elapsed =>
    cases hstep
    exact { h with }
  | upload key entry =>
    obtain ⟨o, ho, hif⟩ := bind_eq_some_iff.mp hstep
    obtain ⟨⟨-, hurl⟩, rfl⟩ := Option.ite_some_none_eq_some.mp hif
    obtain ⟨hfresh, hkey⟩ := hok o ho
    obtain ⟨hcore, hevolves⟩ := h.core.upload ho hurl hfresh hkey
    exact ⟨hcore, h.evolves hevolves, h.exclusive⟩
  | announce o rows now =>
    obtain ⟨hupload, rfl⟩ := Option.ite_some_none_eq_some.mp hstep
    have hrow : o.id ∈ s.drained → s.world.ledger.row o.id ≠ none := fun hin => Option.isSome_iff_ne_none.mp (hok hin)
    obtain ⟨hcore, hevolves⟩ := h.core.register hupload hrow rows now
    exact ⟨hcore, h.evolves hevolves, h.exclusive⟩
  | drain statement =>
    obtain ⟨hdrains, rfl⟩ := Option.ite_some_none_eq_some.mp hstep
    obtain ⟨hcore, hevolves⟩ := h.core.drain hdrains
    exact ⟨hcore, h.evolves hevolves, h.exclusive⟩
  | acquire owner kind =>
    obtain ⟨-, hmap⟩ := ite_none_right_eq_some.mp hstep
    obtain ⟨lease, -, rfl⟩ := map_eq_some_iff.mp hmap
    refine ⟨h.core, passes_set h.passes (by cases kind <;> trivial), h.exclusive.set fun _ j q hq hworking => ?_⟩
    -- nobody else is at work
    by_contra hne
    have hidle := hok (q, j) (mem_zipIdx_iff_getElem?.mpr hq) hne
    rw [hworking] at hidle
    cases hidle
  | sync owner action =>
    obtain ⟨pass, hpass, hmatch⟩ := bind_eq_some_iff.mp hstep
    cases pass <;> try cases hmatch
    obtain ⟨out, hout, rfl⟩ := map_eq_some_iff.mp hmatch
    exact h.sync hpass hout
  | retention owner action =>
    obtain ⟨pass, hpass, hmatch⟩ := bind_eq_some_iff.mp hstep
    cases pass <;> try cases hmatch
    obtain ⟨⟨w, phase⟩, hout, rfl⟩ := map_eq_some_iff.mp hmatch
    exact h.retention hpass hout
  | renew owner =>
    obtain ⟨-, hmatch⟩ := ite_none_right_eq_some.mp hstep
    split at hmatch
    · cases hmatch
      exact { h with }
    · cases hmatch
      exact ⟨h.core, passes_set h.passes trivial, h.exclusive.stop owner rfl⟩
  | release owner =>
    obtain ⟨-, rfl⟩ := Option.ite_some_none_eq_some.mp hstep
    exact ⟨h.core, passes_set h.passes trivial, h.exclusive.stop owner rfl⟩
  | crash owner =>
    cases hstep
    exact ⟨h.core, passes_set h.passes trivial, h.exclusive.stop owner rfl⟩

theorem maintained_init (owners : Nat) : Maintained cfg (.init owners) where
  core :=
    { once := fun _ he => absurd he not_mem_nil
      objects := fun _ ho => absurd ho not_mem_nil
      rows := by
        intro id row hrow
        cases hrow
      gone := fun _ hid => absurd hid not_mem_nil }
  passes := by
    intro pass hpass
    obtain rfl := eq_of_mem_replicate hpass
    trivial
  exclusive := by
    intro i j p q hp _ hworking
    obtain rfl := eq_of_mem_replicate (mem_of_getElem? hp)
    cases hworking

/-- In every run in which no pass outlives its lease and no local copy its retention, a segment whose row has been committed
has a committed row or none: it is never sealed again. -/
theorem drained_never_sealed_again {owners : Nat} {actions : List MaintenanceAction}
    (hrun : run (maintenanceStep cfg) (.init owners) actions = some s)
    (hundisturbed : Transition.Meets (maintenanceStep cfg) (Undisturbed cfg) (.init owners) actions) :
    ∀ id ∈ s.drained, ∀ row, s.world.ledger.row id = some row → row.status = .committed := by
  have h : Maintained cfg s := Transition.invariant_run (fun _ _ _ => maintained_step) (maintained_init owners) hundisturbed hrun
  exact fun id hid row hrow => (h.core.rows id row hrow).2.mpr hid

/-! ## Runs on fixed inputs -/

def minuteLease : MaintenanceConfig where
  sync := ⟨"w".toList, 100, true⟩
  ttl := 60000
  maxAge := 901000
  objectBudget := 100
  pageObjects := 10

def keyOfA : Text := "w/t/a.arrow".toList

def fileOfA : MirrorEntry := ⟨true, 8⟩

def listsA : List MaintenanceAction := [.acquire 0 .sync, .sync 0 (.load 0), .sync 0 (.list [(keyOfA, fileOfA)])]

def finishesA : List MaintenanceAction := [.sync 0 (.register 0), .sync 0 (.store 0), .release 0]

def drainedOnce : List MaintenanceAction :=
  .upload keyOfA fileOfA :: listsA ++ finishesA ++
    [.drain fun ledger => Catalog.markCommitted "d".toList 0 ["a".toList] (Catalog.claimRows "d".toList 0 ["a".toList] ledger)]

def purgesA : List MaintenanceAction :=
  [.acquire 1 .retention, .retention 1 (.select true), .retention 1 (.delete ("a".toList, keyOfA) .deleted), .retention 1 .collect,
    .retention 1 (.purge true), .release 1]

def oneAfterTheOther : List MaintenanceAction :=
  drainedOnce ++ listsA ++ finishesA ++ [.tick 901001] ++ purgesA ++
    [.acquire 0 .sync, .sync 0 (.load 0), .sync 0 (.list []), .sync 0 (.store 0), .release 0]

theorem purged_segment_stays_away : ∃ s, run (maintenanceStep minuteLease) (.init 2) oneAfterTheOther = some s ∧
    s.drained = ["a".toList] ∧ s.world.ledger.rows = [] ∧
    ∀ id ∈ s.drained, ∀ row, s.world.ledger.row id = some row → row.status = .committed := by
  have hrun : (run (maintenanceStep minuteLease) (.init 2) oneAfterTheOther).map
      (fun s => (s.drained, s.world.ledger.rows)) = some (["a".toList], []) := by decide +kernel
  have hmeets : Transition.Meets (maintenanceStep minuteLease) (Undisturbed minuteLease) (.init 2) oneAfterTheOther := by decide +kernel
  obtain ⟨s, hs, hproj⟩ := map_eq_some_iff.mp hrun
  obtain ⟨hdrained, hrows⟩ := Prod.mk.inj hproj
  exact ⟨s, hs, hdrained, hrows, drained_never_sealed_again hs hmeets⟩

def heldUp : List MaintenanceAction :=
  drainedOnce ++ [.tick 900000] ++ listsA ++ [.tick 60001] ++ purgesA ++ [.renew 0, .sync 0 (.register 960001)]

/-- The segment is drained and sealed again, by the owner of the lease. -/
theorem purged_segment_sealed_again : ∃ s row, run (maintenanceStep minuteLease) (.init 2) heldUp = some s ∧
    "a".toList ∈ s.drained ∧ s.world.ledger.row "a".toList = some row ∧ row.status = .sealed ∧ s.lease = some ⟨0, s.now + 60000⟩ := by
  have hrun : ((run (maintenanceStep minuteLease) (.init 2) heldUp).bind fun s =>
      (s.world.ledger.row "a".toList).map fun row => (s.drained, row.status, s.lease, s.now)) =
      some (["a".toList], .sealed, some ⟨0, 1020001⟩, 960001) := by decide +kernel
  obtain ⟨s, hs, hmap⟩ := bind_eq_some_iff.mp hrun
  obtain ⟨row, hrow, hproj⟩ := map_eq_some_iff.mp hmap
  simp only [Prod.mk.injEq] at hproj
  obtain ⟨hdrained, hstatus, hlease, hnow⟩ := hproj
  refine ⟨s, row, hs, ?_, hrow, hstatus, ?_⟩
  · rw [hdrained]
    exact mem_singleton_self _
  · rw [hlease, hnow]
    rfl

end LogLake.Mirror
