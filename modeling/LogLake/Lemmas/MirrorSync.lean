import LogLake.Lib.Transition
import LogLake.Mirror.Sync

/-! # What one call of the reconciliation does -/

namespace LogLake.Mirror

open List Option

open Pages (After IsPage)

variable {cfg : SyncConfig}

/-! ## Pages of the mirror -/

/-- The objects of sealed segments below the prefix. -/
def SyncConfig.objects (cfg : SyncConfig) (mirror : Store) : List MirrorSyncObject :=
  (mirror.entries.filter fun e => cfg.under e.1).filterMap cfg.object?

variable {o : MirrorSyncObject}

theorem mirrorSyncObject_path {path p : Text} {length : UInt64}
    (h : mirrorSyncObject path length p = some o) : o.path = path := by
  unfold mirrorSyncObject at h
  split at h
  · cases h
  · obtain ⟨id, -, rfl⟩ := map_eq_some_iff.mp h
    rfl

theorem mirrorSyncObject_id (path p : Text) (length length' : UInt64) :
    (mirrorSyncObject path length p).map MirrorSyncObject.id = (mirrorSyncObject path length' p).map MirrorSyncObject.id := by
  unfold mirrorSyncObject
  split
  · rfl
  · simp only [Option.map_map]
    rfl

theorem object?_eq_some {e : Text × MirrorEntry} (h : cfg.object? e = some o) :
    e.2.isFile = true ∧ o.path = e.1 ∧ mirrorSyncObject e.1 e.2.contentLength cfg.trimmed = some o := by
  unfold SyncConfig.object? at h
  obtain ⟨hfile, hobject⟩ := ite_none_right_eq_some.mp h
  exact ⟨hfile, mirrorSyncObject_path hobject, hobject⟩

variable {mirror : Store}

theorem segmentId_of_mem (h : o ∈ cfg.objects mirror) :
    cfg.segmentId o.path = some o.id ∧ o.path ∈ mirror.entries.map Prod.fst := by
  obtain ⟨e, he, ho⟩ := mem_filterMap.mp h
  obtain ⟨hmem, hunder⟩ := mem_filter.mp he
  obtain ⟨-, hpath, hobject⟩ := object?_eq_some ho
  rw [hpath, SyncConfig.segmentId, if_pos hunder, mirrorSyncObject_id _ _ 0 e.2.contentLength, hobject]
  exact ⟨rfl, mem_map.mpr ⟨e, hmem, rfl⟩⟩

theorem exists_object {key id : Text} {e : MirrorEntry} (hid : cfg.segmentId key = some id)
    (hget : mirror.get? key = some e) (hfile : e.isFile = true) : ∃ o ∈ cfg.objects mirror, o.path = key ∧ o.id = id := by
  unfold SyncConfig.segmentId at hid
  obtain ⟨hunder, hid⟩ := ite_none_right_eq_some.mp hid
  rw [mirrorSyncObject_id key cfg.trimmed 0 e.contentLength] at hid
  obtain ⟨o, ho, rfl⟩ := map_eq_some_iff.mp hid
  refine ⟨o, mem_filterMap.mpr ⟨(key, e), ?_, ?_⟩, mirrorSyncObject_path ho, rfl⟩
  · exact mem_filter.mpr ⟨SortedMap.get?_eq_some_iff.mp hget, hunder⟩
  · rw [SyncConfig.object?, if_pos hfile, ho]

theorem pairwise_objects {r : Text → Text → Prop} {entries : List (Text × MirrorEntry)}
    (h : entries.Pairwise fun a b => r a.1 b.1) : (entries.filterMap cfg.object?).Pairwise fun a b => r a.path b.path := by
  refine h.filterMap _ fun e e' hlt o ho o' ho' => ?_
  rw [(object?_eq_some ho).2.1, (object?_eq_some ho').2.1]
  exact hlt

theorem isPage_listMirrorSyncPage {startAfter : Option Text} {listing : List (Text × MirrorEntry)}
    (h : cfg.Yields mirror startAfter listing) :
    IsPage MirrorSyncObject.path (cfg.objects mirror) startAfter cfg.budget (listMirrorSyncPage cfg startAfter listing).objects
      (listMirrorSyncPage cfg startAfter listing).endOfPrefix := by
  have hbudget : 1 ≤ cfg.budget := le_max_right ..
  unfold SyncConfig.Yields at h
  unfold listMirrorSyncPage
  split at h
  · -- the lister starts after the key and goes up
    next hstart =>
    subst h
    rw [if_pos hstart]
    have hsorted : ((mirror.entries.filter fun e => cfg.under e.1 && decide (After startAfter e.1)).filterMap
        cfg.object?).Pairwise fun a b => a.path < b.path := pairwise_objects (mirror.sorted.filter _)
    have hmem : ∀ x, x ∈ (mirror.entries.filter fun e => cfg.under e.1 && decide (After startAfter e.1)).filterMap cfg.object? ↔
        x ∈ cfg.objects mirror ∧ After startAfter x.path := by
      intro x
      simp only [SyncConfig.objects, mem_filterMap, mem_filter, Bool.and_eq_true, decide_eq_true_eq]
      constructor
      · rintro ⟨e, ⟨he, hunder, hafter⟩, hx⟩
        exact ⟨⟨e, ⟨he, hunder⟩, hx⟩, by rwa [(object?_eq_some hx).2.1]⟩
      · rintro ⟨⟨e, ⟨he, hunder⟩, hx⟩, hafter⟩
        exact ⟨e, ⟨he, hunder, by rwa [← (object?_eq_some hx).2.1]⟩, hx⟩
    split
    · next hfull => exact Pages.isPage_take hmem hsorted hbudget (fun _ => hfull) (fun hend => nomatch hend)
    · next hfew =>
      have hlength := (not_le.mp hfew).le
      rw [← take_of_length_le hlength]
      exact Pages.isPage_take hmem hsorted hbudget (fun hnot => nomatch hnot) fun _ => hlength
  · -- everything is listed, then filtered and sorted here
    next hstart =>
    rw [if_neg hstart]
    have hobjects : (listing.filterMap cfg.object?).Perm (cfg.objects mirror) := h.filterMap _
    have hdistinct : (cfg.objects mirror).Pairwise fun a b => a.path ≠ b.path :=
      pairwise_objects ((mirror.sorted.filter _).imp fun hlt => ne_of_lt hlt)
    have hperm := perm_insertionSort (fun a b : MirrorSyncObject => a.path ≤ b.path)
      ((listing.filterMap cfg.object?).filter fun o => decide (After startAfter o.path))
    refine Pages.isPage_take ?_ ?_ hbudget (fun hnot => ?_) fun hend => of_decide_eq_true hend
    · intro x
      rw [hperm.mem_iff, mem_filter, hobjects.mem_iff, decide_eq_true_eq]
    · have hne := ((hobjects.pairwise_iff fun h => Ne.symm h).mpr hdistinct).filter (fun o => decide (After startAfter o.path))
      have hle := pairwise_insertionSort (fun a b : MirrorSyncObject => a.path ≤ b.path)
        ((listing.filterMap cfg.object?).filter fun o => decide (After startAfter o.path))
      exact hle.imp₂ (fun a b hab hne => lt_of_le_of_ne hab hne) ((hperm.pairwise_iff fun h => Ne.symm h).mpr hne)
    · exact (not_le.mp (of_decide_eq_false hnot)).le

/-! ## The cursor -/

/-- Two cursors are at the same place of the same rotation. -/
def MirrorSyncCursor.At (c d : MirrorSyncCursor) : Prop := c.rotation = d.rotation ∧ c.lastKey = d.lastKey

/-- A cursor has not been overtaken or has been, never is it ahead. -/
def MirrorSyncCursor.Reached (c d : MirrorSyncCursor) : Prop := c.At d ∨ c.Before d

namespace MirrorSyncCursor

variable {c d e : MirrorSyncCursor}

theorem At.before (h : c.At d) (hbefore : d.Before e) : c.Before e := by
  unfold Before
  rw [h.1, h.2]
  exact hbefore

theorem Before.trans (h : c.Before d) (h' : d.Before e) : c.Before e := by
  rcases h with hlt | ⟨heq, k, hk, hafter⟩ <;> rcases h' with hlt' | ⟨heq', k', hk', hafter'⟩
  · exact .inl (hlt.trans hlt')
  · exact .inl (heq' ▸ hlt)
  · exact .inl (heq ▸ hlt')
  · exact .inr ⟨heq.trans heq', k', hk', hafter.of_lt (hafter' k hk)⟩

theorem Reached.before (h : c.Reached d) (hbefore : d.Before e) : c.Before e :=
  h.elim (fun hat => hat.before hbefore) fun h => h.trans hbefore

theorem Before.not_at (h : c.Before d) : ¬ c.At d := by
  rintro ⟨hrotation, hkey⟩
  rcases h with hlt | ⟨-, k, hk, hafter⟩
  · exact absurd hrotation hlt.ne
  · exact absurd (hafter k (hkey.trans hk)) (lt_irrefl k)

theorem not_before_start : ¬ c.Before .start := by
  rintro (hlt | ⟨-, k, hk, -⟩)
  · exact absurd hlt (Nat.not_lt_zero _)
  · cases hk

end MirrorSyncCursor

variable {stored : Option MirrorSyncCursor} {expected : MirrorSyncCursor}

theorem replaceCursor_eq_some {next row : MirrorSyncCursor}
    (hreached : expected.Reached (stored.getD .start)) (h : replaceCursor stored expected next = some row) :
    expected.At (stored.getD .start) ∧ row = next := by
  cases stored with
  | none => exact ⟨hreached.resolve_right MirrorSyncCursor.not_before_start, (Option.some.inj h).symm⟩
  | some old =>
    obtain ⟨hat, hnext⟩ := ite_none_right_eq_some.mp h
    exact ⟨⟨hat.1.symm, hat.2.symm⟩, (Option.some.inj hnext).symm⟩

theorem compareAndSet_eq_some {row : MirrorSyncCursor} {key : Option Text}
    {completed : Bool} {examined : Nat} {now : Int} (hreached : expected.Reached (stored.getD .start))
    (h : compareAndSetMirrorSyncCursor stored expected key completed examined now = .ok (some row)) :
    expected.At (stored.getD .start) ∧ row = expected.next key completed examined now := by
  unfold compareAndSetMirrorSyncCursor at h
  split_ifs at h
  exact replaceCursor_eq_some hreached (Except.ok.inj h)

/-! ## Steps -/

theorem forall_mem_set {α : Type*} {p : α → Prop} {l : List α} (h : ∀ x ∈ l, p x) {x : α} (hx : p x) (i : Nat) :
    ∀ y ∈ l.set i x, p y := by
  intro y hy
  rcases mem_or_eq_of_mem_set hy with hy | rfl
  · exact h y hy
  · exact hx

variable {w : SyncWorld} {phase : SyncPhase} {action : SyncAction} {out : SyncOutcome}

theorem syncStep_cases (h : syncStep cfg w phase action = some out) :
    (∃ started, phase = .idle ∧ out = ⟨w, .loaded { w.cursor with rotationStartedAt := started }, false⟩) ∨
    (∃ cursor listing, phase = .loaded cursor ∧ cfg.Yields w.mirror cursor.lastKey listing ∧
      out = ⟨w, .registering cursor (listMirrorSyncPage cfg cursor.lastKey listing)
        (listMirrorSyncPage cfg cursor.lastKey listing).objects, false⟩) ∨
    (∃ cursor page o pending now, phase = .registering cursor page (o :: pending) ∧
      out = ⟨{ w with ledger := Catalog.register o.id o.tenant o.indexId o.url o.bytes.toInt 0 now w.ledger },
        .registering cursor page pending, false⟩) ∨
    (∃ cursor page now next, phase = .registering cursor page [] ∧
      compareAndSetMirrorSyncCursor w.stored cursor page.nextLastKey page.endOfPrefix page.objects.length now =
        .ok (some next) ∧
      out = ⟨{ w with stored := some next }, .idle, true⟩) ∨
    out = ⟨w, .idle, false⟩ := by
  cases phase with
  | idle =>
    cases action <;> try cases h
    exact .inl ⟨_, rfl, rfl⟩
  | loaded cursor =>
    cases action <;> try cases h
    · next listing =>
      simp only [syncStep] at h
      obtain ⟨hyields, hout⟩ := ite_none_right_eq_some.mp h
      split at hout
      · exact .inr (.inr (.inr (.inr (Option.some.inj hout).symm)))
      · exact .inr (.inl ⟨cursor, listing, rfl, hyields, (Option.some.inj hout).symm⟩)
    · exact .inr (.inr (.inr (.inr rfl)))
  | registering cursor page pending =>
    cases pending <;> cases action <;> try cases h
    · next now =>
      simp only [syncStep] at h
      split at h
      · next next hcas =>
        exact .inr (.inr (.inr (.inl ⟨cursor, page, now, next, rfl, hcas, (Option.some.inj h).symm⟩)))
      · exact .inr (.inr (.inr (.inr (Option.some.inj h).symm)))
    · exact .inr (.inr (.inr (.inr rfl)))
    · next o pending now => exact .inr (.inr (.inl ⟨cursor, page, o, pending, now, rfl, rfl⟩))
    · exact .inr (.inr (.inr (.inr rfl)))

end LogLake.Mirror
