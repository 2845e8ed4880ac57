import LogLake.Aggregates.Deltas

/-! # What bases, folders and readers know -/

namespace LogLake

open List

variable {κ δ : Type}

/-- The counts are made from those the base starts with by merging the deltas, the last one first. -/
inductive Built (m : WideMerge κ δ) (delta : Int → GroupCountDelta δ) (initial : κ) : κ → List Int → Prop where
  | start : Built m delta initial initial []
  | absorb {counts : κ} {merged : List Int} (seq : Int) : Built m delta initial counts merged →
      Built m delta initial (m.absorb counts (delta seq).counts) (seq :: merged)
  | reconcile {counts : κ} {merged : List Int} : Built m delta initial counts merged →
      Built m delta initial (m.reconcile counts) merged

/-- At or below the watermark of the rebuild the run starts from. -/
def Covered (through : Option Int) (seq : Int) : Prop := ∃ w ∈ through, seq ≤ w

/-- The delta was written, and its object was deleted. -/
def DeltaBucket.Gone (b : DeltaBucket κ) (seq : Int) : Prop := seq ∈ b.written ∧ seq ∉ b.objects

section

variable (m : WideMerge κ δ) (delta : Int → GroupCountDelta δ) (initial : κ) (through : Option Int)

/-- What counts have been made of: written deltas above the watermark. -/
structure Counted (b : DeltaBucket κ) (wide : WideGroupCounts κ) : Prop where
  rebuilt : wide.rebuiltThrough = through
  written : ∀ seq ∈ wide.merged, seq ∈ b.written
  fresh : ∀ seq ∈ wide.merged, ¬Covered through seq
  built : Built m delta initial wide.counts wide.merged

structure SoundBase (b : DeltaBucket κ) (wide : WideGroupCounts κ) : Prop extends
    Counted m delta initial through b wide where
  nodup : wide.merged.Nodup
  absorbed : ∀ seq ∈ wide.absorbed, seq ∈ wide.merged
  pruned : ∀ seq ∈ wide.merged, seq ∉ wide.absorbed → b.Gone seq

structure Folding (b : DeltaBucket κ) (version : Nat) (acc : WideGroupCounts κ) (present toFold unread : List Int) : Prop
    extends Counted m delta initial through b acc where
  unread_written : ∀ seq ∈ unread, seq ∈ b.written
  unread_fresh : ∀ seq ∈ unread, ¬Covered through seq
  unread_listed : ∀ seq ∈ unread, seq ∈ toFold ∧ seq ∈ present
  nodup : (unread ++ acc.merged).Nodup
  folded : ∀ seq ∈ toFold, seq ∈ unread ∨ seq ∈ acc.merged
  absorbed : ∀ seq ∈ acc.absorbed, seq ∈ acc.merged ∧ seq ∈ (b.current m).merged
  pruned : ∀ seq ∈ acc.merged, seq ∉ (acc.absorbed ++ toFold).filter (fun seq => seq ∈ present) → b.Gone seq
  before : version ≤ b.base.version
  extends_current : version = b.base.version → ∀ seq ∈ (b.current m).merged, seq ∈ acc.merged

variable (b : DeltaBucket κ)

/-- Deltas that may be deleted. -/
def Deletable (toDelete : List Int) : Prop :=
  ∀ seq ∈ toDelete, seq ∈ (b.current m).merged ∨ Covered through seq

def FolderKnows : FolderPhase κ → Prop
  | .idle => True
  | .statted version => version ≤ b.base.version
  | .loaded version base =>
    SoundBase m delta initial through b base ∧ version ≤ b.base.version ∧
      (∀ seq ∈ base.merged, seq ∈ (b.current m).merged) ∧
      (version = b.base.version → ∀ seq ∈ (b.current m).merged, seq ∈ base.merged)
  | .folding version acc present toFold unread => Folding m delta initial through b version acc present toFold unread
  | .stored _ toDelete => Deletable m through b toDelete
  | .deleting toDelete => Deletable m through b toDelete

/-- The counts a reader returns: each delta at most once, and all that had been written when it began. -/
structure ExactSince (since : List Int) (wide : WideGroupCounts κ) : Prop where
  nodup : wide.merged.Nodup
  complete : ∀ seq ∈ since, ¬Covered through seq → seq ∈ wide.merged
  fresh : ∀ seq ∈ wide.merged, ¬Covered through seq
  built : Built m delta initial wide.counts wide.merged

structure Reading (b : DeltaBucket κ) (acc : WideGroupCounts κ) (unread since : List Int) : Prop extends
    Counted m delta initial through b acc where
  nodup : acc.merged.Nodup
  unread_nodup : unread.Nodup
  unread_written : ∀ seq ∈ unread, seq ∈ b.written
  unread_fresh : ∀ seq ∈ unread, ¬Covered through seq
  overlap : ∀ seq ∈ unread, seq ∈ acc.merged → b.Gone seq
  complete : ∀ seq ∈ since, seq ∈ acc.merged ∨ seq ∈ unread ∨ Covered through seq

def ReaderKnows : ReaderPhase κ → Prop
  | .idle => True
  | .listed present since =>
    present.Nodup ∧ (∀ seq ∈ present, seq ∈ b.written) ∧
      ∀ seq ∈ since, seq ∈ (b.current m).merged ∨ seq ∈ present ∨ Covered through seq
  | .loaded base since =>
    SoundBase m delta initial through b base ∧
      ∀ seq ∈ since, seq ∈ base.merged ∨ seq ∈ b.objects ∨ Covered through seq
  | .reading acc unread since => Reading m delta initial through b acc unread since
  | .done result since => ∀ wide ∈ result, ExactSince m delta initial through since wide

/-- The store: the base is sound, no delta is lost, and every base under way may replace the current one. -/
structure SoundBucket (b : DeltaBucket κ) : Prop where
  objects_nodup : b.objects.Nodup
  objects_written : ∀ seq ∈ b.objects, seq ∈ b.written
  current : SoundBase m delta initial through b (b.current m)
  kept : ∀ seq ∈ b.written, seq ∈ (b.current m).merged ∨ seq ∈ b.objects ∨ Covered through seq
  sent : b.base.Current fun object wide => SoundBase m delta initial through b wide ∧
    ∀ seq ∈ (object.getD (.empty m)).merged, seq ∈ wide.merged

end

/-- The store advances: what was written stays written, what is gone stays gone, and the base only gains deltas. -/
structure Advance (m : WideMerge κ δ) (b b' : DeltaBucket κ) : Prop where
  written : ∀ seq ∈ b.written, seq ∈ b'.written
  gone : ∀ seq, b.Gone seq → b'.Gone seq
  version : b.base.version ≤ b'.base.version
  same : b.base.version = b'.base.version → b.current m = b'.current m
  merged : ∀ seq ∈ (b.current m).merged, seq ∈ (b'.current m).merged

section

variable {m : WideMerge κ δ} {delta : Int → GroupCountDelta δ} {initial : κ} {through : Option Int} {b b' : DeltaBucket κ}

/-! ## Knowledge is kept -/

theorem Advance.refl (b : DeltaBucket κ) : Advance m b b :=
  ⟨fun _ h => h, fun _ h => h, le_rfl, fun _ => rfl, fun _ h => h⟩

variable {wide : WideGroupCounts κ}

theorem Counted.mono (h : Counted m delta initial through b wide) (hadv : Advance m b b') :
    Counted m delta initial through b' wide :=
  { h with written := fun seq hseq => hadv.written seq (h.written seq hseq) }

theorem SoundBase.mono (h : SoundBase m delta initial through b wide) (hadv : Advance m b b') :
    SoundBase m delta initial through b' wide :=
  { h with
    toCounted := h.toCounted.mono hadv
    pruned := fun seq hseq habs => hadv.gone seq (h.pruned seq hseq habs) }

variable {version : Nat} {acc : WideGroupCounts κ} {present toFold unread : List Int}

theorem Folding.mono (h : Folding m delta initial through b version acc present toFold unread) (hadv : Advance m b b') :
    Folding m delta initial through b' version acc present toFold unread :=
  { h with
    toCounted := h.toCounted.mono hadv
    unread_written := fun seq hseq => hadv.written seq (h.unread_written seq hseq)
    absorbed := fun seq hseq => ⟨(h.absorbed seq hseq).1, hadv.merged seq (h.absorbed seq hseq).2⟩
    pruned := fun seq hseq habs => hadv.gone seq (h.pruned seq hseq habs)
    before := h.before.trans hadv.version
    extends_current := by
      intro hversion seq hseq
      have hsame : b.base.version = b'.base.version :=
        le_antisymm hadv.version (hversion ▸ h.before)
      exact h.extends_current (hversion.trans hsame.symm) seq (hadv.same hsame ▸ hseq) }

theorem Deletable.mono {toDelete : List Int} (h : Deletable m through b toDelete) (hadv : Advance m b b') :
    Deletable m through b' toDelete :=
  fun seq hseq => (h seq hseq).imp_left (hadv.merged seq)

theorem FolderKnows.mono {phase : FolderPhase κ} (h : FolderKnows m delta initial through b phase)
    (hadv : Advance m b b') : FolderKnows m delta initial through b' phase := by
  cases phase with
  | idle => trivial
  | statted version => exact h.trans hadv.version
  | loaded version base =>
    obtain ⟨hsound, hbefore, hcurrent, hextends⟩ := h
    refine ⟨hsound.mono hadv, hbefore.trans hadv.version, fun seq hseq => hadv.merged seq (hcurrent seq hseq), ?_⟩
    intro hversion seq hseq
    have hsame : b.base.version = b'.base.version := le_antisymm hadv.version (hversion ▸ hbefore)
    exact hextends (hversion.trans hsame.symm) seq (hadv.same hsame ▸ hseq)
  | folding version acc present toFold unread => exact Folding.mono h hadv
  | stored pos toDelete | deleting toDelete => exact Deletable.mono h hadv

variable {since : List Int}

theorem Reading.mono (h : Reading m delta initial through b acc unread since) (hadv : Advance m b b') :
    Reading m delta initial through b' acc unread since :=
  { h with
    toCounted := h.toCounted.mono hadv
    unread_written := fun seq hseq => hadv.written seq (h.unread_written seq hseq)
    overlap := fun seq hseq hmerged => hadv.gone seq (h.overlap seq hseq hmerged) }

theorem ReaderKnows.mono {phase : ReaderPhase κ} (h : ReaderKnows m delta initial through b phase)
    (hadv : Advance m b b') (hdeleted : ∀ seq ∈ b.objects, seq ∉ b'.objects → ¬phase.Awaits seq) :
    ReaderKnows m delta initial through b' phase := by
  cases phase with
  | idle => trivial
  | listed present since =>
    obtain ⟨hnodup, hwritten, hsince⟩ := h
    exact ⟨hnodup, fun seq hseq => hadv.written seq (hwritten seq hseq), fun seq hseq =>
      (hsince seq hseq).imp_left (hadv.merged seq)⟩
  | loaded base since =>
    obtain ⟨hsound, hsince⟩ := h
    refine ⟨hsound.mono hadv, ?_⟩
    intro seq hseq
    rcases hsince seq hseq with hmerged | hobject | hcovered
    · exact .inl hmerged
    · by_cases hkept : seq ∈ b'.objects
      · exact .inr (.inl hkept)
      · -- the object was deleted, so the base read before has absorbed it, or it is at or below the watermark
        have hawaits := hdeleted seq hobject hkept
        by_cases habs : seq ∈ base.absorbed
        · exact .inl (hsound.absorbed seq habs)
        · refine .inr (.inr ?_)
          by_contra hcovered
          refine hawaits ⟨habs, ?_⟩
          rwa [WideGroupCounts.Redundant, hsound.rebuilt]
    · exact .inr (.inr hcovered)
  | reading acc unread since => exact Reading.mono h hadv
  | done result since => exact h

/-! ## The store -/

theorem Advance.of_base (hbase : b'.base = b.base) (hwritten : ∀ seq ∈ b.written, seq ∈ b'.written)
    (hgone : ∀ seq, b.Gone seq → b'.Gone seq) : Advance m b b' where
  written := hwritten
  gone := hgone
  version := by rw [hbase]
  same := fun _ => by rw [DeltaBucket.current, DeltaBucket.current, hbase]
  merged := fun seq hseq => by rwa [DeltaBucket.current, hbase]

theorem SoundBucket.sent_mono (h : SoundBucket m delta initial through b) (hadv : Advance m b b') :
    b.base.Current fun object wide => SoundBase m delta initial through b' wide ∧
      ∀ seq ∈ (object.getD (.empty m)).merged, seq ∈ wide.merged :=
  h.sent.imp fun _ _ hknown => ⟨hknown.1.mono hadv, hknown.2⟩

variable {seq : Int}

section

variable (h : SoundBucket m delta initial through b)
include h

/-- A delta that is written again changes nothing. -/
theorem SoundBucket.put (hintime : seq ∈ b.written → seq ∈ b.objects) :
    Advance m b { b with objects := b.objects.insert seq, written := b.written.insert seq } ∧
      SoundBucket m delta initial through { b with objects := b.objects.insert seq, written := b.written.insert seq } := by
  have hadv : Advance m b { b with objects := b.objects.insert seq, written := b.written.insert seq } := by
    refine .of_base rfl (fun other hother => mem_insert_of_mem hother) ?_
    rintro other ⟨hwritten, hobject⟩
    refine ⟨mem_insert_of_mem hwritten, ?_⟩
    rintro hinsert
    rcases mem_insert_iff.mp hinsert with rfl | hmem
    · exact hobject (hintime hwritten)
    · exact hobject hmem
  refine ⟨hadv, h.objects_nodup.insert, ?_, h.current.mono hadv, ?_, h.sent_mono hadv⟩
  · intro other hother
    exact mem_insert_iff.mpr ((mem_insert_iff.mp hother).imp_right (h.objects_written other))
  · intro other hother
    rcases mem_insert_iff.mp hother with rfl | hwritten
    · exact .inr (.inl mem_insert_self)
    · rcases h.kept other hwritten with hmerged | hobject | hcovered
      · exact .inl hmerged
      · exact .inr (.inl (mem_insert_of_mem hobject))
      · exact .inr (.inr hcovered)

/-- A base that lands is sound. -/
theorem SoundBucket.land {pos : Nat}
    {base : ConditionalStore (WideGroupCounts κ) (WideGroupCounts κ)} (hland : b.base.land id pos = some (wide, base))
    (landed : List Nat) :
    Advance m b { b with base, landed } ∧ SoundBucket m delta initial through { b with base, landed } := by
  obtain ⟨⟨hsound, hextends⟩, hobject, hversion, hcurrent⟩ := h.sent.land hland
  have hwide : DeltaBucket.current m { b with base, landed } = wide := by
    rw [DeltaBucket.current, hobject]
    rfl
  have hadv : Advance m b { b with base, landed } := by
    refine ⟨fun _ hseq => hseq, fun _ hgone => hgone, ?_, ?_, ?_⟩
    · exact hversion ▸ Nat.le_succ _
    · intro hsame
      exact absurd (hsame.trans hversion) (Nat.ne_of_lt (Nat.lt_succ_self _))
    · intro seq hseq
      rw [hwide]
      exact hextends seq hseq
  refine ⟨hadv, h.objects_nodup, h.objects_written, ?_, ?_, ?_⟩
  · rw [hwide]
    exact hsound.mono hadv
  · intro seq hseq
    exact (h.kept seq hseq).imp_left (hadv.merged seq)
  · exact hcurrent.imp fun _ _ hknown => ⟨hknown.1.mono hadv, hknown.2⟩

theorem SoundBucket.sendAt (hbefore : version ≤ b.base.version) (hsound : SoundBase m delta initial through b wide)
    (hextends : version = b.base.version → ∀ seq ∈ (b.current m).merged, seq ∈ wide.merged) :
    Advance m b { b with base := b.base.sendAt version wide } ∧
      SoundBucket m delta initial through { b with base := b.base.sendAt version wide } := by
  have hadv : Advance m b { b with base := b.base.sendAt version wide } :=
    ⟨fun _ hseq => hseq, fun _ hgone => hgone, le_rfl, fun _ => rfl, fun _ hseq => hseq⟩
  refine ⟨hadv, h.objects_nodup, h.objects_written, h.current.mono hadv, h.kept, ?_⟩
  exact (h.sent_mono hadv).sendAt hbefore fun hversion => ⟨hsound.mono hadv, hextends hversion⟩

/-- A delta that the base holds or that is covered may be deleted. -/
theorem SoundBucket.delete (hdeletable : seq ∈ (b.current m).merged ∨ Covered through seq) :
    Advance m b { b with objects := b.objects.filter (· ≠ seq) } ∧
      SoundBucket m delta initial through { b with objects := b.objects.filter (· ≠ seq) } := by
  have hadv : Advance m b { b with objects := b.objects.filter (· ≠ seq) } :=
    .of_base rfl (fun _ hother => hother) fun other hgone => ⟨hgone.1, fun hmem => hgone.2 (mem_of_mem_filter hmem)⟩
  refine ⟨hadv, h.objects_nodup.filter _, fun other hother => h.objects_written other (mem_of_mem_filter hother),
    h.current.mono hadv, ?_, h.sent_mono hadv⟩
  intro other hother
  rcases h.kept other hother with hmerged | hobject | hcovered
  · exact .inl hmerged
  · by_cases hsame : other = seq
    · subst hsame
      exact hdeletable.imp_right .inr
    · exact .inr (.inl (mem_filter.mpr ⟨hobject, by simpa using hsame⟩))
  · exact .inr (.inr hcovered)

end

/-! ## Merging deltas -/

theorem Counted.mergeDelta (h : Counted m delta initial through b acc)
    (hwritten : seq ∈ b.written) (hfresh : ¬Covered through seq) :
    Counted m delta initial through b (acc.mergeDelta m delta seq) where
  rebuilt := h.rebuilt
  written := forall_mem_cons.mpr ⟨hwritten, h.written⟩
  fresh := forall_mem_cons.mpr ⟨hfresh, h.fresh⟩
  built := .absorb seq h.built

/-- Folding one more delta counts it once. -/
theorem Folding.read (h : Folding m delta initial through b version acc present toFold (seq :: unread)) :
    Folding m delta initial through b version (acc.mergeDelta m delta seq) present toFold unread := by
  have hseq : seq ∈ seq :: unread := mem_cons_self
  have htail : ∀ {other}, other ∈ unread → other ∈ seq :: unread := mem_cons_of_mem seq
  refine
    { toCounted := h.toCounted.mergeDelta (h.unread_written seq hseq) (h.unread_fresh seq hseq)
      unread_written := fun other hother => h.unread_written other (htail hother)
      unread_fresh := fun other hother => h.unread_fresh other (htail hother)
      unread_listed := fun other hother => h.unread_listed other (htail hother)
      nodup := perm_middle.nodup_iff.mpr h.nodup
      folded := ?_
      absorbed := fun other hother => ⟨mem_cons_of_mem seq (h.absorbed other hother).1, (h.absorbed other hother).2⟩
      pruned := ?_
      before := h.before
      extends_current := fun hversion other hother => mem_cons_of_mem seq (h.extends_current hversion other hother) }
  · intro other hother
    rcases h.folded other hother with hunread | hmerged
    · rcases mem_cons.mp hunread with rfl | hunread
      · exact .inr mem_cons_self
      · exact .inl hunread
    · exact .inr (mem_cons_of_mem seq hmerged)
  · intro other hother hdropped
    rcases mem_cons.mp hother with rfl | hmerged
    · obtain ⟨hfold, hpresent⟩ := h.unread_listed other hseq
      exact absurd (mem_filter.mpr ⟨mem_append_right _ hfold, by simpa using hpresent⟩) hdropped
    · exact h.pruned other hmerged hdropped

/-- What the folder writes is a sound base. -/
theorem Folding.settle (h : Folding m delta initial through b version acc present toFold []) :
    SoundBase m delta initial through b (acc.settle m toFold present) where
  __ := h
  built := .reconcile h.built
  absorbed := by
    intro seq hseq
    rcases mem_append.mp (mem_of_mem_filter hseq) with habs | hfold
    · exact (h.absorbed seq habs).1
    · exact (h.folded seq hfold).resolve_left not_mem_nil

theorem mem_list : seq ∈ b.list ↔ seq ∈ b.objects := mem_insertionSort _

theorem redundant_iff (h : Counted m delta initial through b wide) : wide.Redundant seq ↔ Covered through seq := by
  rw [WideGroupCounts.Redundant, h.rebuilt, Covered]

theorem mem_outstanding (h : Counted m delta initial through b wide) :
    seq ∈ wide.outstanding present ↔ seq ∈ present ∧ seq ∉ wide.absorbed ∧ ¬Covered through seq := by
  simp only [WideGroupCounts.outstanding, mem_filter, decide_eq_true_eq, redundant_iff h]

variable {base : WideGroupCounts κ}

theorem SoundBase.not_merged (h : SoundBase m delta initial through b base)
    (hobject : seq ∈ b.objects) (habs : seq ∉ base.absorbed) : seq ∉ base.merged :=
  fun hmerged => (h.pruned seq hmerged habs).2 hobject

theorem SoundBucket.list (h : SoundBucket m delta initial through b)
    (hknows : FolderKnows m delta initial through b (.loaded version base)) :
    Folding m delta initial through b version base b.list (base.outstanding b.list) (base.outstanding b.list) := by
  obtain ⟨hsound, hbefore, hcurrent, hextends⟩ := hknows
  have hmem : ∀ {seq}, seq ∈ base.outstanding b.list → seq ∈ b.objects ∧ seq ∉ base.absorbed ∧ ¬Covered through seq := by
    intro seq hseq
    rwa [mem_outstanding hsound.toCounted, mem_list] at hseq
  have hlist : b.list.Nodup := (perm_insertionSort _ _).nodup_iff.mpr h.objects_nodup
  refine
    { toCounted := hsound.toCounted
      unread_written := fun seq hseq => h.objects_written seq (hmem hseq).1
      unread_fresh := fun seq hseq => (hmem hseq).2.2
      unread_listed := fun seq hseq => ⟨hseq, mem_list.mpr (hmem hseq).1⟩
      nodup := ?_
      folded := fun seq hseq => .inl hseq
      absorbed := fun seq hseq => ⟨hsound.absorbed seq hseq, hcurrent seq (hsound.absorbed seq hseq)⟩
      pruned := ?_
      before := hbefore
      extends_current := hextends }
  · refine nodup_append.mpr ⟨hlist.filter _, hsound.nodup, ?_⟩
    rintro seq hseq _ hmerged rfl
    exact hsound.not_merged (hmem hseq).1 (hmem hseq).2.1 hmerged
  · intro seq hmerged hdropped
    by_cases habs : seq ∈ base.absorbed
    · -- an absorbed id is dropped only when its object was not listed
      refine ⟨hsound.written seq hmerged, fun hobject => hdropped ?_⟩
      exact mem_filter.mpr ⟨mem_append_left _ habs, by simpa using mem_list.mpr hobject⟩
    · exact hsound.pruned seq hmerged habs

theorem Folding.toDelete (h : Folding m delta initial through b version acc present toFold unread) :
    Deletable m through b (acc.toDelete present) := by
  intro seq hseq
  have hcases : seq ∈ acc.absorbed ∨ acc.Redundant seq := by
    simpa using (mem_filter.mp hseq).2
  rcases hcases with habs | hred
  · exact .inl (h.absorbed seq habs).2
  · exact .inr ((redundant_iff h.toCounted).mp hred)

/-! ## Readers -/

theorem SoundBase.reading (h : SoundBase m delta initial through b base) (hnodup : present.Nodup)
    (hwritten : ∀ seq ∈ present, seq ∈ b.written) (hsince : ∀ seq ∈ since, seq ∈ base.merged ∨ seq ∈ present ∨ Covered through seq) :
    Reading m delta initial through b base (base.outstanding present) since := by
  have hmem : ∀ {seq}, seq ∈ base.outstanding present ↔ seq ∈ present ∧ seq ∉ base.absorbed ∧ ¬Covered through seq :=
    mem_outstanding h.toCounted
  refine ⟨h.toCounted, h.nodup, hnodup.filter _, ?_, ?_, ?_, ?_⟩
  · exact fun seq hseq => hwritten seq (hmem.mp hseq).1
  · exact fun seq hseq => (hmem.mp hseq).2.2
  · exact fun seq hseq hmerged => h.pruned seq hmerged (hmem.mp hseq).2.1
  · intro seq hseq
    rcases hsince seq hseq with hmerged | hpresent | hcovered
    · exact .inl hmerged
    · by_cases habs : seq ∈ base.absorbed
      · exact .inl (h.absorbed seq habs)
      by_cases hcovered : Covered through seq
      · exact .inr (.inr hcovered)
      · exact .inr (.inl (hmem.mpr ⟨hpresent, habs, hcovered⟩))
    · exact .inr (.inr hcovered)

/-- Reading one more delta counts it once. -/
theorem Reading.read (h : Reading m delta initial through b acc (seq :: unread) since) (hobject : seq ∈ b.objects) :
    Reading m delta initial through b (acc.mergeDelta m delta seq) unread since := by
  have hseq : seq ∈ seq :: unread := mem_cons_self
  have htail : ∀ {other}, other ∈ unread → other ∈ seq :: unread := mem_cons_of_mem seq
  have hnew : seq ∉ acc.merged := fun hmerged => (h.overlap seq hseq hmerged).2 hobject
  refine
    { toCounted := h.toCounted.mergeDelta (h.unread_written seq hseq) (h.unread_fresh seq hseq)
      nodup := nodup_cons.mpr ⟨hnew, h.nodup⟩
      unread_nodup := (nodup_cons.mp h.unread_nodup).2
      unread_written := fun other hother => h.unread_written other (htail hother)
      unread_fresh := fun other hother => h.unread_fresh other (htail hother)
      overlap := ?_
      complete := ?_ }
  · intro other hother hmerged
    rcases mem_cons.mp hmerged with rfl | hmerged
    · exact absurd hother (nodup_cons.mp h.unread_nodup).1
    · exact h.overlap other (htail hother) hmerged
  · intro other hother
    rcases h.complete other hother with hmerged | hunread | hcovered
    · exact .inl (mem_cons_of_mem seq hmerged)
    · rcases mem_cons.mp hunread with rfl | hunread
      · exact .inl mem_cons_self
      · exact .inr (.inl hunread)
    · exact .inr (.inr hcovered)

/-- What the reader returns counts every commit that was there when it began. -/
theorem Reading.finish (h : Reading m delta initial through b acc [] since) :
    ∀ wide ∈ acc.folded m, ExactSince m delta initial through since wide := by
  intro wide hwide
  obtain ⟨-, hwide⟩ := Option.ite_none_right_eq_some.mp hwide
  cases hwide
  refine ⟨h.nodup, ?_, h.fresh, .reconcile h.built⟩
  intro seq hseq hcovered
  rcases h.complete seq hseq with hmerged | hunread | hcov
  · exact hmerged
  · exact absurd hunread not_mem_nil
  · exact absurd hcov hcovered

end

end LogLake
