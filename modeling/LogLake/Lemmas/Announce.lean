import LogLake.Mirror.Announce

/-! # What the uploader and the sweep keep -/

namespace LogLake.Mirror

open Guard List MirrorState

variable {g : Nat}

theorem mem_without {l : List Nat} {h : Nat} : h ∈ without l g ↔ h ∈ l ∧ h ≠ g := by
  simp [without]

/-- Where the pin of a segment may have been removed, the other pins are as before. -/
theorem pins_after {pins left : List Nat} {g : Nat} (h : left = pins ∨ left = without pins g) :
    (∀ k ∈ pins, k = g ∨ k ∈ left) ∧ left ⊆ pins := by
  rcases h with rfl | rfl
  · exact ⟨fun _ hk => .inr hk, Subset.refl _⟩
  · refine ⟨fun k hk => ?_, fun k hk => (mem_without.mp hk).1⟩
    by_cases hg : k = g
    · exact .inl hg
    · exact .inr (mem_without.mpr ⟨hk, hg⟩)

variable (s : MirrorState)

@[simp]
theorem store_true (g : Nat) : s.store g true = { s with objects := g :: s.objects } := rfl

/-- An object is announced, pinned, or in the hands of the uploader or the sweep. -/
def Covered (g : Nat) : Prop :=
  g ∈ s.told ∨ g ∈ s.pins ∨ s.uploaderHas g = true ∨ s.sweepHas g = true

/-- Every object is covered, the registrar was told before a pin is removed, and the directories are known. -/
structure Accounted (dirOf : Nat → Nat) (s : MirrorState) : Prop where
  covered : ∀ g ∈ s.objects, Covered s g
  notified : ∀ g, s.uploader = .notified g → g ∈ s.told
  pinDirs : ∀ g ∈ s.pins, dirOf g ∈ s.dirs
  unqueuedDirs : ∀ g ∈ s.unqueued, dirOf g ∈ s.dirs
  nodup : s.dirs.Nodup

theorem accounted_init (dirOf : Nat → Nat) : Accounted dirOf MirrorState.init :=
  ⟨fun _ h => (nomatch h), fun _ h => (nomatch h), fun _ h => (nomatch h), fun _ h => (nomatch h), nodup_nil⟩

variable {dirOf : Nat → Nat} {s s' : MirrorState} {a : MirrorAction}

theorem mem_told : g ∈ s.told ↔ g ∈ s.channel ∨ g ∈ s.announced := mem_append

theorem MirrorState.Recoverable.covered (h : s.Recoverable g) (uploader : UploaderPhase) (sweep : SweepPhase) :
    Covered { s with uploader := uploader, sweep := sweep } g :=
  h.elim (fun hp => .inr (.inl hp)) fun ha => .inl (mem_told.mpr (.inr ha))

theorem told_of_sent (sent : List Nat) : ∀ g ∈ s.told, g ∈ s.channel ++ sent ++ s.announced := by
  intro g hg
  rcases mem_told.mp hg with hc | ha
  · exact mem_append_left _ (mem_append_left _ hc)
  · exact mem_append_right _ ha

theorem mem_inHand (h : s.uploaderHas g = true) : g ∈ s.uploader.inHand := by
  unfold uploaderHas at h
  cases huploader : s.uploader with
  | attempting k attempt | statting k | stored k =>
    rw [huploader] at h
    exact mem_singleton.mpr (of_decide_eq_true h).symm
  | idle | notified k =>
    rw [huploader] at h
    nomatch h

theorem mem_toReturn (h : s.sweepHas g = true) : g ∈ s.sweep.toReturn := by
  unfold sweepHas at h
  cases hsweep : s.sweep with
  | checking waiting checked confirmed uploaded stopped =>
    rw [hsweep] at h
    rcases Bool.or_eq_true_iff.mp h with hconfirmed | huploaded
    · cases confirmed with
      | none => nomatch hconfirmed
      | some c => exact mem_append_left _ (mem_singleton.mpr (of_decide_eq_true hconfirmed).symm)
    · exact mem_append_right _ (of_decide_eq_true huploaded)
  | idle | listing dirs pinsListed candidates =>
    rw [hsweep] at h
    nomatch h

theorem told_of_deliver (h : mirrorStep dirOf s .deliver = some s') : ∀ g, g ∈ s'.told ↔ g ∈ s.told := by
  simp only [mirrorStep] at h
  split at h
  next k channel hchannel =>
    cases h
    intro g
    simp only [mem_told, hchannel, mem_cons, or_left_comm, or_assoc]
  · nomatch h

section

variable (hs : Accounted dirOf s)
include hs

theorem Accounted.uploading (g : Nat) (phase : UploaderPhase) (stored : Bool) (hold : ∀ k, s.uploaderHas k = true → k = g)
    (hnew : ({ s with uploader := phase } : MirrorState).uploaderHas g = true) (hphase : ∀ k, phase ≠ .notified k) :
    Accounted dirOf { s.store g stored with uploader := phase } := by
  have hobjects : ∀ k ∈ (s.store g stored).objects, k = g ∨ k ∈ s.objects := by
    intro k hk
    cases stored
    · exact .inr hk
    · exact mem_cons.mp hk
  have hcovered : ∀ k ∈ (s.store g stored).objects, Covered { s with uploader := phase } k := by
    intro k hk
    by_cases hg : k = g
    · subst hg
      exact .inr (.inr (.inl hnew))
    · rcases hs.covered k ((hobjects k hk).resolve_left hg) with ha | hp | hu | hsweep
      · exact .inl ha
      · exact .inr (.inl hp)
      · exact absurd (hold k hu) hg
      · exact .inr (.inr (.inr hsweep))
  cases stored <;> exact ⟨hcovered, fun k hk => absurd hk (hphase k), hs.pinDirs, hs.unqueuedDirs, hs.nodup⟩

theorem Accounted.sweeping {phase : SweepPhase}
    (hkeep : ∀ k, s.sweepHas k = true → ({ s with sweep := phase } : MirrorState).sweepHas k = true) :
    Accounted dirOf { s with sweep := phase } := by
  refine { hs with covered := ?_ }
  intro k hk
  rcases hs.covered k hk with ha | hp | hu | hsweep
  · exact .inl ha
  · exact .inr (.inl hp)
  · exact .inr (.inr (.inl hu))
  · exact .inr (.inr (.inr (hkeep k hsweep)))

theorem Accounted.storing (g : Nat) (stored : Bool) (hg : stored = true → Covered s g) :
    Accounted dirOf (s.store g stored) := by
  cases stored
  · exact hs
  · refine { hs with covered := ?_ }
    intro k hk
    rcases mem_cons.mp hk with rfl | hk
    · exact hg rfl
    · exact hs.covered k hk

theorem Accounted.sealSegment (h : mirrorStep dirOf s (.sealSegment g) = some s') : Accounted dirOf s' := by
  obtain ⟨-, rfl⟩ := stay h
  have hdirs : ∀ d, d ∈ s.dirs → d ∈ (if dirOf g ∈ s.dirs then s.dirs else s.dirs ++ [dirOf g]) := by
    intro d hd
    split
    · exact hd
    · exact mem_append_left _ hd
  refine ⟨hs.covered, hs.notified, fun k hk => hdirs _ (hs.pinDirs k hk), ?_, ?_⟩
  · intro k hk
    rcases mem_cons.mp hk with rfl | hk
    · show dirOf k ∈ (if dirOf k ∈ s.dirs then s.dirs else s.dirs ++ [dirOf k])
      split
      · next hmem => exact hmem
      · simp
    · exact hdirs _ (hs.unqueuedDirs k hk)
  · show (if dirOf g ∈ s.dirs then s.dirs else s.dirs ++ [dirOf g]).Nodup
    split
    · exact hs.nodup
    · next hmem =>
      rw [nodup_append]
      refine ⟨hs.nodup, nodup_singleton _, ?_⟩
      intro d hd e he
      rw [mem_singleton.mp he]
      rintro rfl
      exact hmem hd

theorem Accounted.enqueue {pinned : Bool} (h : mirrorStep dirOf s (.enqueue g pinned) = some s') : Accounted dirOf s' := by
  obtain ⟨⟨hg, -⟩, rfl⟩ := Option.ite_some_none_eq_some.mp h
  have hpins : ∀ k, k ∈ s.pins → k ∈ (if pinned then g :: s.pins else s.pins) := by
    intro k hk
    split
    · exact mem_cons_of_mem _ hk
    · exact hk
  refine ⟨?_, hs.notified, ?_, fun k hk => hs.unqueuedDirs k (mem_without.mp hk).1, hs.nodup⟩
  · intro k hk
    rcases hs.covered k hk with ha | hp | hrest
    · exact .inl ha
    · exact .inr (.inl (hpins k hp))
    · exact .inr (.inr hrest)
  · intro k hk
    replace hk : k ∈ (if pinned then g :: s.pins else s.pins) := hk
    split at hk
    · rcases mem_cons.mp hk with rfl | hk
      · exact hs.unqueuedDirs k hg
      · exact hs.pinDirs k hk
    · exact hs.pinDirs k hk

theorem Accounted.receive (h : mirrorStep dirOf s .receive = some s') : Accounted dirOf s' := by
  simp only [mirrorStep] at h
  split at h
  next g queue huploader _ =>
    cases h
    have hup := hs.uploading g (.attempting g 1) false
      (by intro k hk; simp [uploaderHas, huploader] at hk) (by simp [uploaderHas])
      (fun _ hk => (nomatch hk))
    exact { hup with }
  · nomatch h

theorem Accounted.upload {outcome : UploadOutcome}
    (h : mirrorStep dirOf s (.upload outcome) = some s') : Accounted dirOf s' := by
  simp only [mirrorStep] at h
  split at h
  next g attempt huploader =>
    have hold : ∀ k, s.uploaderHas k = true → k = g := by
      intro k hk
      simpa [uploaderHas, huploader, eq_comm] using hk
    cases outcome with
    | ok =>
      obtain ⟨-, rfl⟩ := Option.ite_some_none_eq_some.mp h
      exact hs.uploading g (.stored g) true hold (by simp [uploaderHas]) fun _ hk => nomatch hk
    | failed stored =>
      obtain ⟨-, rfl⟩ := Option.ite_some_none_eq_some.mp h
      refine hs.uploading g _ stored hold ?_ ?_
      · split <;> simp [uploaderHas]
      · intro h'
        split <;> exact fun hk => nomatch hk
    | localNotFound =>
      cases h
      exact hs.uploading g (.statting g) false hold (by simp [uploaderHas]) fun _ hk => nomatch hk
  · nomatch h

end

variable {fails : Bool}

section

variable (hs : Accounted dirOf s)
include hs

theorem Accounted.stat (hsafe : AnnounceSafe s (.stat fails))
    (h : mirrorStep dirOf s (.stat fails) = some s') : Accounted dirOf s' := by
  simp only [mirrorStep] at h
  split at h
  next g huploader =>
    have hold : ∀ k, s.uploaderHas k = true → k = g := by
      intro k hk
      simpa [uploaderHas, huploader, eq_comm] using hk
    cases h
    by_cases hpresent : (!fails && decide (g ∈ s.objects)) = true
    · rw [if_pos (by simpa using hpresent)]
      exact hs.uploading g (.stored g) false hold (by simp [uploaderHas]) fun _ hk => nomatch hk
    · rw [if_neg (by simpa using hpresent)]
      refine ⟨?_, fun _ hk => (nomatch hk), hs.pinDirs, hs.unqueuedDirs, hs.nodup⟩
      intro k hk
      rcases hs.covered k hk with ha | hp | hu | hsweep
      · exact .inl ha
      · exact .inr (.inl hp)
      · obtain rfl := hold k hu
        have hfails : fails = true := by
          cases fails
          · exact absurd (by simpa using hk) hpresent
          · rfl
        subst hfails
        have hkept : s.Recoverable k := by simpa [AnnounceSafe, huploader] using hsafe
        exact hkept.covered .idle s.sweep
      · exact .inr (.inr (.inr hsweep))
  · nomatch h

theorem Accounted.notify (h : mirrorStep dirOf s .notify = some s') : Accounted dirOf s' := by
  simp only [mirrorStep] at h
  split at h
  next g huploader =>
    cases h
    have hmore := told_of_sent (s := s) [g]
    have hnew : g ∈ s.channel ++ [g] ++ s.announced := mem_append_left _ mem_concat_self
    refine ⟨?_, ?_, hs.pinDirs, hs.unqueuedDirs, hs.nodup⟩
    · intro k hk
      rcases hs.covered k hk with ha | hp | hu | hsweep
      · exact .inl (hmore k ha)
      · exact .inr (.inl hp)
      · have hg : g = k := by simpa [uploaderHas, huploader] using hu
        exact .inl (hg ▸ hnew)
      · exact .inr (.inr (.inr hsweep))
    · intro k hk
      obtain rfl : g = k := UploaderPhase.notified.inj hk
      exact hnew
  · nomatch h

theorem Accounted.unpin (h : mirrorStep dirOf s (.unpin fails) = some s') : Accounted dirOf s' := by
  simp only [mirrorStep] at h
  split at h
  next g huploader =>
    cases h
    obtain ⟨hpins, hfewer⟩ := pins_after (ite_eq_or_eq (fails = true) s.pins (without s.pins g))
    refine ⟨?_, fun _ hk => (nomatch hk), fun k hk => hs.pinDirs k (hfewer hk), hs.unqueuedDirs, hs.nodup⟩
    · intro k hk
      rcases hs.covered k hk with ha | hp | hu | hsweep
      · exact .inl ha
      · rcases hpins k hp with rfl | hp
        · exact .inl (hs.notified k huploader)
        · exact .inr (.inl hp)
      · simp [uploaderHas, huploader] at hu
      · exact .inr (.inr (.inr hsweep))
  · nomatch h

theorem Accounted.check (h : mirrorStep dirOf s (.check fails) = some s') : Accounted dirOf s' := by
  simp only [mirrorStep] at h
  split at h
  next hsweep =>
    cases h
    refine hs.sweeping ?_
    intro k hk
    simp [sweepHas, hsweep] at hk
  next hsweep =>
    cases h
    refine hs.sweeping ?_
    intro k hk
    simpa [sweepHas, hsweep] using hk
  · nomatch h

theorem Accounted.handle {readFails : Bool} {outcome : UploadOutcome} (hsafe : AnnounceSafe s (.handle readFails outcome))
    (h : mirrorStep dirOf s (.handle readFails outcome) = some s') : Accounted dirOf s' := by
  simp only [mirrorStep] at h
  split at h
  next waiting c presence checked uploaded hsweep =>
    -- what the sweep had in hand are the segments to return
    have hkeep : ∀ confirmed stopped k, s.sweepHas k = true →
        ({ s with sweep := .checking waiting checked confirmed uploaded stopped } : MirrorState).sweepHas k = true := by
      intro confirmed stopped k hk
      have hmem : k ∈ uploaded := by simpa [sweepHas, hsweep] using hk
      simp [sweepHas, hmem]
    cases presence with
    | present | unknown =>
      cases h
      exact hs.sweeping (hkeep _ _)
    | absent =>
      simp only at h
      split at h
      · cases h
        exact hs.sweeping (hkeep _ _)
      · cases outcome with
        | ok =>
          cases h
          have hswept := hs.sweeping (hkeep (some c) false)
          refine hswept.storing c.segment true fun _ => ?_
          exact .inr (.inr (.inr (by simp [sweepHas])))
        | failed stored =>
          cases h
          have hswept := hs.sweeping (hkeep none true)
          cases stored
          · exact hswept
          · refine hswept.storing c.segment true fun _ => ?_
            have hkept : s.Recoverable c.segment := by simpa [AnnounceSafe, hsweep] using hsafe
            exact hkept.covered s.uploader _
        | localNotFound => nomatch h
  · nomatch h

theorem Accounted.settle (h : mirrorStep dirOf s (.settle fails) = some s') : Accounted dirOf s' := by
  simp only [mirrorStep] at h
  split at h
  next waiting checked c uploaded stopped hsweep =>
    cases h
    obtain ⟨hpins, hfewer⟩ := pins_after (ite_eq_or_eq ((c.pinned && !fails) = true) (without s.pins c.segment) s.pins).symm
    refine ⟨?_, hs.notified, fun k hk => hs.pinDirs k (hfewer hk), hs.unqueuedDirs, hs.nodup⟩
    · intro k hk
      rcases hs.covered k hk with ha | hp | hu | hhas
      · exact .inl ha
      · rcases hpins k hp with rfl | hp
        · exact .inr (.inr (.inr (by simp [sweepHas])))
        · exact .inr (.inl hp)
      · exact .inr (.inr (.inl hu))
      · refine .inr (.inr (.inr ?_))
        have hin : c.segment = k ∨ k ∈ uploaded := by simpa [sweepHas, hsweep] using hhas
        rcases hin with rfl | hin
        · simp [sweepHas]
        · simp [sweepHas, hin]
  · nomatch h

theorem Accounted.sweepReturn (h : mirrorStep dirOf s .sweepReturn = some s') : Accounted dirOf s' := by
  simp only [mirrorStep] at h
  split at h
  next hsweep =>
    cases h
    refine hs.sweeping ?_
    intro k hk
    simp [sweepHas, hsweep] at hk
  next waiting checked uploaded stopped hsweep =>
    obtain ⟨-, rfl⟩ := Option.ite_some_none_eq_some.mp h
    have hmore := told_of_sent (s := s) uploaded
    refine ⟨?_, fun g hg => hmore g (hs.notified g hg), hs.pinDirs, hs.unqueuedDirs, hs.nodup⟩
    intro k hk
    rcases hs.covered k hk with ha | hp | hu | hhas
    · exact .inl (hmore k ha)
    · exact .inr (.inl hp)
    · exact .inr (.inr (.inl hu))
    · have hin : k ∈ uploaded := by simpa [sweepHas, hsweep] using hhas
      exact .inl (mem_append_left _ (mem_append_right _ hin))
  · nomatch h

theorem Accounted.deliver (h : mirrorStep dirOf s .deliver = some s') : Accounted dirOf s' := by
  have htold := told_of_deliver h
  simp only [mirrorStep] at h
  split at h
  · cases h
    refine { hs with covered := fun k hk => ?_, notified := fun k hk => (htold k).mpr (hs.notified k hk) }
    exact (hs.covered k hk).imp (htold k).mpr id
  · nomatch h

/-- A crash that interrupts work on recoverable segments only leaves every object accounted for. -/
theorem Accounted.crash (hsafe : AnnounceSafe s .crash) (h : mirrorStep dirOf s .crash = some s') : Accounted dirOf s' := by
  cases h
  refine ⟨?_, fun _ hk => (nomatch hk), hs.pinDirs, fun _ hk => (nomatch hk), hs.nodup⟩
  intro k hk
  -- what is not in progress is pinned or delivered already
  have hrecoverable : s.Recoverable k := by
    rcases hs.covered k hk with ht | hp | hu | hhas
    · rcases mem_told.mp ht with hc | ha
      · exact hsafe k (mem_append_left _ (mem_append_left _ hc))
      · exact .inr ha
    · exact .inl hp
    · exact hsafe k (mem_append_left _ (mem_append_right _ (mem_inHand hu)))
    · exact hsafe k (mem_append_right _ (mem_toReturn hhas))
  exact hrecoverable.symm.elim (fun ha => .inl ha) fun hp => .inr (.inl hp)

/-- Every step that meets the condition leaves every object accounted for. -/
theorem Accounted.step (hsafe : AnnounceSafe s a) (h : mirrorStep dirOf s a = some s') : Accounted dirOf s' := by
  cases a with
  | sealSegment g => exact hs.sealSegment h
  | enqueue g pinned => exact hs.enqueue h
  | receive => exact hs.receive h
  | upload outcome => exact hs.upload h
  | stat fails => exact hs.stat hsafe h
  | notify => exact hs.notify h
  | unpin fails => exact hs.unpin h
  | deliver => exact hs.deliver h
  | sweepStart | listPending fails | listSealed fails =>
    simp only [mirrorStep] at h
    split at h
    next hsweep =>
      cases h
      refine hs.sweeping ?_
      intro k hk
      simp [sweepHas, hsweep] at hk
    · nomatch h
  | check fails => exact hs.check h
  | handle readFails outcome => exact hs.handle hsafe h
  | settle fails => exact hs.settle h
  | sweepReturn => exact hs.sweepReturn h
  | claim g | release g | finish g =>
    obtain ⟨-, rfl⟩ := Option.ite_some_none_eq_some.mp h
    exact { hs with }
  | remove g =>
    cases h
    exact { hs with }
  | crash => exact hs.crash hsafe h

end

/-! ## A sweep without failures -/

/-- A step without a failure meets the condition. -/
theorem announceSafe_of_succeeds (h : a.succeeds = true) : AnnounceSafe s a := by
  cases a with
  | stat fails => cases fails with
    | false => trivial
    | true => nomatch h
  | handle readFails outcome => cases outcome with
    | ok => trivial
    | failed stored => simp [MirrorAction.succeeds] at h
    | localNotFound => trivial
  | crash => nomatch h
  | _ => trivial

/-- The sweep in progress will return the segment: it is in hand, or it is pinned and the sweep will come to its pin. -/
def SweepWill (dirOf : Nat → Nat) (s : MirrorState) (g : Nat) : Prop :=
  match s.sweep with
  | .idle => False
  | .listing dirs pinsListed candidates =>
    g ∈ s.pins ∧ (⟨g, true⟩ ∈ candidates ∨
      (dirOf g ∈ (if pinsListed then dirs.tail else dirs) ∧ dirs.Nodup ∧ ∀ c ∈ candidates, c.segment ≠ g))
  | .checking waiting checked confirmed uploaded stopped =>
    confirmed.any (fun c => c.segment = g) = true ∨ g ∈ uploaded ∨
      (stopped = false ∧ g ∈ s.pins ∧ (⟨g, true⟩ ∈ waiting ∨ (⟨g, true⟩, Presence.present) ∈ checked) ∧
        ∀ x ∈ checked, x.2 ≠ .unknown)

theorem mem_addCandidates {candidates : List Candidate} {names : List Nat} {pinned : Bool} {c : Candidate} :
    c ∈ addCandidates candidates names pinned ↔
      c ∈ candidates ∨ (c.segment ∈ names ∧ c.pinned = pinned ∧ ∀ d ∈ candidates, d.segment ≠ c.segment) := by
  obtain ⟨g, p⟩ := c
  simp only [addCandidates, mem_append, mem_map, mem_filter, mem_insertionSort, all_eq_true,
    decide_eq_true_eq, Candidate.mk.injEq]
  constructor
  · rintro (h | ⟨k, ⟨hk, hnew⟩, rfl, rfl⟩)
    · exact .inl h
    · exact .inr ⟨hk, rfl, hnew⟩
  · rintro (h | ⟨hk, rfl, hnew⟩)
    · exact .inl h
    · exact .inr ⟨g, ⟨hk, hnew⟩, rfl, rfl⟩

theorem ne_of_mem_addCandidates {candidates : List Candidate} {d : Nat} (hd : dirOf g ≠ d)
    (hnew : ∀ c ∈ candidates, c.segment ≠ g) (names : List Nat) (pinned : Bool) :
    ∀ c ∈ addCandidates candidates (names.filter fun k => dirOf k = d) pinned, c.segment ≠ g := by
  intro c hc
  rcases mem_addCandidates.mp hc with hc | ⟨hc, -⟩
  · exact hnew c hc
  · rintro rfl
    exact hd (by simpa using (mem_filter.mp hc).2)

theorem store_of_handle {readFails : Bool} {outcome : UploadOutcome}
    (h : mirrorStep dirOf s (.handle readFails outcome) = some s') :
    ∃ g stored phase, s' = { s.store g stored with sweep := phase } := by
  simp only [mirrorStep] at h
  split at h
  next waiting c presence checked uploaded hsweep =>
    cases presence with
    | present | unknown =>
      cases h
      exact ⟨c.segment, false, _, rfl⟩
    | absent =>
      simp only at h
      split at h
      · cases h
        exact ⟨c.segment, false, _, rfl⟩
      · cases outcome with
        | ok =>
          cases h
          exact ⟨c.segment, true, _, rfl⟩
        | failed stored =>
          cases h
          exact ⟨c.segment, stored, _, rfl⟩
        | localNotFound => nomatch h
  · nomatch h

/-- No step removes an object from the mirror. -/
theorem objects_mono (h : mirrorStep dirOf s a = some s') : s.objects ⊆ s'.objects := by
  have hstore : ∀ (g : Nat) (stored : Bool), s.objects ⊆ (s.store g stored).objects := by
    intro g stored
    cases stored
    · exact fun _ hk => hk
    · exact subset_cons_self _ _
  cases a with
  | sealSegment g =>
    obtain ⟨-, rfl⟩ := stay h
    exact fun _ hk => hk
  | upload outcome =>
    simp only [mirrorStep] at h
    split at h
    · cases outcome with
      | ok | failed stored =>
        obtain ⟨-, rfl⟩ := Option.ite_some_none_eq_some.mp h
        exact hstore _ _
      | localNotFound =>
        cases h
        exact fun _ hk => hk
    · nomatch h
  | handle readFails outcome =>
    obtain ⟨g, stored, phase, rfl⟩ := store_of_handle h
    exact hstore g stored
  | remove g | crash =>
    cases h
    exact fun _ hk => hk
  | _ =>
    simp only [mirrorStep] at h
    repeat' split at h
    all_goals (cases h <;> exact fun _ hk => hk)

/-- What the uploader has in hand it keeps or announces. -/
theorem uploaderHas_step (hg : g ∈ s.objects) (hsucceeds : a.succeeds = true)
    (h : mirrorStep dirOf s a = some s') (hhas : g ∈ s.told ∨ s.uploaderHas g = true) :
    g ∈ s'.told ∨ s'.uploaderHas g = true := by
  cases a with
  | receive =>
    simp only [mirrorStep] at h
    split at h
    next huploader _ =>
      cases h
      simp only [uploaderHas, huploader, Bool.false_eq_true, or_false] at hhas
      exact .inl hhas
    · nomatch h
  | upload outcome =>
    simp only [mirrorStep] at h
    split at h
    next k attempt huploader =>
      have hhas' : g ∈ s.told ∨ k = g := by simpa [uploaderHas, huploader] using hhas
      cases outcome with
      | ok =>
        obtain ⟨-, rfl⟩ := Option.ite_some_none_eq_some.mp h
        simpa [uploaderHas, told] using hhas'
      | failed stored => nomatch hsucceeds
      | localNotFound =>
        cases h
        simpa [uploaderHas, told] using hhas'
    · nomatch h
  | stat fails =>
    cases fails with
    | true => nomatch hsucceeds
    | false =>
      simp only [mirrorStep] at h
      split at h
      next k huploader =>
        have hhas' : g ∈ s.told ∨ k = g := by simpa [uploaderHas, huploader] using hhas
        cases h
        rcases hhas' with ha | rfl
        · exact .inl ha
        · exact .inr (by simp [uploaderHas, hg])
      · nomatch h
  | notify =>
    simp only [mirrorStep] at h
    split at h
    next k huploader =>
      have hhas' : g ∈ s.told ∨ k = g := by simpa [uploaderHas, huploader] using hhas
      cases h
      rcases hhas' with ha | rfl
      · exact .inl (told_of_sent [k] g ha)
      · exact .inl (mem_append_left _ mem_concat_self)
    · nomatch h
  | deliver =>
    have htold := told_of_deliver h
    simp only [mirrorStep] at h
    split at h
    · cases h
      exact hhas.imp (htold g).mpr id
    · nomatch h
  | unpin fails =>
    simp only [mirrorStep] at h
    split at h
    next k huploader =>
      cases h
      simp only [uploaderHas, huploader, Bool.false_eq_true, or_false] at hhas
      exact .inl hhas
    · nomatch h
  | sweepReturn =>
    simp only [mirrorStep] at h
    split at h
    · cases h
      exact hhas
    · obtain ⟨-, rfl⟩ := Option.ite_some_none_eq_some.mp h
      rcases hhas with ha | hu
      · exact .inl (told_of_sent _ g ha)
      · exact .inr hu
    · nomatch h
  | handle readFails outcome =>
    obtain ⟨k, stored, phase, rfl⟩ := store_of_handle h
    cases stored <;> exact hhas
  | crash => nomatch hsucceeds
  | _ =>
    simp only [mirrorStep] at h
    repeat' split at h
    all_goals (cases h <;> exact hhas)

section

variable (hwill : SweepWill dirOf s g)
include hwill

theorem SweepWill.keep (hsweep : s'.sweep = s.sweep)
    (hpins : g ∈ s.pins → g ∈ s'.pins ∨ g ∈ s'.told) : g ∈ s'.told ∨ SweepWill dirOf s' g := by
  unfold SweepWill at hwill ⊢
  rw [hsweep]
  split at hwill
  · exact hwill.elim
  · rcases hpins hwill.1 with hp | ha
    · exact .inr ⟨hp, hwill.2⟩
    · exact .inl ha
  · rcases hwill with hc | hup | ⟨hstopped, hpin, hrest⟩
    · exact .inr (.inl hc)
    · exact .inr (.inr (.inl hup))
    · rcases hpins hpin with hp | ha
      · exact .inr (.inr (.inr ⟨hstopped, hp, hrest⟩))
      · exact .inl ha

theorem SweepWill.listPending (h : mirrorStep dirOf s (.listPending false) = some s') : SweepWill dirOf s' g := by
  simp only [mirrorStep] at h
  split at h
  next d dirs candidates hsweep =>
    cases h
    simp only [SweepWill, hsweep, Bool.false_eq_true, if_false, if_true, tail_cons] at hwill ⊢
    obtain ⟨hpin, hwill⟩ := hwill
    refine ⟨hpin, ?_⟩
    rcases hwill with hlisted | ⟨hdir, hnodup, hnew⟩
    · exact .inl (mem_addCandidates.mpr (.inl hlisted))
    · by_cases hd : dirOf g = d
      · refine .inl (mem_addCandidates.mpr (.inr ⟨?_, rfl, hnew⟩))
        exact mem_filter.mpr ⟨hpin, by simpa using hd⟩
      · exact .inr ⟨(mem_cons.mp hdir).resolve_left hd, hnodup, ne_of_mem_addCandidates hd hnew _ _⟩
  · nomatch h

theorem SweepWill.listSealed (h : mirrorStep dirOf s (.listSealed false) = some s') : SweepWill dirOf s' g := by
  simp only [mirrorStep] at h
  split at h
  next d dirs candidates hsweep =>
    cases h
    simp only [SweepWill, hsweep, Bool.false_eq_true, if_false, if_true, tail_cons] at hwill ⊢
    obtain ⟨hpin, hwill⟩ := hwill
    refine ⟨hpin, ?_⟩
    rcases hwill with hlisted | ⟨hdir, hnodup, hnew⟩
    · exact .inl (mem_addCandidates.mpr (.inl hlisted))
    · obtain ⟨hd, hnodup⟩ := nodup_cons.mp hnodup
      exact .inr ⟨hdir, hnodup, ne_of_mem_addCandidates (fun hdirOf : dirOf g = d => hd (hdirOf ▸ hdir)) hnew _ _⟩
  · nomatch h

end

theorem SweepWill.check (hg : g ∈ s.objects) (hwill : SweepWill dirOf s g)
    (h : mirrorStep dirOf s (.check false) = some s') : SweepWill dirOf s' g := by
  simp only [mirrorStep, Bool.false_eq_true, if_false] at h
  have hknown : ∀ c : Candidate, (if c.segment ∈ s.objects then Presence.present else .absent) ≠ .unknown := by
    intro c
    split <;> exact fun hk => nomatch hk
  split at h
  next c candidates hsweep =>
    cases h
    simp only [SweepWill, hsweep] at hwill ⊢
    obtain ⟨hpin, hlisted | ⟨hdir, -⟩⟩ := hwill
    · refine .inr (.inr ⟨trivial, hpin, ?_, ?_⟩)
      · rcases mem_cons.mp hlisted with rfl | hlisted
        · exact .inr (by simp [hg])
        · exact .inl hlisted
      · intro x hx
        rw [mem_singleton.mp hx]
        exact hknown c
    · simp at hdir
  next c waiting checked confirmed uploaded stopped hsweep =>
    cases h
    simp only [SweepWill, hsweep] at hwill ⊢
    rcases hwill with hc | hup | ⟨hstopped, hpin, hcomes, hall⟩
    · exact .inl hc
    · exact .inr (.inl hup)
    · refine .inr (.inr ⟨hstopped, hpin, ?_, ?_⟩)
      · rcases hcomes with hwaiting | hchecked
        · rcases mem_cons.mp hwaiting with rfl | hwaiting
          · exact .inr (mem_append_right _ (by simp [hg]))
          · exact .inl hwaiting
        · exact .inr (mem_append_left _ hchecked)
      · intro x hx
        rcases mem_append.mp hx with hx | hx
        · exact hall x hx
        · rw [mem_singleton.mp hx]
          exact hknown c
  · nomatch h

section

variable (hwill : SweepWill dirOf s g)
include hwill

theorem SweepWill.handle (h : mirrorStep dirOf s (.handle false .ok) = some s') : SweepWill dirOf s' g := by
  simp only [mirrorStep] at h
  split at h
  next waiting c presence checked uploaded hsweep =>
    simp only [SweepWill, hsweep] at hwill
    -- what is behind the first candidate stays to come
    have hrest : ∀ confirmed : Option Candidate, (c = ⟨g, true⟩ → presence = .present → confirmed = some c) →
        confirmed.any (fun c => c.segment = g) = true ∨ g ∈ uploaded ∨
          (false = false ∧ g ∈ s.pins ∧ (⟨g, true⟩ ∈ waiting ∨ (⟨g, true⟩, Presence.present) ∈ checked) ∧
            ∀ x ∈ checked, x.2 ≠ .unknown) := by
      intro confirmed hconfirmed
      rcases hwill with hc | hup | ⟨-, hpin, hcomes, hall⟩
      · nomatch hc
      · exact .inr (.inl hup)
      · rcases hcomes with hwaiting | hchecked
        · exact .inr (.inr ⟨rfl, hpin, Or.inl hwaiting, fun x hx => hall x (mem_cons_of_mem _ hx)⟩)
        · rcases mem_cons.mp hchecked with heq | hchecked
          · obtain ⟨rfl, rfl⟩ := Prod.mk.inj heq
            rw [hconfirmed rfl rfl]
            exact .inl (by simp)
          · exact .inr (.inr ⟨rfl, hpin, Or.inr hchecked, fun x hx => hall x (mem_cons_of_mem _ hx)⟩)
    cases presence with
    | present =>
      cases h
      refine hrest _ ?_
      rintro rfl _
      rfl
    | unknown =>
      rcases hwill with hc | hup | ⟨-, -, -, hall⟩
      · nomatch hc
      · cases h
        exact .inr (.inl hup)
      · exact absurd rfl (hall _ mem_cons_self)
    | absent =>
      simp only at h
      split at h
      · cases h
        exact hrest none fun _ hk => nomatch hk
      · cases h
        exact hrest (some c) fun _ hk => nomatch hk
  · nomatch h

theorem SweepWill.settle (h : mirrorStep dirOf s (.settle false) = some s') : SweepWill dirOf s' g := by
  simp only [mirrorStep] at h
  split at h
  next waiting checked c uploaded stopped hsweep =>
    cases h
    simp only [SweepWill, hsweep] at hwill ⊢
    by_cases hc : c.segment = g
    · exact .inr (.inl (by simp [hc]))
    rcases hwill with hk | hup | ⟨hstopped, hpin, hrest⟩
    · exact absurd (by simpa using hk) hc
    · exact .inr (.inl (mem_append_left _ hup))
    · refine .inr (.inr ⟨hstopped, ?_, hrest⟩)
      split
      · exact mem_without.mpr ⟨hpin, Ne.symm hc⟩
      · exact hpin
  · nomatch h

theorem SweepWill.sweepReturn (h : mirrorStep dirOf s .sweepReturn = some s') : g ∈ s'.told := by
  simp only [mirrorStep] at h
  split at h
  next hsweep =>
    simp only [SweepWill, hsweep] at hwill
    obtain ⟨-, hk | ⟨hk, -⟩⟩ := hwill
    · nomatch hk
    · simp at hk
  next waiting checked uploaded stopped hsweep =>
    obtain ⟨hend, rfl⟩ := Option.ite_some_none_eq_some.mp h
    simp only [SweepWill, hsweep] at hwill
    rcases hwill with hk | hup | ⟨rfl, -, hcomes, -⟩
    · nomatch hk
    · exact mem_append_left _ (mem_append_right _ hup)
    · simp only [Bool.false_or, Bool.and_eq_true, List.isEmpty_iff] at hend
      rw [hend.1, hend.2] at hcomes
      rcases hcomes with hk | hk <;> nomatch hk
  · nomatch h

end

/-- A sweep that will announce an object does so, step by step. -/
theorem SweepWill.step (hs : Accounted dirOf s) (hg : g ∈ s.objects) (hsucceeds : a.succeeds = true)
    (h : mirrorStep dirOf s a = some s') (hwill : SweepWill dirOf s g) : g ∈ s'.told ∨ SweepWill dirOf s' g := by
  cases a with
  | enqueue k pinned =>
    obtain ⟨-, rfl⟩ := Option.ite_some_none_eq_some.mp h
    refine hwill.keep rfl fun hp => .inl ?_
    show g ∈ (if pinned then k :: s.pins else s.pins)
    split
    · exact mem_cons_of_mem _ hp
    · exact hp
  | unpin fails =>
    simp only [mirrorStep] at h
    split at h
    next k huploader =>
      cases h
      refine hwill.keep rfl fun hp => ?_
      rcases (pins_after (ite_eq_or_eq (fails = true) s.pins (without s.pins k))).1 g hp with rfl | hp
      · exact .inr (hs.notified g huploader)
      · exact .inl hp
    · nomatch h
  | sweepStart =>
    simp only [mirrorStep] at h
    split at h
    next hsweep =>
      simp only [SweepWill, hsweep] at hwill
    · nomatch h
  | listPending fails =>
    obtain rfl : fails = false := by simpa [MirrorAction.succeeds] using hsucceeds
    exact .inr (hwill.listPending h)
  | listSealed fails =>
    obtain rfl : fails = false := by simpa [MirrorAction.succeeds] using hsucceeds
    exact .inr (hwill.listSealed h)
  | check fails =>
    obtain rfl : fails = false := by simpa [MirrorAction.succeeds] using hsucceeds
    exact .inr (hwill.check hg h)
  | handle readFails outcome =>
    obtain ⟨rfl, rfl⟩ : readFails = false ∧ outcome = .ok := by simpa [MirrorAction.succeeds] using hsucceeds
    exact .inr (hwill.handle h)
  | settle fails =>
    obtain rfl : fails = false := by simpa [MirrorAction.succeeds] using hsucceeds
    exact .inr (hwill.settle h)
  | sweepReturn => exact .inl (hwill.sweepReturn h)
  | crash => nomatch hsucceeds
  | upload outcome =>
    simp only [mirrorStep] at h
    split at h
    · cases outcome with
      | ok =>
        obtain ⟨-, rfl⟩ := Option.ite_some_none_eq_some.mp h
        exact hwill.keep rfl Or.inl
      | failed stored => nomatch hsucceeds
      | localNotFound =>
        cases h
        exact hwill.keep rfl Or.inl
    · nomatch h
  | _ =>
    simp only [mirrorStep] at h
    repeat' split at h
    all_goals (cases h <;> exact hwill.keep rfl Or.inl)

/-- The segment is announced, or the uploader or the sweep in progress will announce it. -/
def WillAnnounce (dirOf : Nat → Nat) (s : MirrorState) (g : Nat) : Prop :=
  (g ∈ s.told ∨ s.uploaderHas g = true) ∨ SweepWill dirOf s g

/-- Without failures an object that will be announced stays so. -/
theorem WillAnnounce.step (hs : Accounted dirOf s) (hg : g ∈ s.objects) (hsucceeds : a.succeeds = true)
    (h : mirrorStep dirOf s a = some s') (hwill : WillAnnounce dirOf s g) : WillAnnounce dirOf s' g := by
  rcases hwill with hhas | hsweep
  · exact .inl (uploaderHas_step hg hsucceeds h hhas)
  · rcases hsweep.step hs hg hsucceeds h with ha | hsweep
    · exact .inl (.inl ha)
    · exact .inr hsweep

/-- A sweep that starts will announce every object that nobody has announced. -/
theorem willAnnounce_of_sweepStart (hs : Accounted dirOf s) (hg : g ∈ s.objects)
    (h : mirrorStep dirOf s .sweepStart = some s') : WillAnnounce dirOf s' g := by
  simp only [mirrorStep] at h
  split at h
  next hsweep =>
    cases h
    rcases hs.covered g hg with ha | hp | hu | hhas
    · exact .inl (.inl ha)
    · exact .inr ⟨hp, Or.inr ⟨hs.pinDirs g hp, hs.nodup, fun _ hc => (nomatch hc)⟩⟩
    · exact .inl (.inr hu)
    · simp [sweepHas, hsweep] at hhas
  · nomatch h

end LogLake.Mirror
