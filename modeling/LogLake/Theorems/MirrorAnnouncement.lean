import LogLake.Lemmas.Announce

/-! # Every mirrored segment is announced -/

namespace LogLake.Mirror

open Option Transition
open MirrorState (init)

variable {dirOf : Nat → Nat}

theorem accounted_run {s s' : MirrorState} {g : Nat} {actions : List MirrorAction} (hs : Accounted dirOf s ∧ g ∈ s.objects)
    (hsucceed : ∀ a ∈ actions, a.succeeds = true) (hrun : run (mirrorStep dirOf) s actions = some s') :
    Accounted dirOf s' ∧ g ∈ s'.objects := by
  refine invariant_run (I := fun s => Accounted dirOf s ∧ g ∈ s.objects) ?_ hs (meets_of_forall hsucceed s) hrun
  intro s₀ a s₁ ⟨hs₀, hg⟩ hsucceeds hstep
  exact ⟨hs₀.step (announceSafe_of_succeeds hsucceeds) hstep, objects_mono hstep hg⟩

/-- In every run whose steps can be made up for, no object is stranded; and at the end of every continuation without failures in which
a sweep starts and returns, the announcement of every object is delivered or on its way, or the uploader has the segment in hand. -/
theorem objects_announced_of_announceSafe (dirOf : Nat → Nat) (actions : List MirrorAction) (s : MirrorState)
    (hmeets : Meets (mirrorStep dirOf) AnnounceSafe init actions)
    (hrun : run (mirrorStep dirOf) init actions = some s) :
    (∀ g, ¬ s.Stranded g) ∧
      ∀ pre mid post s', run (mirrorStep dirOf) s (pre ++ .sweepStart :: (mid ++ .sweepReturn :: post)) = some s' →
        (∀ a ∈ pre ++ mid ++ post, a.succeeds = true) → ∀ g ∈ s.objects, g ∈ s'.told ∨ s'.uploaderHas g = true := by
  have hs : Accounted dirOf s := by
    refine invariant_run ?_ (accounted_init dirOf) hmeets hrun
    intro s₀ a s₁ hs₀ hsafe hstep
    exact hs₀.step hsafe hstep
  constructor
  · rintro g ⟨hg, hannounced, hpins, huploader, hsweep⟩
    rcases hs.covered g hg with h | h | h | h
    · exact hannounced h
    · exact hpins h
    · exact (nomatch huploader.symm.trans h)
    · exact (nomatch hsweep.symm.trans h)
  · intro pre mid post s' hcontinue hsucceed g hg
    obtain ⟨s₁, hpre, hrest⟩ := run_append_eq_some.mp hcontinue
    obtain ⟨s₂, hstart, hrest⟩ := bind_eq_some_iff.mp hrest
    obtain ⟨s₃, hmid, hrest⟩ := run_append_eq_some.mp hrest
    obtain ⟨s₄, hreturn, hpost⟩ := bind_eq_some_iff.mp hrest
    obtain ⟨hs₁, hg₁⟩ := accounted_run ⟨hs, hg⟩ (fun a ha => hsucceed a (by simp [ha])) hpre
    -- from its start on the sweep will return the segment, unless the uploader is about to announce it
    have hmidInv : (Accounted dirOf s₃ ∧ g ∈ s₃.objects) ∧ WillAnnounce dirOf s₃ g := by
      refine invariant_run (I := fun s => (Accounted dirOf s ∧ g ∈ s.objects) ∧ WillAnnounce dirOf s g) ?_
        ⟨⟨hs₁.step (announceSafe_of_succeeds rfl) hstart, objects_mono hstart hg₁⟩, willAnnounce_of_sweepStart hs₁ hg₁ hstart⟩
        (meets_of_forall (fun a ha => hsucceed a (by simp [ha])) s₂) hmid
      intro t a t' ⟨⟨ht, hgt⟩, hwill⟩ hsucceeds hstep
      exact ⟨⟨ht.step (announceSafe_of_succeeds hsucceeds) hstep, objects_mono hstep hgt⟩, hwill.step ht hgt hsucceeds hstep⟩
    obtain ⟨⟨_, hg₃⟩, hwill⟩ := hmidInv
    have hreturned : g ∈ s₄.told ∨ s₄.uploaderHas g = true := by
      rcases hwill with hhas | hsweep
      · exact uploaderHas_step hg₃ rfl hreturn hhas
      · exact .inl (hsweep.sweepReturn hreturn)
    have hend : g ∈ s'.objects ∧ (g ∈ s'.told ∨ s'.uploaderHas g = true) := by
      refine invariant_run (I := fun s => g ∈ s.objects ∧ (g ∈ s.told ∨ s.uploaderHas g = true)) ?_
        ⟨objects_mono hreturn hg₃, hreturned⟩ (meets_of_forall (fun a ha => hsucceed a (by simp [ha])) s₄) hpost
      intro t a t' ⟨hgt, hhas⟩ hsucceeds hstep
      exact ⟨objects_mono hstep hgt, uploaderHas_step hgt hsucceeds hstep hhas⟩
    exact hend.2

def storedAndCrashed : List MirrorAction :=
  [.sealSegment 0, .enqueue 0 true, .receive, .upload (.failed true), .crash]

def storedAndCrashedTwice : List MirrorAction := storedAndCrashed ++ [.sweepStart, .listPending false, .crash]

def sweepToUnpin : List MirrorAction :=
  [.listPending false, .listSealed false, .check false, .handle false .ok, .settle false]

/-- After the crashes the pin is there, and the next sweep returns the segment. -/
theorem storedAndCrashed_announced :
    ∃ s s', run (mirrorStep fun _ => 0) init storedAndCrashedTwice = some s ∧ s.objects = [0] ∧
      run (mirrorStep fun _ => 0) s (.sweepStart :: (sweepToUnpin ++ [.sweepReturn, .deliver])) = some s' ∧ ¬ s.Stranded 0 ∧
      (0 ∈ s'.told ∨ s'.uploaderHas 0 = true) ∧ s'.announced = [0] := by
  refine ⟨_, _, rfl, rfl, rfl, ?_⟩
  have h := objects_announced_of_announceSafe (fun _ => 0) storedAndCrashedTwice _ (by
    refine ⟨trivial, fun s₁ h₁ => ?_⟩
    obtain rfl := some.inj h₁
    refine ⟨trivial, fun s₂ h₂ => ?_⟩
    obtain rfl := some.inj h₂
    refine ⟨trivial, fun s₃ h₃ => ?_⟩
    obtain rfl := some.inj h₃
    refine ⟨trivial, fun s₄ h₄ => ?_⟩
    obtain rfl := some.inj h₄
    refine ⟨fun g hg => .inl hg, fun s₅ h₅ => ?_⟩
    obtain rfl := some.inj h₅
    refine ⟨trivial, fun s₆ h₆ => ?_⟩
    obtain rfl := some.inj h₆
    refine ⟨trivial, fun s₇ h₇ => ?_⟩
    obtain rfl := some.inj h₇
    exact ⟨fun g hg => absurd hg List.not_mem_nil, fun _ _ => trivial⟩) rfl
  exact ⟨h.1 0, h.2 [] sweepToUnpin [.deliver] _ rfl (by decide) 0 List.mem_cons_self, rfl⟩

def announcementLost : List MirrorAction :=
  [.sealSegment 0, .enqueue 0 true, .receive, .upload .ok, .notify, .unpin false, .crash]

def storedUnpinned : List MirrorAction :=
  [.sealSegment 0, .crash, .sweepStart, .listPending false, .listSealed false, .check false, .handle false (.failed true),
    .sweepReturn]

def cleanSweep : List MirrorAction :=
  [.sweepStart, .listPending false, .listSealed false, .check false, .handle false .ok, .sweepReturn]

/-- An object is left in the mirror with nobody told and no pin, and a sweep without failures passes it over: when the process
crashes after the uploader or a sweep has removed the pin and before the announcement is delivered, and when an upload of the sweep
fails although the object was stored for a segment that never got a pin. -/
theorem sweep_passes_over_stranded_object :
    (∃ s s', run (mirrorStep fun _ => 0) init (storedAndCrashed ++ .sweepStart :: (sweepToUnpin ++ [.crash])) = some s ∧
      s.Stranded 0 ∧ run (mirrorStep fun _ => 0) s cleanSweep = some s' ∧ s'.Stranded 0) ∧
    (∃ s s', run (mirrorStep fun _ => 0) init announcementLost = some s ∧
      s.Stranded 0 ∧ run (mirrorStep fun _ => 0) s cleanSweep = some s' ∧ s'.Stranded 0) ∧
    ∃ s s', run (mirrorStep fun _ => 0) init storedUnpinned = some s ∧
      s.Stranded 0 ∧ run (mirrorStep fun _ => 0) s cleanSweep = some s' ∧ s'.Stranded 0 :=
  ⟨⟨_, _, rfl, by decide, rfl, by decide⟩, ⟨_, _, rfl, by decide, rfl, by decide⟩, ⟨_, _, rfl, by decide, rfl, by decide⟩⟩

end LogLake.Mirror
