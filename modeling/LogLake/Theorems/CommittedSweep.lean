import LogLake.Wal.Sweep

/-! # The gated sweep removes only what is released -/

namespace LogLake

open List

/-! ## The lowest watermark -/

def WatermarkAtMost (watermark : Option Text) (t : Text) : Prop := ∃ wm, watermark = some wm ∧ wm ≤ t

theorem lowerWatermark_le (min : Option Text) (watermark : Text) : lowerWatermark min watermark ≤ watermark := by
  cases min with
  | none => exact le_refl watermark
  | some cur =>
    by_cases hle : cur ≤ watermark
    · simp [lowerWatermark, hle]
    · simp [lowerWatermark, hle]

theorem lowerWatermark_le_min {min : Option Text} {cur : Text} (h : min = some cur) (watermark : Text) :
    lowerWatermark min watermark ≤ cur := by
  subst h
  by_cases hle : cur ≤ watermark
  · simp [lowerWatermark, hle]
  · simpa [lowerWatermark, hle] using le_of_not_ge hle

variable {now staleAfter : Nat} {watermark : Option Text}

theorem minWatermarkFrom_le {min : Option Text} {files : List ConsumerFile}
    (h : minWatermarkFrom now staleAfter min files = .ok watermark) :
    (∀ cur, min = some cur → WatermarkAtMost watermark cur) ∧
      ∀ f ∈ files, f.Fresh now staleAfter → ∃ content, f.content = some content ∧ WatermarkAtMost watermark (trim content) := by
  fun_induction minWatermarkFrom now staleAfter min files with
  | case1 min =>
    cases h
    exact ⟨fun cur hcur => ⟨cur, hcur, le_refl cur⟩, fun f hf => absurd hf not_mem_nil⟩
  | case2 => cases h
  | case3 min f files hfile ih =>
    refine ⟨(ih h).1, forall_mem_cons.mpr ⟨fun hfresh => ?_, (ih h).2⟩⟩
    rw [hfresh.1] at hfile
    cases hfile
  | case4 min f files _ htemporary ih =>
    refine ⟨(ih h).1, forall_mem_cons.mpr ⟨fun hfresh => ?_, (ih h).2⟩⟩
    rw [hfresh.2.1] at htemporary
    cases htemporary
  | case5 => cases h
  | case6 min f files _ _ modified hmodified hstale ih =>
    refine ⟨(ih h).1, forall_mem_cons.mpr ⟨fun hfresh => ?_, (ih h).2⟩⟩
    obtain ⟨_, _, modified', hmodified', hage⟩ := hfresh
    rw [hmodified, Option.some.injEq] at hmodified'
    subst hmodified'
    omega
  | case7 => cases h
  | case8 min f files _ _ _ _ _ content hcontent ih =>
    obtain ⟨wm, hwm, hle⟩ := (ih h).1 _ rfl
    refine ⟨fun cur hcur => ⟨wm, hwm, hle.trans (lowerWatermark_le_min hcur _)⟩,
      forall_mem_cons.mpr ⟨fun _ => ⟨content, hcontent, wm, hwm, hle.trans (lowerWatermark_le _ _)⟩, (ih h).2⟩⟩

theorem minConsumerWatermark_le {consumers : Option (List ConsumerFile)}
    (h : minConsumerWatermark now staleAfter consumers = .ok watermark) : ∀ f ∈ consumers.getD [], f.Fresh now staleAfter →
      ∃ content, f.content = some content ∧ WatermarkAtMost watermark (trim content) := by
  cases consumers with
  | none => exact fun f hf => absurd hf not_mem_nil
  | some files => exact (minWatermarkFrom_le h).2

/-! ## The loop over the segments -/

variable {cfg : SweepSettings}

theorem releases_below_ceiling {age : Nat} {name : Text}
    (h : cfg.releases watermark age name = true) (hage : age < cfg.maxRetention) :
    (∀ wm, watermark = some wm → name ≤ wm) ∧ cfg.gated name = false := by
  have hexpired : decide (cfg.maxRetention ≤ age) = false := decide_eq_false (Nat.not_le.mpr hage)
  simp only [SweepSettings.releases, hexpired, Bool.false_or, Bool.not_false, Bool.and_true, Bool.and_eq_true,
    Bool.not_eq_true', decide_eq_true_eq] at h
  refine ⟨fun wm hwm => ?_, h.2⟩
  subst hwm
  simpa using h.1.2

theorem sweepEntry_deleted {e : CommittedEntry} {gated : Bool} (h : sweepEntry cfg watermark now e = .deleted gated) :
    ∃ name, e.name = some name ∧ gated = cfg.gated name ∧ cfg.releases watermark (e.age now) name = true := by
  simp only [sweepEntry] at h
  split at h
  · cases h
  · cases h
  · cases h
  · rename_i name _ hname
    split at h
    · cases h
    · split at h
      · cases h
      · rename_i hreleases
        split at h
        · cases h
          exact ⟨name, hname, rfl, by simpa using hreleases⟩
        · cases h
        · cases h

variable {entries : List CommittedEntry}

theorem sweepFrom_removed {swept : CommittedSweep} : ∀ e ∈ (sweepFrom cfg watermark now swept entries).removed,
      ∃ name, e.name = some name ∧ cfg.releases watermark (e.age now) name = true := by
  fun_induction sweepFrom cfg watermark now swept entries with
  | case1 | case4 => exact fun e he => absurd he not_mem_nil
  | case2 _ e _ _ ih => exact ih
  | case3 _ e _ gated hdeleted run ih =>
    obtain ⟨name, hname, _, hreleases⟩ := sweepEntry_deleted hdeleted
    exact forall_mem_cons.mpr ⟨⟨name, hname, hreleases⟩, ih⟩

theorem CommittedSweep.count_deleted (swept : CommittedSweep) (gated : Bool) :
    (swept.count gated).deleted = swept.deleted + 1 := rfl

theorem CommittedSweep.count_unmarked (swept : CommittedSweep) (gated : Bool) :
    (swept.count gated).unmarked = swept.unmarked + gated.toNat := rfl

theorem sweepFrom_counts {swept total : CommittedSweep} (h : (sweepFrom cfg watermark now swept entries).result = .ok total) :
    total.deleted = swept.deleted + (sweepFrom cfg watermark now swept entries).removed.length ∧
      total.unmarked = swept.unmarked +
        (sweepFrom cfg watermark now swept entries).removed.countP fun e => e.name.any cfg.gated := by
  fun_induction sweepFrom cfg watermark now swept entries with
  | case1 swept =>
    cases h
    exact ⟨rfl, rfl⟩
  | case2 swept e entries _ ih => exact ih h
  | case3 swept e entries gated hdeleted run ih =>
    obtain ⟨name, hname, hgated, _⟩ := sweepEntry_deleted hdeleted
    obtain ⟨hlength, hcount⟩ := ih h
    rw [CommittedSweep.count_deleted] at hlength
    rw [CommittedSweep.count_unmarked] at hcount
    have hone : (if e.name.any cfg.gated = true then 1 else 0) = gated.toNat := by
      rw [hname, Option.any_some, ← hgated]
      cases gated <;> rfl
    rw [length_cons, countP_cons, hone]
    change total.deleted = swept.deleted + 1 + run.removed.length at hlength
    change total.unmarked = swept.unmarked + gated.toNat + run.removed.countP _ at hcount
    omega
  | case4 => cases h

theorem sweepCommittedGated_eq (cfg : SweepSettings) (consumerNow now : Nat) (consumers : Option (List ConsumerFile))
    (committed : Option (List CommittedEntry)) :
    (sweepCommittedGated cfg consumerNow now consumers committed).removed = [] ∧
        (∀ swept, (sweepCommittedGated cfg consumerNow now consumers committed).result = .ok swept → swept = ⟨0, 0⟩) ∨
      ∃ watermark entries, minConsumerWatermark consumerNow cfg.staleAfter consumers = .ok watermark ∧
        sweepCommittedGated cfg consumerNow now consumers committed = sweepFrom cfg watermark now ⟨0, 0⟩ entries := by
  cases committed with
  | none => exact .inl ⟨rfl, fun swept hswept => by cases hswept; rfl⟩
  | some entries =>
    cases hmin : minConsumerWatermark consumerNow cfg.staleAfter consumers with
    | error error =>
      have heq : sweepCommittedGated cfg consumerNow now consumers (some entries) = ⟨[], .error error⟩ := by
        simp only [sweepCommittedGated, hmin]
      rw [heq]
      exact .inl ⟨rfl, fun swept hswept => by cases hswept⟩
    | ok watermark => exact .inr ⟨watermark, entries, rfl, by simp only [sweepCommittedGated, hmin]⟩

/-! ## The sweep -/

/-- A segment removed below the hard ceiling lies at or below the watermark of every fresh consumer and has its mark when one
is required. A pass that returns reports the number of segments it removed and the number of those without their mark. -/
theorem sweep_removes_released (cfg : SweepSettings) (consumerNow now : Nat) (consumers : Option (List ConsumerFile))
    (committed : Option (List CommittedEntry)) :
    (∀ e ∈ (sweepCommittedGated cfg consumerNow now consumers committed).removed, e.age now < cfg.maxRetention →
      ∃ name, e.name = some name ∧
        (∀ f ∈ consumers.getD [], f.Fresh consumerNow cfg.staleAfter →
          ∃ content, f.content = some content ∧ name ≤ trim content) ∧
        ∀ set, cfg.marked = some set → name ∈ set) ∧
    ∀ swept, (sweepCommittedGated cfg consumerNow now consumers committed).result = .ok swept →
      swept.deleted = (sweepCommittedGated cfg consumerNow now consumers committed).removed.length ∧
      swept.unmarked =
        (sweepCommittedGated cfg consumerNow now consumers committed).removed.countP fun e => e.name.any cfg.gated := by
  obtain ⟨hempty, hzero⟩ | ⟨watermark, entries, hmin, heq⟩ :=
    sweepCommittedGated_eq cfg consumerNow now consumers committed
  · rw [hempty]
    refine ⟨fun e he => absurd he not_mem_nil, fun swept hswept => ?_⟩
    rw [hzero swept hswept]
    exact ⟨rfl, rfl⟩
  · rw [heq]
    refine ⟨fun e he hage => ?_, fun swept hswept => ?_⟩
    · obtain ⟨name, hname, hreleases⟩ := sweepFrom_removed e he
      obtain ⟨hconsumed, hmark⟩ := releases_below_ceiling hreleases hage
      refine ⟨name, hname, fun f hf hfresh => ?_, fun set hset => ?_⟩
      · obtain ⟨content, hcontent, wm, hwm, hle⟩ := minConsumerWatermark_le hmin f hf hfresh
        exact ⟨content, hcontent, (hconsumed wm hwm).trans hle⟩
      · simpa [SweepSettings.gated, hset] using hmark
    · have hcounts := sweepFrom_counts hswept
      simpa only [Nat.zero_add] using hcounts

/-- A segment past its retention and consumed, but without its mark, is held back, and no count says so. -/
theorem withheld_not_counted :
    let cfg : SweepSettings := ⟨60, 600, 30, some []⟩
    let committed : List CommittedEntry := [⟨some true, some "a-1.arrow".toList, some 0, .removed⟩]
    let run := sweepCommittedGated cfg 100 100 none (some committed)
    run.result = .ok ⟨0, 0⟩ ∧ run.removed = [] ∧
      (committed.filter fun e => e.isSegment && !run.removed.contains e).length = 1 := by
  refine ⟨rfl, rfl, ?_⟩
  decide +kernel

end LogLake
