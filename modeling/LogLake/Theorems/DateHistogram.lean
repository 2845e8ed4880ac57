import LogLake.Lemmas.Windowed

/-! # Date histograms -/

namespace LogLake.Tier2

open List SortedMap
open Bucket (start start64 start_le lt_start_add)
open DataFile (candidates)

variable {interval origin : Int} {shard : Option (Text → Bool)} {w : Window} {files : List DataFile} {f : DataFile}
  {rows : List Row}

/-! ## Event times -/

theorem eventTimes_filter (p : Int → Prop) [DecidablePred p] (rows : List Row) :
    eventTimes (rows.filter fun r => decide (∃ t ∈ r.timestamp, p t)) = (eventTimes rows).filter fun t => p t := by
  induction rows with
  | nil => rfl
  | cons r rows ih =>
    simp only [eventTimes, Option.mem_def] at ih ⊢
    cases ht : r.timestamp with
    | none => simp [ht, ih]
    | some t => by_cases hp : p t <;> simp [ht, ih, hp]

theorem eventTimes_filter_within (w : Window) (rows : List Row) :
    eventTimes (rows.filter fun r => r.Within w) = (eventTimes rows).filter fun t => w.Holds t :=
  eventTimes_filter w.Holds rows

theorem mem_eventTimes {t : Int} : t ∈ eventTimes rows ↔ ∃ r ∈ rows, t ∈ r.timestamp := by
  simp only [eventTimes, mem_filterMap, Option.mem_def]

/-- The buckets of event times, one for each. -/
def bucketsOf (interval origin : Int) (times : List Int) : List Int := times.map (start origin interval)

theorem map_start_filter_covers {width : Int} (hwidth : 0 < width) (hinterval : 0 < interval) (hdvd : width ∣ interval)
    (horigin : width ∣ origin) {p : Int → Bool} (times : List Int) (hfits : ∀ t ∈ times, Bucket.Fits origin interval t)
    (hp : ∀ t ∈ times, p (start 0 width t) = true ↔ w.Holds t) :
    (((times.map (start 0 width)).filter p).map (start64 origin interval)) =
      bucketsOf interval origin (times.filter fun t => w.Holds t) := by
  rw [filter_map, map_map, bucketsOf]
  have hfilter : times.filter (p ∘ start 0 width) = times.filter fun t => w.Holds t := by
    refine filter_congr fun t ht => ?_
    rw [Bool.eq_iff_iff, decide_eq_true_eq]
    exact hp t ht
  rw [hfilter]
  refine map_congr_left fun t ht => ?_
  have hfine := (hfits t (mem_filter.mp ht).1).fine hwidth hinterval hdvd horigin
  exact hfine.start64_eq.trans (Bucket.start_start hwidth hinterval hdvd (by simpa using horigin))

/-- Computed in 64 bits, the buckets of times that fit are the same. -/
theorem map_start64 {times : List Int} (hfits : ∀ t ∈ times, Bucket.Fits origin interval t) :
    times.map (start64 origin interval) = times.map (start origin interval) :=
  map_congr_left fun t ht => (hfits t ht).start64_eq

theorem holds_iff_covers {width t b : Int} (hwidth : 0 < width) (hb : start 0 width t = b)
    (hsplit : w.Meets b (b + width) → w.Covers b (b + width)) :
    (w.Covers b (b + width) ↔ w.Holds t) ∧ (w.Meets b (b + width) ↔ w.Holds t) := by
  have hlow : b ≤ t := hb ▸ start_le hwidth
  have hhigh : t < b + width := hb ▸ lt_start_add hwidth
  have hmeets : w.Holds t → w.Meets b (b + width) := fun hholds => by
    by_contra hnot
    exact Window.not_holds_of_not_meets hnot hlow hhigh hholds
  exact ⟨⟨fun hcovers => hcovers.holds hlow hhigh, fun hholds => hsplit (hmeets hholds)⟩,
    ⟨fun hm => (hsplit hm).holds hlow hhigh, hmeets⟩⟩

/-! ## Files -/

def DataFile.singleBucket (interval origin : Int) (f : DataFile) : Int := start origin interval (f.lower.getD 0)

theorem of_singleBucket (hinterval : 0 < interval) (hfits : f.Fits interval origin) (h : f.SingleBucket interval origin w)
    {t : Int} (ht : t ∈ eventTimes f.rows) : start origin interval t = f.singleBucket interval origin ∧ w.Holds t := by
  obtain ⟨lower, hlower, upper, hupper, hsame, hcovers⟩ := h
  have hlow := hfits.lower lower hlower
  rw [hlow.start64_eq, (hfits.upper upper hupper).start64_eq] at hsame
  rw [hlow.start64_eq, saturate64_eq hlow.ends] at hcovers
  obtain ⟨r, hr, hmem⟩ := mem_eventTimes.mp ht
  have hle := f.bounded.lower_le lower hlower r hr t hmem
  have hle' := f.bounded.le_upper upper hupper r hr t hmem
  have hbucket : start origin interval t = start origin interval lower :=
    Bucket.start_eq_of_between hinterval hsame hle hle'
  refine ⟨by rw [hbucket, DataFile.singleBucket, Option.mem_def.mp hlower, Option.getD_some], ?_⟩
  rw [← hbucket] at hcovers
  exact hcovers.holds (start_le hinterval) (lt_start_add hinterval)

def DataFile.contributedBuckets (interval origin : Int) (w : Window) (f : DataFile) : List Int :=
  if f.SingleBucket interval origin w then List.replicate f.recordCount (f.singleBucket interval origin)
  else bucketsOf interval origin (eventTimes (f.rows.filter fun r => r.Within w))

/-- The buckets that it contributes beyond those of its event times in the window. -/
def DataFile.surplusBuckets (interval origin : Int) (w : Window) (f : DataFile) : List Int :=
  if f.SingleBucket interval origin w then List.replicate f.untimed.length (f.singleBucket interval origin) else []

theorem contributedBuckets_eq (hinterval : 0 < interval) (hfits : f.Fits interval origin) : f.contributedBuckets interval origin w =
      bucketsOf interval origin (eventTimes (f.rows.filter fun r => r.Within w)) ++ f.surplusBuckets interval origin w := by
  unfold DataFile.contributedBuckets DataFile.surplusBuckets
  split
  · next h =>
    have hall : (eventTimes f.rows).filter (fun t => w.Holds t) = eventTimes f.rows :=
      filter_eq_self.mpr fun t ht => decide_eq_true (of_singleBucket hinterval hfits h ht).2
    have hbuckets : bucketsOf interval origin (eventTimes f.rows) =
        List.replicate (eventTimes f.rows).length (f.singleBucket interval origin) := by
      refine eq_replicate_iff.mpr ⟨length_map _, fun b hb => ?_⟩
      obtain ⟨t, ht, rfl⟩ := mem_map.mp hb
      exact (of_singleBucket hinterval hfits h ht).1
    rw [eventTimes_filter_within, hall, hbuckets, replicate_append_replicate, length_untimed, length_eventTimes_add_nulls]
    rfl
  · rw [append_nil]

theorem recordCount_pos (h : f.SingleBucket interval origin w) : 0 < f.recordCount := by
  obtain ⟨lower, hlower, -⟩ := h
  obtain ⟨r, hr, -⟩ := f.bounded_of_some lower hlower
  exact length_pos_of_mem hr

theorem dvd_of_footerEligible (h : footerEligible interval origin = true) :
    timeBucketBaseNs ∣ interval ∧ timeBucketBaseNs ∣ origin := by
  obtain ⟨hinterval, horigin⟩ := of_decide_eq_true h
  exact ⟨Int.dvd_of_emod_eq_zero hinterval, Int.dvd_of_emod_eq_zero horigin⟩

theorem timeBucketBaseNs_pos : 0 < timeBucketBaseNs := by decide

theorem footerBuckets_eq (hinterval : 0 < interval) (hfits : f.Fits interval origin) {buckets : SortedMap Int Nat}
    (h : f.footerBuckets (footerEligible interval origin) w = some buckets) :
    buckets = tally ((eventTimes f.rows).map (start 0 timeBucketBaseNs)) ∧
      ((((eventTimes f.rows).map (start 0 timeBucketBaseNs)).filter fun s =>
        w.Covers s (saturate64 (s + timeBucketBaseNs))).map (start64 origin interval)) =
        bucketsOf interval origin (eventTimes (f.rows.filter fun r => r.Within w)) := by
  have hminutes := map_start64 fun t ht => (hfits.times t ht).2
  unfold DataFile.footerBuckets at h
  split at h
  · next heligible =>
    obtain ⟨hread, hstraddle⟩ := Option.filter_eq_some_iff.mp h
    obtain ⟨hbuckets, -⟩ := readTimeBuckets_eq hread
    obtain ⟨hdvd, horigin⟩ := dvd_of_footerEligible heligible
    rw [hminutes] at hbuckets
    refine ⟨hbuckets, ?_⟩
    rw [eventTimes_filter_within]
    refine map_start_filter_covers timeBucketBaseNs_pos hinterval hdvd horigin _ (fun t ht => (hfits.times t ht).1)
      fun t ht => ?_
    have hend := saturate64_eq (hfits.times t ht).2.ends
    rw [decide_eq_true_eq, hend]
    refine (holds_iff_covers timeBucketBaseNs_pos rfl fun hmeets => ?_).1
    by_contra hcovers
    -- the minute of an event time is an entry of the footer
    obtain ⟨n, hn⟩ := exists_mem_tally (mem_map_of_mem (f := start 0 timeBucketBaseNs) ht)
    rw [← hbuckets] at hn
    exact of_decide_eq_true hstraddle ⟨_, hn, by rwa [hend], by rwa [hend]⟩
  · cases h

/-! ## The three passes -/

theorem foldl_stats (files : List DataFile)
    (hfiles : ∀ f ∈ files, f.Fits interval origin ∧ f.SingleBucket interval origin w) (l : List Int) :
    files.foldl (fun counts f => counts.bump (start64 origin interval (f.lower.getD 0)) f.recordCount) (tally l) =
      tally (l ++ files.flatMap (DataFile.contributedBuckets interval origin w)) := by
  induction files generalizing l with
  | nil => simp
  | cons f files ih =>
    obtain ⟨hfits, hsingle⟩ := hfiles f mem_cons_self
    have hbucket : start64 origin interval (f.lower.getD 0) = f.singleBucket interval origin := by
      obtain ⟨lower, hlower, -⟩ := hsingle
      rw [DataFile.singleBucket, Option.mem_def.mp hlower, Option.getD_some]
      exact (hfits.lower lower hlower).start64_eq
    rw [foldl_cons, hbucket, tally_bump l _ (recordCount_pos hsingle),
      ih fun f' hf' => hfiles f' (mem_cons_of_mem _ hf'), flatMap_cons, append_assoc]
    congr 3
    exact (if_pos hsingle).symm

theorem foldl_footers (hinterval : 0 < interval) (files : List DataFile)
    (hfiles : ∀ f ∈ files, f.Fits interval origin ∧ ¬f.SingleBucket interval origin w ∧
      (f.footerBuckets (footerEligible interval origin) w).isSome) (l : List Int) :
    (files.map fun f => tally ((eventTimes f.rows).map (start 0 timeBucketBaseNs))).foldl
        (fun counts buckets => (buckets.entries.filter fun e => w.Covers e.1 (saturate64 (e.1 + timeBucketBaseNs))).foldl
          (fun counts e => counts.bump (start64 origin interval e.1) e.2) counts) (tally l) =
      tally (l ++ files.flatMap (DataFile.contributedBuckets interval origin w)) := by
  induction files generalizing l with
  | nil => simp
  | cons f files ih =>
    obtain ⟨hfits, hsingle, hsome⟩ := hfiles f mem_cons_self
    obtain ⟨buckets, hbuckets⟩ := Option.isSome_iff_exists.mp hsome
    have hcontributed : f.contributedBuckets interval origin w =
        bucketsOf interval origin (eventTimes (f.rows.filter fun r => r.Within w)) := if_neg hsingle
    have hone := foldl_bump_filter_tally (start64 origin interval)
      (fun s => decide (w.Covers s (saturate64 (s + timeBucketBaseNs)))) ((eventTimes f.rows).map (start 0 timeBucketBaseNs)) l
    rw [(footerBuckets_eq hinterval hfits hbuckets).2, ← hcontributed] at hone
    rw [map_cons, foldl_cons, hone, ih fun f' hf' => hfiles f' (mem_cons_of_mem _ hf'), flatMap_cons, append_assoc]

theorem foldl_scans (files : List DataFile)
    (hfiles : ∀ f ∈ files, f.Fits interval origin ∧ ¬f.SingleBucket interval origin w) (l : List Int) :
    files.foldl (fun counts f => counts.add (tally ((eventTimes (f.scan w)).map (start64 origin interval)))) (tally l) =
      tally (l ++ files.flatMap (DataFile.contributedBuckets interval origin w)) := by
  induction files generalizing l with
  | nil => simp
  | cons f files ih =>
    obtain ⟨hfits, hsingle⟩ := hfiles f mem_cons_self
    have hcontributed : f.contributedBuckets interval origin w =
        (eventTimes (f.scan w)).map (start64 origin interval) := by
      rw [scan_eq, eventTimes_filter_within, map_start64 fun t ht => (hfits.times t (mem_filter.mp ht).1).1,
        ← eventTimes_filter_within]
      exact if_neg hsingle
    rw [foldl_cons, add_tally, ih fun f' hf' => hfiles f' (mem_cons_of_mem _ hf'), flatMap_cons, hcontributed, append_assoc]

theorem fileHistogram_eq (hinterval : 0 < interval) (shard : Option (Text → Bool)) (w : Window) (files : List DataFile)
    (hfits : ∀ f ∈ files, f.Fits interval origin) :
    fileHistogram interval origin shard w files =
      tally ((candidates shard w files).flatMap (DataFile.contributedBuckets interval origin w)) := by
  unfold fileHistogram
  have hfits' : ∀ f ∈ candidates shard w files, f.Fits interval origin := fun f hf => hfits f (mem_filter.mp hf).1
  generalize candidates shard w files = overlapping at hfits' ⊢
  dsimp only
  have hfooters : (overlapping.filter fun f => ¬f.SingleBucket interval origin w).filterMap
      (DataFile.footerBuckets (footerEligible interval origin) w) = _ :=
    filterMap_eq_map_filter
      (g := fun f => tally ((eventTimes f.rows).map (start 0 timeBucketBaseNs)))
      fun f hf buckets hbuckets => (footerBuckets_eq hinterval (hfits' f (mem_filter.mp hf).1) hbuckets).1
  have hempty : (empty : SortedMap Int Nat) = tally [] := rfl
  have hpart : ∀ {p : DataFile → Prop} [DecidablePred p], ∀ f ∈ overlapping.filter fun f => p f, f.Fits interval origin ∧ p f :=
    fun f hf => ⟨hfits' f (mem_filter.mp hf).1, of_decide_eq_true (mem_filter.mp hf).2⟩
  rw [hempty, foldl_stats (w := w) _ fun f hf => hpart f hf, hfooters,
    foldl_footers hinterval _ fun f hf =>
      ⟨(hpart f (mem_filter.mp hf).1).1, (hpart f (mem_filter.mp hf).1).2, (mem_filter.mp hf).2⟩,
    foldl_scans _ fun f hf => hpart f (mem_filter.mp hf).1, nil_append]
  refine tally_perm ?_
  rw [append_assoc]
  refine Perm.trans (Perm.append_left _ (flatMap_filter_append_perm (fun f => ?_) _))
    (flatMap_filter_append_perm (fun f => ?_) _)
  · exact (Option.not_isSome _).symm
  · exact decide_not

theorem referenceHistogram_eq (interval origin : Int) (shard : Option (Text → Bool)) (w : Window) (files : List DataFile) :
    referenceHistogram interval origin shard w files = tally ((candidates shard w files).flatMap fun f =>
        bucketsOf interval origin (eventTimes (f.rows.filter fun r => r.Within w))) := by
  rw [referenceHistogram, filter_within_candidates]
  congr 1
  rw [eventTimes, filterMap_flatMap, map_flatMap]
  rfl

theorem fileHistogram_eq_iff (hinterval : 0 < interval) (shard : Option (Text → Bool)) (w : Window) (files : List DataFile)
    (hfits : ∀ f ∈ files, f.Fits interval origin) :
    fileHistogram interval origin shard w files = referenceHistogram interval origin shard w files ↔
      ∀ f ∈ files, f.Owned shard → ¬f.Pruned w → f.SingleBucket interval origin w → f.untimed = [] := by
  have hsum : ((candidates shard w files).flatMap (DataFile.contributedBuckets interval origin w)).Perm
      (((candidates shard w files).flatMap fun f =>
        bucketsOf interval origin (eventTimes (f.rows.filter fun r => r.Within w))) ++
      (candidates shard w files).flatMap (DataFile.surplusBuckets interval origin w)) := by
    have hparts : ∀ f ∈ candidates shard w files, f.contributedBuckets interval origin w = _ :=
      fun f hf => contributedBuckets_eq hinterval (hfits f (mem_filter.mp hf).1)
    rw [flatMap_congr hparts]
    exact (flatMap_append_perm _ _ _).symm
  rw [fileHistogram_eq hinterval _ _ _ hfits, referenceHistogram_eq, tally_perm hsum, tally_append_eq_iff]
  refine flatMap_candidates_eq_nil fun f => ?_
  rw [DataFile.surplusBuckets, ite_eq_right_iff, replicate_eq_nil_iff, length_eq_zero_iff]

/-! ## The aggregate of the snapshot -/

theorem total_of_snapshotAgg {n : Nat} {agg : TimeBucketCounts} {r : SortedMap Int Nat}
    (h : dateHistogramFromSnapshotAgg n agg interval origin w = some r) : agg.buckets.total = n := by
  by_contra hne
  rw [dateHistogramFromSnapshotAgg, if_pos hne] at h
  cases h

theorem dateHistogramFromSnapshotAgg_eq (hinterval : 0 < interval) {agg : TimeBucketCounts} (hagg : agg.Counts rows)
    (hfits : ∀ t ∈ eventTimes rows, Bucket.Fits origin interval t ∧ Bucket.Fits 0 agg.widthNs t)
    {r : SortedMap Int Nat} (h : dateHistogramFromSnapshotAgg rows.length agg interval origin w = some r) :
    r = tally (bucketsOf interval origin (eventTimes (rows.filter fun row => row.Within w))) ∧
      (rows.map Row.timestamp).count none = 0 := by
  unfold dateHistogramFromSnapshotAgg at h
  split at h
  · cases h
  next htotal =>
  split at h
  · cases h
  next hnest =>
  split at h
  · cases h
  next hedge =>
  rw [not_or, not_not, not_not] at hnest
  rw [not_not] at htotal
  have hcounted : agg.buckets.total = (eventTimes rows).length := by
    rw [hagg.buckets_eq, total_tally, length_map]
  have hsum := length_eventTimes_add_nulls rows
  refine ⟨?_, by omega⟩
  rw [← Option.some.inj h, hagg.buckets_eq]
  have hempty : (empty : SortedMap Int Nat) = tally [] := rfl
  have hfold := foldl_bump_filter_tally (start64 origin interval)
    (fun s => decide (w.Meets s (saturate64 (s + agg.widthNs)))) ((eventTimes rows).map (start 0 agg.widthNs)) []
  rw [hempty, hfold, nil_append, eventTimes_filter_within]
  congr 1
  refine map_start_filter_covers hagg.width_pos hinterval (Int.dvd_of_emod_eq_zero hnest.1)
    (Int.dvd_of_emod_eq_zero hnest.2) _ (fun t ht => (hfits t ht).1) fun t ht => ?_
  have hend := saturate64_eq (hfits t ht).2.ends
  rw [decide_eq_true_eq, hend]
  refine (holds_iff_covers hagg.width_pos rfl fun hmeets => ?_).2
  by_contra hcovers
  obtain ⟨n, hn⟩ := exists_mem_tally (mem_map_of_mem (f := start 0 agg.widthNs) ht)
  rw [← hagg.buckets_eq] at hn
  exact hedge (any_eq_true.mpr ⟨_, hn, decide_eq_true ⟨by rwa [hend], by rwa [hend]⟩⟩)

/-! ## The query -/

/-- Instants in the 64-bit range are read as they are. -/
theorem eventTimes_stored {f : StoredFile} (h : ∀ t ∈ f.instants.filterMap id, InI64 t) :
    eventTimes f.rows = f.instants.filterMap id := by
  have hread : f.instants.map (Option.map saturate64) = f.instants := by
    refine (map_congr_left fun instant hmem => ?_).trans (map_id _)
    cases instant with
    | none => rfl
    | some t => exact congrArg some (saturate64_eq (h t (mem_filterMap.mpr ⟨some t, hmem, rfl⟩)))
  rw [eventTimes, ← hread, ← f.reads, filterMap_map]
  rfl

theorem dateBinCounts_eq {files : List StoredFile} (h : ∀ f ∈ files, ∀ t ∈ f.instants.filterMap id, InI64 t) :
    dateBinCounts interval origin shard w files =
      referenceHistogram interval origin shard w (files.map StoredFile.toDataFile) := by
  rw [dateBinCounts, referenceHistogram, eventTimes_filter_within, filter_map, flatMap_map, eventTimes, filterMap_flatMap,
    filterMap_flatMap]
  congr 3
  refine flatMap_congr fun f hf => ?_
  exact (eventTimes_stored (h f (mem_filter.mp hf).1)).symm

/-- The instants, and the buckets computed for them, are in the 64-bit range; and an aggregate whose total is the record count
counts the rows' event times. -/
structure Readable (agg : Option TimeBucketCounts) (interval origin : Int) (files : List StoredFile) : Prop where
  instants : ∀ f ∈ files, ∀ t ∈ f.instants.filterMap id, InI64 t
  fits : ∀ f ∈ files, f.Fits interval origin
  aggregate : ∀ a ∈ agg, a.buckets.total = ((files.map StoredFile.toDataFile).flatMap DataFile.rows).length →
    a.Counts ((files.map StoredFile.toDataFile).flatMap DataFile.rows) ∧
      ∀ f ∈ files, ∀ t ∈ eventTimes f.rows, Bucket.Fits 0 a.widthNs t

def bare (timestamp : Option Int) : Row := ⟨timestamp, fun _ => none⟩

def twoMinuteFile : StoredFile where
  toDataFile := .ofRows "a.parquet".toList [bare (some 5), bare (some 60000000005)] (some 5) (some 60000000005)
    ⟨by simp [bare], by simp [bare]⟩ (by simp [bare])
  instants := [some 5, some 60000000005]
  reads := by decide

def halfTimedFile : StoredFile where
  toDataFile := .ofRows "b.parquet".toList [bare (some 5), bare none] (some 5) (some 5) ⟨by simp [bare], by simp [bare]⟩
    (by simp [bare])
  instants := [some 5, none]
  reads := by decide

/-- A row at the end of the year 9999, which nanoseconds in 64 bits do not reach. -/
def farFile : StoredFile where
  toDataFile := .ofRows "c.parquet".toList [bare (some 9223372036854775807)] none none ⟨nofun, nofun⟩ nofun
  instants := [some 253402214400000000000]
  reads := by decide

end LogLake.Tier2
