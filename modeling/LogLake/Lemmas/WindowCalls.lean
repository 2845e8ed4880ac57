import LogLake.Lemmas.Windowed
import LogLake.Tier2.Calls

/-! # What coherent calls keep -/

namespace LogLake.Tier2

open List Bucket
open Option (mem_some not_mem_none ite_none_right_eq_some)

def Timed (files : List DataFile) : Prop := ∀ f ∈ files, f.untimed = []

/-! ## The parts of a window -/

section Parts

variable {lo mid hi width : Int}

/-- In the 64-bit range nothing wraps: the first bucket start at or after `lo`. -/
theorem Aligned.loCore_eq (h : Aligned width lo hi) :
    loCore width lo = if lo / width * width = lo then lo else lo / width * width + width := by
  simp only [loCore, wrap64_eq h.1]
  split
  · rfl
  · next hne => exact wrap64_eq (h.2.1 hne)

theorem Aligned.hiCore_eq (h : Aligned width lo hi) : hiCore width hi = hi / width * width := wrap64_eq h.2.2

theorem Aligned.le_loCore (h : Aligned width lo hi) (hwidth : 0 < width) : lo ≤ loCore width lo := by
  have hle := Int.lt_ediv_add_one_mul_self lo hwidth
  rw [Int.add_mul, Int.one_mul] at hle
  rw [h.loCore_eq]
  split <;> omega

theorem Aligned.hiCore_le (h : Aligned width lo hi) (hwidth : 0 < width) : hiCore width hi ≤ hi := by
  rw [h.hiCore_eq]
  exact Int.ediv_mul_le hi hwidth.ne'

theorem Aligned.dvd_hiCore (h : Aligned width lo hi) : width ∣ hiCore width hi := by
  rw [h.hiCore_eq]
  exact Int.dvd_mul_left _ _

theorem Aligned.dvd_loCore (h : Aligned width lo hi) : width ∣ loCore width lo := by
  have hdvd : width ∣ lo / width * width := Int.dvd_mul_left _ _
  rw [h.loCore_eq]
  split
  · next h => exact h ▸ hdvd
  · exact Int.dvd_add hdvd (Int.dvd_refl width)

/-- An instant of the window lies in exactly one of core and slices. -/
theorem countP_parts {σ α : Type} (m : Measure σ α) (agg : σ) (hwidth : 0 < m.width agg)
    (haligned : Aligned (m.width agg) lo hi) (t : Int) :
    ((if hiCore (m.width agg) hi ≤ loCore (m.width agg) lo then []
      else [(loCore (m.width agg) lo, hiCore (m.width agg) hi)]) ++ (plan m agg lo hi).2).countP
        (fun part => part.1 ≤ t ∧ t < part.2) = if lo ≤ t ∧ t < hi then 1 else 0 := by
  have hlo : lo ≤ loCore (m.width agg) lo := haligned.le_loCore hwidth
  have hhi : hiCore (m.width agg) hi ≤ hi := haligned.hiCore_le hwidth
  unfold plan
  generalize loCore (m.width agg) lo = a at hlo ⊢
  generalize hiCore (m.width agg) hi = b at hhi ⊢
  split
  · simp [countP_cons]
  · split <;> split <;> simp only [countP_cons, countP_append, countP_nil, decide_eq_true_eq] <;>
      split_ifs <;> omega

theorem within_span_iff {r : Row} : r.Within (span lo hi) ↔ ∃ t ∈ r.timestamp, lo ≤ t ∧ t < hi := by
  simp [Row.Within, span, Window.Holds]

theorem filter_within_span_perm (hle : lo ≤ mid) (hle' : mid ≤ hi) (rows : List Row) :
    (rows.filter fun r => r.Within (span lo hi)).Perm
      ((rows.filter fun r => r.Within (span lo mid)) ++ rows.filter fun r => r.Within (span mid hi)) := by
  have hleft : (rows.filter fun r => r.Within (span lo mid)) =
      (rows.filter fun r => r.Within (span lo hi)).filter fun r => r.Within (span lo mid) := by
    rw [filter_filter]
    refine filter_congr fun r _ => ?_
    rw [← Bool.decide_and, decide_eq_decide, within_span_iff, within_span_iff]
    constructor
    · rintro ⟨t, ht, hlo, hmid⟩
      exact ⟨⟨t, ht, hlo, hmid⟩, t, ht, hlo, by omega⟩
    · exact fun h => h.1
  have hright : (rows.filter fun r => r.Within (span mid hi)) =
      (rows.filter fun r => r.Within (span lo hi)).filter fun r => !decide (r.Within (span lo mid)) := by
    rw [filter_filter]
    refine filter_congr fun r _ => ?_
    rw [← decide_not, ← Bool.decide_and, decide_eq_decide, within_span_iff, within_span_iff, within_span_iff]
    constructor
    · rintro ⟨t, ht, hmid, hhi⟩
      refine ⟨?_, t, ht, by omega, hhi⟩
      rintro ⟨t', ht', -, hlt⟩
      obtain rfl := Option.mem_unique ht ht'
      omega
    · rintro ⟨hnot, t, ht, hlo, hhi⟩
      exact ⟨t, ht, not_lt.mp fun hlt => hnot ⟨t, ht, hlo, hlt⟩, hhi⟩
  rw [hleft, hright]
  exact (filter_append_perm _ _).symm

end Parts

section Calls

variable {σ α : Type} {m : Measure σ α} {count : List Row → α}

def countIn (count : List Row → α) (files : List DataFile) (lo hi : Int) : α :=
  count ((rowsIn files).filter fun r => r.Within (span lo hi))

/-- The count of a window, once the slices are answered. -/
def completed (m : Measure σ α) (count : List Row → α) (files : List DataFile) (acc : α) (slices : List (Int × Int)) : α :=
  slices.foldl (fun acc slice => m.add acc (countIn count files slice.1 slice.2)) acc

/-- A way of counting by parts agrees with a count of rows. -/
structure Measure.Lawful (m : Measure σ α) (count : List Row → α) : Prop where
  zero : m.zero = count []
  add : ∀ rows rows', m.add (count rows) (count rows') = count (rows ++ rows')
  perm : ∀ rows rows', rows.Perm rows' → count rows = count rows'
  width_pos : ∀ a rows, m.Counts a rows → 0 < m.width a
  total : ∀ a rows, m.Counts a rows → m.total a = (eventTimes rows).length
  core : ∀ a rows lo hi, m.Counts a rows → m.core a lo hi =
    count (rows.filter fun r => decide (∃ t ∈ r.timestamp, (span lo hi).Holds (start 0 (m.width a) t)))
  coarse : ∀ a files width lo hi v, m.Fits width files → (m.total a = (rowsIn files).length → m.Counts a (rowsIn files)) →
    m.coarse a (rowsIn files).length width lo hi = some v → v = countIn count files lo hi
  perFile : ∀ files width lo hi v, m.Fits width files → Timed files → m.perFile width files lo hi = some v →
    v = countIn count files lo hi

namespace Measure.Lawful

variable {files : List DataFile}

section

variable (hm : m.Lawful count)
include hm

theorem core_eq {a : σ} (ha : m.Counts a (rowsIn files)) {lo hi : Int}
    (hlo : m.width a ∣ lo) (hhi : m.width a ∣ hi) : m.core a lo hi = countIn count files lo hi := by
  have hwidth := hm.width_pos a _ ha
  rw [hm.core a _ lo hi ha, countIn]
  congr 1
  refine filter_congr fun r _ => decide_eq_decide.mpr ?_
  have hstart : ∀ t, (span lo hi).Holds (start 0 (m.width a) t) ↔ (span lo hi).Holds t := by
    intro t
    have hlo' : lo ≤ start 0 (m.width a) t ↔ lo ≤ t := le_start_iff hwidth (by simpa using hlo)
    have hhi' : hi ≤ start 0 (m.width a) t ↔ hi ≤ t := le_start_iff hwidth (by simpa using hhi)
    simp only [span, Window.Holds, Option.mem_def, Option.some.injEq, forall_eq', hlo', ← not_le, hhi']
  simp only [hstart, Row.Within]

theorem countIn_split {lo mid hi : Int} (hle : lo ≤ mid) (hle' : mid ≤ hi) (files : List DataFile) :
    m.add (countIn count files lo mid) (countIn count files mid hi) = countIn count files lo hi := by
  rw [countIn, countIn, hm.add]
  exact (hm.perm _ _ (filter_within_span_perm hle hle' (rowsIn files))).symm

theorem add_comm_countIn (files : List DataFile) (a b c d : Int) :
    m.add (countIn count files a b) (countIn count files c d) = m.add (countIn count files c d) (countIn count files a b) := by
  rw [countIn, countIn, hm.add, hm.add]
  exact hm.perm _ _ perm_append_comm

theorem countIn_empty (files : List DataFile) {lo hi : Int} (h : hi ≤ lo) : m.zero = countIn count files lo hi := by
  rw [hm.zero, countIn]
  congr 1
  refine (filter_eq_nil_iff.mpr fun r _ => ?_).symm
  rw [decide_eq_true_eq, within_span_iff]
  rintro ⟨t, -, hlo, hhi⟩
  omega

theorem zero_add (rows : List Row) : m.add m.zero (count rows) = count rows := by
  rw [hm.zero, hm.add, nil_append]

/-- The core and the slices together count the window. -/
theorem completed_plan {a : σ} (ha : m.Counts a (rowsIn files)) {lo hi : Int} (haligned : Aligned (m.width a) lo hi) :
    completed m count files (plan m a lo hi).1 (plan m a lo hi).2 = countIn count files lo hi := by
  have hwidth := hm.width_pos a _ ha
  have hlo : lo ≤ loCore (m.width a) lo := haligned.le_loCore hwidth
  have hhi : hiCore (m.width a) hi ≤ hi := haligned.hiCore_le hwidth
  unfold plan
  split
  · exact hm.zero_add _
  next hcore =>
  rw [not_le] at hcore
  dsimp only
  rw [hm.core_eq ha haligned.dvd_loCore haligned.dvd_hiCore]
  -- the part up to the last whole bucket, with the left slice or without
  have hleft : completed m count files (countIn count files (loCore (m.width a) lo) (hiCore (m.width a) hi))
      (if lo < loCore (m.width a) lo then [(lo, loCore (m.width a) lo)] else []) =
      countIn count files lo (hiCore (m.width a) hi) := by
    split
    · rw [completed, foldl_cons, foldl_nil, hm.add_comm_countIn, hm.countIn_split hlo hcore.le]
    · next heq => rw [completed, foldl_nil, ← le_antisymm hlo (not_lt.mp heq)]
  rw [completed, foldl_append]
  rw [completed] at hleft
  rw [hleft]
  split
  · rw [foldl_cons, foldl_nil, hm.countIn_split (hlo.trans hcore.le) hhi]
  · next heq => rw [foldl_nil, le_antisymm hhi (not_lt.mp heq)]

theorem timed {a : σ} (ha : m.Counts a (rowsIn files)) (htotal : m.total a = (rowsIn files).length) : Timed files := by
  intro f hf
  have hlength := hm.total a _ ha
  have hsum := length_eventTimes_add_nulls (rowsIn files)
  have hnone : ((rowsIn files).map Row.timestamp).count none = 0 := by omega
  exact untimed_eq_nil_of_mem hnone hf

end

end Measure.Lawful

/-! ## What is kept -/

variable (m count)

/-- What a windowed count has added up and what is left make up its window, in the snapshot it has found first. -/
def JobOk (s : WindowState α) (job : Job α) : Prop :=
  job.glued = true → job.base < s.snapshots.length ∧ Timed (s.files job.base) ∧
    completed m count (s.files job.base) job.acc job.slices = countIn count (s.files job.base) job.lo job.hi

/-- Where a call stands, with everything it holds taken from one snapshot. -/
def PhaseOk (s : WindowState α) : Phase α → Prop
  | .idle => True
  | .cutting job => JobOk m count s job
  | .missed job keyed => JobOk m count s job ∧ keyed < s.snapshots.length ∧ (job.glued = true → keyed = job.base)
  | .listed job keyed source =>
    JobOk m count s job ∧ keyed < s.snapshots.length ∧ (job.glued = true → keyed = job.base) ∧ source = keyed
  | .done job answer => job.glued = true → job.base < s.snapshots.length ∧
    ∀ v ∈ answer, v = countIn count (s.files job.base) job.lo job.hi

/-- What is kept under a snapshot is the snapshot's. -/
structure Kept (s : WindowState α) : Prop where
  nonempty : 0 < s.snapshots.length
  entry : ∀ i ∈ s.entry, i < s.snapshots.length
  lists : ∀ e ∈ s.lists, e.2 = e.1
  results : ∀ e ∈ s.results, e.1.1 < s.snapshots.length ∧
    (Timed (s.files e.1.1) → e.2 = countIn count (s.files e.1.1) e.1.2.2.1 e.1.2.2.2)

structure CallsOk (s : WindowState α) : Prop extends Kept count s where
  calls : ∀ p ∈ s.calls, PhaseOk m count s p

variable {m count} {s s' : WindowState α}

theorem Kept.lookup_lt (h : Kept count s) : s.lookup < s.snapshots.length := by
  unfold WindowState.lookup
  cases hentry : s.entry with
  | none =>
    have hpos := h.nonempty
    simp only [Option.getD_none, WindowState.current]
    omega
  | some i => exact h.entry i hentry

theorem PhaseOk.of_snapshots (h : s'.snapshots = s.snapshots) {p : Phase α} (hp : PhaseOk m count s p) :
    PhaseOk m count s' p := by
  have hfiles : s'.files = s.files := by
    funext i
    rw [WindowState.files, WindowState.files, h]
  cases p <;> simp only [PhaseOk, JobOk, h, hfiles] at hp ⊢ <;> exact hp

theorem files_append {files : List DataFile} {i : Nat} (h : i < s.snapshots.length) :
    WindowState.files { s with snapshots := s.snapshots ++ [files] } i = s.files i := by
  simp only [WindowState.files, getD_eq_getElem?_getD]
  rw [List.getElem?_append_left h]

theorem PhaseOk.commit {p : Phase α} (h : PhaseOk m count s p) (files : List DataFile) :
    PhaseOk m count { s with snapshots := s.snapshots ++ [files] } p := by
  have hgrow : ∀ i, i < s.snapshots.length → i < (s.snapshots ++ [files]).length := by
    intro i hi
    rw [length_append]
    omega
  have hjob : ∀ job, JobOk m count s job → JobOk m count { s with snapshots := s.snapshots ++ [files] } job := by
    intro job hok hglued
    obtain ⟨hlt, htimed, hsum⟩ := hok hglued
    rw [files_append hlt]
    exact ⟨hgrow _ hlt, htimed, hsum⟩
  cases p with
  | idle => exact trivial
  | cutting job => exact hjob job h
  | missed job keyed | listed job keyed source => exact ⟨hjob job h.1, hgrow _ h.2.1, h.2.2⟩
  | done job answer =>
    intro hglued
    obtain ⟨hlt, hanswer⟩ := h hglued
    rw [files_append hlt]
    exact ⟨hgrow _ hlt, hanswer⟩

theorem CallsOk.commit (h : CallsOk m count s) (files : List DataFile) :
    CallsOk m count { s with snapshots := s.snapshots ++ [files] } := by
  have hgrow : ∀ i, i < s.snapshots.length → i < (s.snapshots ++ [files]).length := by
    intro i hi
    rw [length_append]
    omega
  refine ⟨⟨hgrow 0 h.nonempty, fun i hi => hgrow i (h.entry i hi), h.lists, fun e he => ?_⟩,
    fun p hp => (h.calls p hp).commit files⟩
  obtain ⟨hlt, hresult⟩ := h.results e he
  rw [files_append hlt]
  exact ⟨hgrow _ hlt, hresult⟩

theorem CallsOk.of_kept (h : CallsOk m count s) (hsnapshots : s'.snapshots = s.snapshots) (hkept : Kept count s')
    (hcalls : ∀ p ∈ s'.calls, p ∈ s.calls ∨ PhaseOk m count s p) : CallsOk m count s' :=
  { hkept with
    calls := fun p hp => ((hcalls p hp).elim (h.calls p) id).of_snapshots hsnapshots }

theorem Kept.looked (h : Kept count s) : Kept count s.looked :=
  { nonempty := h.nonempty
    entry := fun i hi => by
      obtain rfl := mem_some.mp hi
      exact h.lookup_lt
    lists := h.lists
    results := h.results }

variable {v : α}

theorem Kept.keepResult (h : Kept count s) {keyed : Nat} {width lo hi : Int}
    (hkeyed : keyed < s.snapshots.length) (hv : Timed (s.files keyed) → v = countIn count (s.files keyed) lo hi) :
    Kept count { s with results := ((keyed, width, lo, hi), v) :: s.results } :=
  { nonempty := h.nonempty
    entry := h.entry
    lists := h.lists
    results := fun e he => by
      rcases mem_cons.mp he with rfl | he
      · exact ⟨hkeyed, hv⟩
      · exact h.results e he }

theorem Kept.of_lookup_results (h : Kept count s) {keyed : Nat} {width lo hi : Int}
    (hfound : s.results.lookup (keyed, width, lo, hi) = some v) :
    Timed (s.files keyed) → v = countIn count (s.files keyed) lo hi :=
  (h.results _ (AssocList.lookup_mem hfound)).2

theorem JobOk.answered {job : Job α} (h : JobOk m count s job) {a b : Int} {rest : List (Int × Int)}
    (hslices : job.slices = (a, b) :: rest)
    (hv : job.glued = true → Timed (s.files job.base) → v = countIn count (s.files job.base) a b) :
    PhaseOk m count s (job.answered m v rest) := by
  intro hglued
  obtain ⟨hlt, htimed, hsum⟩ := h hglued
  refine ⟨hlt, htimed, ?_⟩
  rw [hv hglued htimed, ← hsum, hslices]
  rfl

/-! ## The steps of a call -/

variable {p q : Phase α} {t : WindowState α}

/-- What a step of a call has to keep. -/
def Keeps (m : Measure σ α) (count : List Row → α) (s t : WindowState α) (q : Phase α) : Prop :=
  t.snapshots = s.snapshots ∧ Kept count t ∧ PhaseOk m count s q

/-- A count that begins will count its window in the snapshot it found. -/
theorem beginCount_ok (hm : m.Lawful count) {base : Nat} (hbase : base < s.snapshots.length) {agg : Option σ}
    (hagg : Offered m agg (s.files base)) {lo hi : Int} (haligned : ∀ a ∈ agg, Aligned (m.width a) lo hi) :
    PhaseOk m count s (beginCount m base (s.files base) lo hi agg) := by
  unfold beginCount
  split
  · next hempty => exact fun _ => ⟨hbase, fun v hv => mem_some.mp hv ▸ hm.countIn_empty _ hempty⟩
  cases agg with
  | none => exact fun _ => ⟨hbase, fun v hv => (not_mem_none v hv).elim⟩
  | some a =>
    dsimp only
    split
    · exact fun _ => ⟨hbase, fun v hv => (not_mem_none v hv).elim⟩
    · next htotal =>
      rw [not_not] at htotal
      have hcounts := hagg a rfl htotal
      exact fun _ => ⟨hbase, hm.timed hcounts htotal, hm.completed_plan hcounts (haligned a rfl)⟩

/-- A look keeps every call on one snapshot. -/
theorem lookStep_keeps (hm : m.Lawful count) (hs : Kept count s) {agg : Option σ} (hagg : Offered m agg (s.files s.lookup))
    (hp : PhaseOk m count s p) (hfinds : p.FindsBase s) (hfits : p.FitsNext m s) (h : lookStep m s agg p = some (t, q)) :
    Keeps m count s t q := by
  cases p with
  | cutting job =>
    simp only [lookStep] at h
    split at h
    · cases h
    next a b rest hslices =>
    split at h
    · next v hfound =>
      cases h
      refine ⟨rfl, hs.looked, JobOk.answered hp hslices fun hglued htimed => ?_⟩
      rw [← hfinds hglued] at htimed ⊢
      exact hs.of_lookup_results hfound htimed
    split at h
    · next v hcoarse =>
      cases h
      obtain ⟨a', ha', hv⟩ := Option.bind_eq_some_iff.mp hcoarse
      have hcount := hm.coarse a' (s.files s.lookup) job.width a b v hfits (hagg a' ha') hv
      refine ⟨rfl, Kept.keepResult hs.looked hs.lookup_lt fun _ => hcount, JobOk.answered hp hslices fun hglued _ => ?_⟩
      rw [← hfinds hglued]
      exact hcount
    · cases h
      exact ⟨rfl, hs.looked, hp, hs.lookup_lt, hfinds⟩
  | idle | missed job keyed | listed job keyed source | done job answer => cases h

/-- Listing the live files keeps every call on one snapshot. -/
theorem listStep_keeps (hs : Kept count s) (hp : PhaseOk m count s p) (hfinds : p.FindsKeyed s)
    (h : listStep s p = some (t, q)) : Keeps m count s t q := by
  cases p with
  | missed job keyed =>
    obtain ⟨hkeyed, hcurrent⟩ := hfinds
    simp only [listStep] at h
    split at h
    · next source hfound =>
      cases h
      have hsource : source = s.lookup := hs.lists _ (AssocList.lookup_mem hfound)
      exact ⟨rfl, hs.looked, hp.1, hp.2.1, hp.2.2, hsource.trans hkeyed⟩
    · next hmissing =>
      cases h
      refine ⟨rfl, ?_, hp.1, hp.2.1, hp.2.2, (hcurrent hmissing).trans hkeyed⟩
      refine { hs.looked with lists := fun e he => ?_ }
      rcases mem_cons.mp he with rfl | he
      · exact hcurrent hmissing
      · exact hs.lists e he
  | idle | cutting job | listed job keyed source | done job answer => cases h

/-- A scan counts its slice in the snapshot of the call. -/
theorem scanStep_keeps (hm : m.Lawful count) (hs : Kept count s) (hp : PhaseOk m count s p) (hfits : p.FitsNext m s)
    (h : scanStep m s p = some (t, q)) : Keeps m count s t q := by
  cases p with
  | listed job keyed source =>
    obtain ⟨hjob, hlt, hbase, rfl⟩ := hp
    simp only [scanStep] at h
    split at h
    · cases h
    next a b rest hslices =>
    split at h
    · cases h
      exact ⟨rfl, hs, fun hglued => ⟨(hjob hglued).1, fun v hv => (not_mem_none v hv).elim⟩⟩
    · next v hv =>
      cases h
      have hcount := hm.perFile (s.files source) job.width a b v hfits
      refine ⟨rfl, Kept.keepResult hs hlt fun htimed => hcount htimed hv, JobOk.answered hjob hslices fun hglued htimed => ?_⟩
      rw [← hbase hglued] at htimed ⊢
      exact hcount htimed hv
  | idle | cutting job | missed job keyed | done job answer => cases h

theorem finishStep_keeps (hs : Kept count s) (hp : PhaseOk m count s p) (h : finishStep s p = some (t, q)) :
    Keeps m count s t q := by
  cases p with
  | cutting job =>
    obtain ⟨hslices, h⟩ := ite_none_right_eq_some.mp h
    cases h
    refine ⟨rfl, hs, fun hglued => ?_⟩
    obtain ⟨hlt, -, hsum⟩ := hp hglued
    refine ⟨hlt, fun v hv => ?_⟩
    obtain rfl := mem_some.mp hv
    rw [← hsum, hslices]
    rfl
  | idle | missed job keyed | listed job keyed source | done job answer => cases h

theorem onCall_ok (hs : CallsOk m count s) {c : Nat} {f : Phase α → Option (WindowState α × Phase α)}
    (hf : ∀ p ∈ s.calls[c]?, PhaseOk m count s p → ∀ t q, f p = some (t, q) → Keeps m count s t q)
    (h : onCall s c f = some s') : CallsOk m count s' := by
  obtain ⟨p, hp, hnext⟩ := Option.bind_eq_some_iff.mp h
  obtain ⟨next, hfp, rfl⟩ := Option.map_eq_some_iff.mp hnext
  obtain ⟨hsnapshots, hkept, hq⟩ := hf p hp (hs.calls p (mem_of_getElem? hp)) next.1 next.2 hfp
  refine hs.of_kept hsnapshots { hkept with } fun p' hp' => ?_
  rcases mem_or_eq_of_mem_set hp' with hmem | rfl
  · exact .inl hmem
  · exact .inr hq

/-- Every step that meets the condition keeps every call on one snapshot. -/
theorem windowStep_ok (hm : m.Lawful count) {a : WindowAction σ} (hs : CallsOk m count s) (hok : Coherent m s a)
    (h : windowStep m s a = some s') : CallsOk m count s' := by
  cases a with
  | commit files =>
    cases h
    exact hs.commit files
  | refresh i =>
    obtain ⟨hi, h⟩ := ite_none_right_eq_some.mp h
    cases h
    refine hs.of_kept rfl { hs.toKept with entry := fun j hj => ?_ } fun p hp => .inl hp
    obtain rfl := mem_some.mp hj
    exact hi
  | invalidate =>
    cases h
    exact hs.of_kept rfl
      ⟨hs.nonempty, fun i hi => (not_mem_none i hi).elim, fun e he => (not_mem_nil he).elim,
        fun e he => (not_mem_nil he).elim⟩ fun p hp => .inl hp
  | dropList i =>
    cases h
    exact hs.of_kept rfl { hs.toKept with lists := fun e he => hs.lists e (mem_filter.mp he).1 } fun p hp => .inl hp
  | dropResults i =>
    cases h
    exact hs.of_kept rfl { hs.toKept with results := fun e he => hs.results e (mem_filter.mp he).1 }
      fun p hp => .inl hp
  | count lo hi agg =>
    cases h
    have hcalls : ∀ p ∈ s.calls ++ [beginCount m s.lookup (s.files s.lookup) lo hi agg],
        p ∈ s.calls ∨ PhaseOk m count s p := by
      intro p hp
      rcases mem_append.mp hp with hp | hp
      · exact .inl hp
      · rw [mem_singleton.mp hp]
        exact .inr (beginCount_ok hm hs.lookup_lt hok.1 hok.2)
    split
    · exact hs.of_kept rfl { hs.toKept with } hcalls
    · exact hs.of_kept rfl { hs.looked with } hcalls
  | range width lo hi =>
    cases h
    refine hs.of_kept rfl { hs.toKept with } fun p hp => ?_
    rcases mem_append.mp hp with hp | hp
    · exact .inl hp
    · rw [mem_singleton.mp hp]
      exact .inr fun hglued => absurd hglued Bool.false_ne_true
  | look c agg =>
    exact onCall_ok hs
      (fun p hp hphase t q => lookStep_keeps hm hs.toKept hok.1 hphase (hok.2 p hp).1 (hok.2 p hp).2) h
  | list c => exact onCall_ok hs (fun p hp hphase t q => listStep_keeps hs.toKept hphase (hok p hp)) h
  | scan c => exact onCall_ok hs (fun p hp hphase t q => scanStep_keeps hm hs.toKept hphase (hok p hp)) h
  | finish c => exact onCall_ok hs (fun p _ hphase t q => finishStep_keeps hs.toKept hphase) h

theorem callsOk_start (first : List DataFile) : CallsOk m count (WindowState.start first) :=
  { nonempty := Nat.one_pos
    entry := fun i hi => (not_mem_none i hi).elim
    lists := fun _ he => (not_mem_nil he).elim
    results := fun _ he => (not_mem_nil he).elim
    calls := fun _ hp => (not_mem_nil hp).elim }

theorem answer?_eq_some {lo hi : Int} {answer : Option α} (h : p.answer? = some (lo, hi, answer)) :
    ∃ job, p = .done job answer ∧ job.glued = true ∧ job.lo = lo ∧ job.hi = hi := by
  cases p with
  | done job answer' =>
    obtain ⟨hglued, h⟩ := ite_none_right_eq_some.mp h
    cases h
    exact ⟨job, rfl, hglued, rfl, rfl⟩
  | idle | cutting job | missed job keyed | listed job keyed source => cases h

/-- Every answer of a run counts its window in one snapshot. -/
theorem answer_of_run (hm : m.Lawful count) {first : List DataFile} {actions : List (WindowAction σ)}
    (hmeets : Transition.Meets (windowStep m) (Coherent m) (WindowState.start first) actions)
    (hrun : Transition.run (windowStep m) (WindowState.start first) actions = some s) {c : Nat} {lo hi : Int}
    (hanswer : (s.calls[c]?).bind Phase.answer? = some (lo, hi, some v)) :
    ∃ i < s.snapshots.length, v = countIn count (s.files i) lo hi := by
  have hs : CallsOk m count s :=
    Transition.invariant_run (fun _ _ _ hI hok hstep => windowStep_ok hm hI hok hstep) (callsOk_start first) hmeets hrun
  obtain ⟨p, hp, hp'⟩ := Option.bind_eq_some_iff.mp hanswer
  obtain ⟨job, rfl, hglued, rfl, rfl⟩ := answer?_eq_some hp'
  obtain ⟨hlt, hv⟩ := hs.calls _ (mem_of_getElem? hp) hglued
  exact ⟨job.base, hlt, hv v rfl⟩

end Calls

end LogLake.Tier2
