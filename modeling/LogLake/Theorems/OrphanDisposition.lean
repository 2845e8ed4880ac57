import LogLake.Lib.Transition
import LogLake.Wal.Orphans

/-! # Orphans are disposed of by proof -/

namespace LogLake.Disposition

open Option List
open OrphanFile (fileName)
open Transition (run invariant_run)
open World (init)

variable {io : OsName → Bool} {consumed : List Text} {floor : Option Int} {h : TableHistory} {dir : WalDir} {file : OrphanFile}
variable {name : Text}

/-! ## The verdict -/

variable {sealed : List OsName}

theorem verdict_eq_delete :
    verdict consumed floor sealed file = .delete ↔ ∃ name, file.fileName.toStr = some name ∧ name ∈ consumed := by
  unfold verdict
  cases file.fileName.toStr with
  | none => simp
  | some name => by_cases hname : name ∈ consumed <;> simp only [hname, if_true, if_false] <;> (repeat' split) <;> simp_all

theorem verdict_eq_requeue : verdict consumed floor sealed file = .requeue ↔
      ∃ name, file.fileName.toStr = some name ∧ name ∉ consumed ∧ covered floor file.modified = true ∧
        file.fileName ∉ sealed := by
  unfold verdict
  cases file.fileName.toStr with
  | none => simp
  | some name => by_cases hname : name ∈ consumed <;> simp only [hname, if_true, if_false] <;> (repeat' split) <;> simp_all

theorem verdict_congr {sealed' : List OsName} (hiff : file.fileName ∈ sealed ↔ file.fileName ∈ sealed') :
    verdict consumed floor sealed file = verdict consumed floor sealed' file := by
  unfold verdict
  simp only [hiff]

/-! ## The sweep -/

theorem classifyOrphans_spec (io : OsName → Bool) (consumed : List Text) (floor : Option Int) {listing : List OrphanFile}
    (hnames : (listing.map fileName).Nodup) (s : Sweep) :
    ∃ done rest, listing = done ++ rest ∧ ((∀ n, io n = true) → rest = []) ∧
      (classifyOrphans io consumed floor listing s).1 =
        { dir := {
            orphans := s.dir.orphans.diff (done.filter fun f => verdict consumed floor s.dir.sealed f ≠ .hold)
            sealed := ((done.filter fun f => verdict consumed floor s.dir.sealed f = .requeue).map
              fileName).reverse ++ s.dir.sealed }
          disposed := {
            deleted := s.disposed.deleted ++ done.filter fun f => verdict consumed floor s.dir.sealed f = .delete
            requeued := s.disposed.requeued ++ done.filter fun f => verdict consumed floor s.dir.sealed f = .requeue } } := by
  induction listing generalizing s with
  | nil => exact ⟨[], [], rfl, fun _ => rfl, by simp [classifyOrphans]⟩
  | cons f rest ih =>
    rw [map_cons, nodup_cons] at hnames
    obtain ⟨hnew, hnames⟩ := hnames
    by_cases hgo : verdict consumed floor s.dir.sealed f = .hold ∨ io f.fileName
    · obtain ⟨done, left, hrest, hall, hresult⟩ := ih hnames (s.apply f (verdict consumed floor s.dir.sealed f))
      refine ⟨f :: done, left, by rw [hrest, cons_append], hall, ?_⟩
      rw [classifyOrphans, if_pos hgo, hresult]
      -- the names that have gone into sealed/ are none of those still to come
      have hsame : ∀ g ∈ done, verdict consumed floor (s.apply f (verdict consumed floor s.dir.sealed f)).dir.sealed g =
          verdict consumed floor s.dir.sealed g := by
        intro g hg
        refine verdict_congr ?_
        have hne : g.fileName ≠ f.fileName := fun heq =>
          hnew (List.mem_map.mpr ⟨g, hrest ▸ mem_append_left _ hg, heq⟩)
        cases verdict consumed floor s.dir.sealed f <;> simp [Sweep.apply, hne]
      have hfilter : ∀ p : Verdict → Bool,
          (done.filter fun g => p (verdict consumed floor (s.apply f (verdict consumed floor s.dir.sealed f)).dir.sealed g)) =
            done.filter fun g => p (verdict consumed floor s.dir.sealed g) :=
        fun p => filter_congr fun g hg => by rw [hsame g hg]
      rw [hfilter fun v => v ≠ .hold, hfilter fun v => v = .requeue, hfilter fun v => v = .delete]
      cases hv : verdict consumed floor s.dir.sealed f <;> simp [Sweep.apply, hv]
    · refine ⟨[], f :: rest, rfl, fun hio => absurd (.inr (hio f.fileName)) hgo, ?_⟩
      rw [classifyOrphans, if_neg hgo]
      simp

theorem disposeOrphansAt_spec (io : OsName → Bool) (snapshots : List TableSnapshot)
    (hnames : (dir.orphans.map fileName).Nodup) {d} (hd : disposeOrphansAt io snapshots dir = d) :
    ∃ done rest, dir.orphans = done ++ rest ∧ ((∀ n, io n = true) → rest = []) ∧
      d.disposed.deleted = done.filter (fun f => verdictAt snapshots dir f = .delete) ∧
      d.disposed.requeued = done.filter (fun f => verdictAt snapshots dir f = .requeue) ∧
      d.dir.orphans = dir.orphans.diff (done.filter fun f => verdictAt snapshots dir f ≠ .hold) ∧
      d.dir.sealed = (d.disposed.requeued.map fileName).reverse ++ dir.sealed := by
  subst hd
  unfold disposeOrphansAt
  by_cases hempty : dir.orphans.isEmpty
  · rw [if_pos hempty]
    rw [List.isEmpty_iff] at hempty
    exact ⟨[], [], by simp [hempty], fun _ => rfl, by simp [hempty]⟩
  · rw [if_neg hempty]
    obtain ⟨done, rest, hsplit, hall, hresult⟩ := classifyOrphans_spec io (cumulativeConsumedSegments snapshots)
      (snapshots.map TableSnapshot.timestampMs).min? hnames ⟨dir, ⟨[], []⟩⟩
    refine ⟨done, rest, hsplit, hall, ?_⟩
    simp only [consumedSegmentsAndHistoryFloor, hresult, nil_append]
    exact ⟨rfl, rfl, rfl, trivial⟩

/-! ## The history -/

theorem mem_cumulativeConsumedSegments {snapshots : List TableSnapshot} :
    name ∈ cumulativeConsumedSegments snapshots ↔ ∃ s ∈ snapshots, name ∈ cumulativeConsumedSegments [s] := by
  simp only [cumulativeConsumedSegments, mem_flatMap, mem_filterMap, mem_singleton]
  constructor
  · rintro ⟨v, ⟨s, hs, hv⟩, hname⟩
    exact ⟨s, hs, v, ⟨s, rfl, hv⟩, hname⟩
  · rintro ⟨s, hs, v, ⟨s', rfl, hv⟩, hname⟩
    exact ⟨v, ⟨s', hs, hv⟩, hname⟩

namespace TableHistory

theorem past_append_kept (h : TableHistory) : h.past ++ h.kept = h.commits := List.take_append_drop ..

variable {c : Commit}

theorem mem_commits : c ∈ h.commits ↔ c ∈ h.past ∨ c ∈ h.kept := by
  rw [← past_append_kept h, mem_append]

theorem Sound.mem_consumed (hh : h.Sound) : name ∈ cumulativeConsumedSegments h.retained ↔ ∃ c ∈ h.kept, name ∈ c.segments := by
  rw [mem_cumulativeConsumedSegments, retained]
  constructor
  · rintro ⟨s, hs, hname⟩
    obtain ⟨c, hc, rfl⟩ := List.mem_map.mp hs
    exact ⟨c, hc, (hh.records c (mem_commits.mpr (.inr hc)) name).mp hname⟩
  · rintro ⟨c, hc, hname⟩
    exact ⟨c.snapshot, List.mem_map.mpr ⟨c, hc, rfl⟩, (hh.records c (mem_commits.mpr (.inr hc)) name).mpr hname⟩

theorem Sound.floor_eq (hh : h.Sound) :
    (h.retained.map TableSnapshot.timestampMs).min? = h.kept.head?.map fun c => c.snapshot.timestampMs := by
  have hordered : h.kept.Pairwise fun c d => c.snapshot.timestampMs ≤ d.snapshot.timestampMs :=
    hh.ordered.sublist (drop_sublist ..)
  rw [retained, List.map_map]
  cases hkept : h.kept with
  | nil => rfl
  | cons oldest rest =>
    rw [hkept, pairwise_cons] at hordered
    rw [head?_cons, map_some, min?_eq_some_iff]
    refine ⟨mem_cons_self, fun t ht => ?_⟩
    obtain ⟨c, hc, rfl⟩ := List.mem_map.mp ht
    rcases mem_cons.mp hc with rfl | hc
    · exact le_refl _
    · exact hordered.1 c hc

theorem Sound.exists_oldest (hh : h.Sound) (hc : c ∈ h.commits) : ∃ oldest, h.kept.head? = some oldest := by
  have hcurrent := hh.current
  have hpos := length_pos_of_mem hc
  cases hkept : h.kept with
  | nil =>
    have hall := drop_eq_nil_iff.mp hkept
    omega
  | cons oldest rest => exact ⟨oldest, rfl⟩

theorem Sound.past_le_oldest (hh : h.Sound) {oldest : Commit} (hc : c ∈ h.past) (holdest : h.kept.head? = some oldest) :
    c.snapshot.timestampMs ≤ oldest.snapshot.timestampMs := by
  have hordered := hh.ordered
  rw [← past_append_kept h, pairwise_append] at hordered
  exact hordered.2.2 c hc oldest (mem_of_head? holdest)

end TableHistory

/-! ## The margin -/

theorem addI64_margin {floor : Int} (hlo : -2 ^ 63 ≤ floor) (hhi : floor ≤ i64Max - historySkewMarginMs) :
    addI64 floor historySkewMarginMs = floor + historySkewMarginMs := by
  unfold i64Max historySkewMarginMs at *
  unfold addI64
  rw [Int.bmod_eq_of_le (by omega) (by omega)]

theorem addI64_margin_over {floor : Int} (hlo : i64Max - historySkewMarginMs < floor) (hhi : floor ≤ i64Max) :
    addI64 floor historySkewMarginMs = floor + historySkewMarginMs - 2 ^ 64 := by
  unfold i64Max historySkewMarginMs at *
  unfold addI64
  rw [Int.bmod_def]
  split <;> omega

theorem asI64_of_le {millis : Nat} (h : (millis : Int) ≤ i64Max) : asI64 millis = millis := by
  unfold i64Max at h
  unfold asI64
  rw [Int.bmod_eq_of_le (by omega) (by omega)]

theorem asI64_of_lt {millis : Nat} (hlo : i64Max < millis) (hhi : (millis : Int) ≤ i64Max + historySkewMarginMs) :
    asI64 millis = millis - 2 ^ 64 := by
  unfold i64Max historySkewMarginMs at *
  unfold asI64
  rw [Int.bmod_def]
  split <;> omega

theorem covered_iff_of_past (hh : h.Sound) {c oldest : Commit} {sealedAt : Nat} (hc : c ∈ h.past)
    (holdest : h.kept.head? = some oldest) (htime : (sealedAt : Int) ≤ c.snapshot.timestampMs + historySkewMarginMs) :
    covered (some oldest.snapshot.timestampMs) (some sealedAt) = true ↔
      i64Max - historySkewMarginMs < oldest.snapshot.timestampMs ∧ (sealedAt : Int) ≤ i64Max ∨
        c.snapshot.timestampMs = oldest.snapshot.timestampMs ∧
          (sealedAt : Int) = c.snapshot.timestampMs + historySkewMarginMs := by
  have hle := hh.past_le_oldest hc holdest
  have hrange := hh.times oldest (TableHistory.mem_commits.mpr (.inr (mem_of_head? holdest)))
  rw [covered, decide_eq_true_iff]
  by_cases hover : i64Max - historySkewMarginMs < oldest.snapshot.timestampMs
  · rw [addI64_margin_over hover hrange.2]
    by_cases hfits : (sealedAt : Int) ≤ i64Max
    · rw [asI64_of_le hfits]
      unfold i64Max historySkewMarginMs at *
      exact ⟨fun _ => .inl ⟨hover, hfits⟩, fun _ => by omega⟩
    · -- both sides of the comparison wrap
      rw [asI64_of_lt (not_le.mp hfits) (by omega)]
      constructor
      · exact fun hcovered => .inr ⟨by omega, by omega⟩
      · rintro (⟨-, hin⟩ | ⟨heq, hedge⟩)
        · exact absurd hin hfits
        · omega
  · rw [addI64_margin hrange.1 (not_lt.mp hover), asI64_of_le (by omega)]
    constructor
    · exact fun hcovered => .inr ⟨by omega, by omega⟩
    · rintro (⟨hpast, -⟩ | ⟨heq, hedge⟩)
      · exact absurd hpast hover
      · omega

/-! ## Safety -/

theorem committed_iff_onTheEdge (hh : h.Sound) (htime : SealedInTime h dir) (hfile : file ∈ dir.orphans)
    (hverdict : verdictAt h.retained dir file = .requeue) : h.Committed file ↔ OnTheEdge h file := by
  obtain ⟨name, hname, hnot, hcovered, -⟩ := verdict_eq_requeue.mp hverdict
  rw [hh.mem_consumed] at hnot
  constructor
  · rintro ⟨name', hname', c, hc, hconsumed⟩
    obtain rfl : name = name' := some.inj (hname.symm.trans hname')
    have hpast : c ∈ h.past := (TableHistory.mem_commits.mp hc).resolve_right fun hkept => hnot ⟨c, hkept, hconsumed⟩
    obtain ⟨oldest, holdest⟩ := hh.exists_oldest hc
    rw [hh.floor_eq, holdest, map_some] at hcovered
    cases hmodified : file.modified with
    | none =>
      rw [hmodified] at hcovered
      cases hcovered
    | some sealedAt =>
      rw [hmodified] at hcovered
      have hin := htime file hfile name hname c hc hconsumed sealedAt hmodified
      exact ⟨name, sealedAt, hname, hmodified, fun d hd hd' => hnot ⟨d, hd, hd'⟩, c, hpast, hconsumed, oldest, holdest,
        (covered_iff_of_past hh hpast holdest hin).mp hcovered⟩
  · rintro ⟨name', -, hname', -, -, c, hc, hconsumed, -⟩
    exact ⟨name', hname', c, TableHistory.mem_commits.mpr (.inl hc), hconsumed⟩

theorem OnTheEdge.requeued (hedge : OnTheEdge h file) (hh : h.Sound) (htime : SealedInTime h dir) (hfile : file ∈ dir.orphans)
    (hfree : file.fileName ∉ dir.sealed) : verdictAt h.retained dir file = .requeue := by
  obtain ⟨name, sealedAt, hname, hmodified, hkept, c, hc, hconsumed, oldest, holdest, hclose⟩ := hedge
  rw [mem_def] at holdest
  have hcommit : c ∈ h.commits := TableHistory.mem_commits.mpr (.inl hc)
  have hin := htime file hfile name hname c hcommit hconsumed sealedAt hmodified
  refine verdict_eq_requeue.mpr ⟨name, hname, ?_, ?_, hfree⟩
  · rw [hh.mem_consumed]
    rintro ⟨d, hd, hd'⟩
    exact hkept d hd hd'
  · rw [hh.floor_eq, holdest, hmodified]
    exact (covered_iff_of_past hh hc holdest hin).mpr hclose

theorem safe_of_no_edge (hh : h.Sound) (hnames : (dir.orphans.map fileName).Nodup) (htime : SealedInTime h dir)
    (hedge : ∀ file ∈ dir.orphans, file.fileName ∉ dir.sealed → ¬ OnTheEdge h file) (io : OsName → Bool) :
    Safe h dir (disposeOrphansAt io h.retained dir) := by
  obtain ⟨done, rest, hsplit, -, hdeleted, hrequeued, horphans, hsealed⟩ := disposeOrphansAt_spec io h.retained hnames rfl
  have hmem : ∀ f ∈ done, f ∈ dir.orphans := fun f hf => hsplit ▸ mem_append_left _ hf
  constructor
  · intro f hf
    rw [hdeleted, mem_filter, decide_eq_true_iff, verdictAt, verdict_eq_delete] at hf
    obtain ⟨-, name, hname, hconsumed⟩ := hf
    obtain ⟨c, hc, hseg⟩ := hh.mem_consumed.mp hconsumed
    exact ⟨name, hname, c, TableHistory.mem_commits.mpr (.inr hc), hseg⟩
  · intro f hf
    rw [hrequeued, mem_filter, decide_eq_true_iff] at hf
    rw [committed_iff_onTheEdge hh htime (hmem f hf.1) hf.2]
    obtain ⟨-, -, -, -, hfree⟩ := verdict_eq_requeue.mp hf.2
    exact hedge f (hmem f hf.1) hfree
  · intro f hf hnotDeleted hnotRequeued
    rw [horphans]
    refine mem_diff_of_mem hf fun hgone => ?_
    rw [mem_filter, decide_eq_true_iff] at hgone
    rw [hdeleted, mem_filter, decide_eq_true_iff] at hnotDeleted
    rw [hrequeued, mem_filter, decide_eq_true_iff] at hnotRequeued
    cases hv : verdictAt h.retained dir f with
    | delete => exact hnotDeleted ⟨hgone.1, hv⟩
    | requeue => exact hnotRequeued ⟨hgone.1, hv⟩
    | hold => exact hgone.2 hv
  · intro n
    rw [hsealed, mem_append, mem_reverse, List.mem_map, or_comm]

/-! ## Two hosts -/

theorem mem_consumed_of_plain {names : List Text} (hplain : ∀ n ∈ names, n ≠ [] ∧ ',' ∉ n) (ts : Int) :
    name ∈ cumulativeConsumedSegments [⟨ts, consumedProp names⟩] ↔ name ∈ names := by
  unfold cumulativeConsumedSegments consumedProp
  cases names with
  | nil => simp
  | cons first rest =>
    rw [isEmpty_cons, if_neg Bool.false_ne_true]
    simp only [filterMap_cons, filterMap_nil, flatMap_cons, flatMap_nil, append_nil, splitConsumed]
    rw [splitOn_intercalate ',' (fun n hn => (hplain n hn).2) (cons_ne_nil first rest), mem_filter]
    refine ⟨fun hmem => hmem.1, fun hmem => ⟨hmem, ?_⟩⟩
    have hne := (hplain name hmem).1
    simpa using hne

theorem segmentName_plain {ingesterId uuid : Text} (hingester : ',' ∉ ingesterId) (huuid : ',' ∉ uuid) :
    segmentName ingesterId uuid ≠ [] ∧ ',' ∉ segmentName ingesterId uuid := by
  unfold segmentName
  refine ⟨by simp, ?_⟩
  simp only [mem_append, mem_cons, not_or]
  exact ⟨⟨hingester, by decide, huuid⟩, by decide⟩

/-- What every run keeps: names are sealed once, before now, and are plain; commits are of sealed segments, in time, and not later
than the committing clock shows. -/
structure Consistent (clocks : Clocks) (w : World) : Prop where
  before : ∀ e ∈ w.sealedAt, e.2 ≤ w.now
  once : w.names.Nodup
  plain : ∀ n ∈ w.names, n ≠ [] ∧ ',' ∉ n
  known : ∀ c ∈ w.history.commits, ∀ n ∈ c.segments, n ∈ w.names
  inTime : ∀ c ∈ w.history.commits, ∀ n ∈ c.segments, ∀ t, (n, t) ∈ w.sealedAt →
    (clocks.sealing t : Int) ≤ c.snapshot.timestampMs + historySkewMarginMs
  upTo : ∀ c ∈ w.history.commits, c.snapshot.timestampMs ≤ clocks.committing w.now
  sound : w.history.Sound

variable {clocks : Clocks} {w w' : World} {event : Event}

theorem Consistent.init (clocks : Clocks) : Consistent clocks init where
  before := fun _ h => absurd h not_mem_nil
  once := nodup_nil
  plain := fun _ h => absurd h not_mem_nil
  known := fun _ h => absurd h not_mem_nil
  inTime := fun _ h => absurd h not_mem_nil
  upTo := fun _ h => absurd h not_mem_nil
  sound := ⟨fun _ h => absurd h not_mem_nil, List.Pairwise.nil, fun _ h => absurd h not_mem_nil, Nat.zero_le _⟩

theorem TableHistory.Sound.commit {names : List Text} (hh : h.Sound) (hplain : ∀ n ∈ names, n ≠ [] ∧ ',' ∉ n) {ts : Nat}
    (hrange : (ts : Int) ≤ i64Max) (hlatest : ∀ c ∈ h.commits, c.snapshot.timestampMs ≤ ts) :
    TableHistory.Sound { h with commits := h.commits ++ [⟨⟨ts, consumedProp names⟩, names⟩] } where
  records := by
    intro c hc name
    rcases mem_append.mp hc with hc | hc
    · exact hh.records c hc name
    · obtain rfl := mem_singleton.mp hc
      exact mem_consumed_of_plain hplain _
  ordered := by
    refine pairwise_append.mpr ⟨hh.ordered, pairwise_singleton _ _, fun c hc d hd => ?_⟩
    obtain rfl := mem_singleton.mp hd
    exact hlatest c hc
  times := by
    intro c hc
    rcases mem_append.mp hc with hc | hc
    · exact hh.times c hc
    · obtain rfl := mem_singleton.mp hc
      exact ⟨by dsimp only; omega, hrange⟩
  current := by
    have hcurrent := hh.current
    simp only [length_append, length_singleton]
    omega

theorem worldStep_consistent (hw : Consistent clocks w) (hplain : event.Plain) (hstep : worldStep clocks w event = some w') :
    Consistent clocks w' := by
  cases event with
  | pass moments =>
    cases hstep
    refine { hw with before := fun e he => (hw.before e he).trans (Nat.le_add_right ..), upTo := ?_ }
    intro c hc
    have hmono := clocks.committing_mono (Nat.le_add_right w.now moments)
    have hupTo := hw.upTo c hc
    dsimp only
    omega
  | sealing ingesterId uuid =>
    obtain ⟨hfresh, rfl⟩ := Guard.stay hstep
    refine ⟨?_, nodup_cons.mpr ⟨hfresh, hw.once⟩, ?_, ?_, ?_, hw.upTo, hw.sound⟩
    · intro e he
      rcases mem_cons.mp he with rfl | he
      · exact le_refl _
      · exact hw.before e he
    · intro n hn
      rcases mem_cons.mp hn with rfl | hn
      · exact segmentName_plain hplain.1 hplain.2
      · exact hw.plain n hn
    · exact fun c hc n hn => mem_cons_of_mem _ (hw.known c hc n hn)
    · intro c hc n hn t ht
      rcases mem_cons.mp ht with heq | ht
      · -- the name is new, so no commit has it
        exact absurd (hw.known c hc n hn) ((Prod.mk.inj heq).1 ▸ hfresh)
      · exact hw.inTime c hc n hn t ht
  | commit names =>
    obtain ⟨⟨hknown, hrange⟩, rfl⟩ := Option.ite_some_none_eq_some.mp hstep
    refine ⟨hw.before, hw.once, hw.plain, ?_, ?_, ?_, hw.sound.commit (fun n hn => hw.plain n (hknown n hn)) hrange hw.upTo⟩
    · intro c hc
      rcases mem_append.mp hc with hc | hc
      · exact hw.known c hc
      · obtain rfl := mem_singleton.mp hc
        exact hknown
    · intro c hc n hn t ht
      rcases mem_append.mp hc with hc | hc
      · exact hw.inTime c hc n hn t ht
      · obtain rfl := mem_singleton.mp hc
        have hmono := clocks.sealing_mono (hw.before (n, t) ht)
        have hclose := (clocks.close w.now).1
        dsimp only at hmono ⊢
        omega
    · intro c hc
      rcases mem_append.mp hc with hc | hc
      · exact hw.upTo c hc
      · obtain rfl := mem_singleton.mp hc
        exact le_refl _
  | expire count =>
    obtain ⟨hcount, rfl⟩ := Option.ite_some_none_eq_some.mp hstep
    exact ⟨hw.before, hw.once, hw.plain, hw.known, hw.inTime, hw.upTo,
      hw.sound.records, hw.sound.ordered, hw.sound.times, by dsimp only; omega⟩

variable {events : List Event}

theorem consistent_of_run (hplain : ∀ e ∈ events, e.Plain)
    (hrun : run (worldStep clocks) init events = some w) : Consistent clocks w :=
  invariant_run (fun _ _ _ hw hok hstep => worldStep_consistent hw hok hstep) (Consistent.init clocks)
    (Transition.meets_of_forall hplain init) hrun

theorem Consistent.sealedInTime (hw : Consistent clocks w) (hreads : ReadsSealTimes clocks w dir) :
    SealedInTime w.history dir := by
  intro file hfile name hname c hc hconsumed m hm
  obtain ⟨t, ht, rfl⟩ := hreads file hfile name hname m hm
  exact hw.inTime c hc name hconsumed t ht

theorem ordered_of_run_apart (hmeets : Transition.Meets (worldStep clocks) (Event.Apart clocks) init events)
    (hrun : run (worldStep clocks) init events = some w) :
    w.history.commits.Pairwise fun c d => c.snapshot.timestampMs < d.snapshot.timestampMs := by
  refine invariant_run (I := fun w => w.history.commits.Pairwise fun c d =>
    c.snapshot.timestampMs < d.snapshot.timestampMs) ?_ List.Pairwise.nil hmeets hrun
  intro w event w' hw hapart hstep
  cases event with
  | pass moments =>
    cases hstep
    exact hw
  | sealing ingesterId uuid =>
    obtain ⟨-, rfl⟩ := Guard.stay hstep
    exact hw
  | commit names =>
    obtain ⟨-, rfl⟩ := Option.ite_some_none_eq_some.mp hstep
    refine pairwise_append.mpr ⟨hw, pairwise_singleton _ _, fun c hc d hd => ?_⟩
    obtain rfl := mem_singleton.mp hd
    exact hapart c hc
  | expire count =>
    obtain ⟨-, rfl⟩ := Option.ite_some_none_eq_some.mp hstep
    exact hw

/-- After every run whose commits fall into different milliseconds, the disposition is safe whatever fails. -/
theorem safe_of_run_apart (hplain : ∀ e ∈ events, e.Plain)
    (hmeets : Transition.Meets (worldStep clocks) (Event.Apart clocks) init events)
    (hrun : run (worldStep clocks) init events = some w)
    (hrange : (clocks.committing w.now : Int) ≤ i64Max - historySkewMarginMs) (hreads : ReadsSealTimes clocks w dir)
    (hnames : (dir.orphans.map fileName).Nodup) (io : OsName → Bool) :
    Safe w.history dir (disposeOrphansAt io w.history.retained dir) := by
  have hw := consistent_of_run hplain hrun
  have hordered := ordered_of_run_apart hmeets hrun
  rw [← TableHistory.past_append_kept w.history, pairwise_append] at hordered
  refine safe_of_no_edge hw.sound hnames (hw.sealedInTime hreads) ?_ io
  rintro file - - ⟨name, sealedAt, -, -, -, c, hc, -, oldest, holdest, ⟨hover, -⟩ | ⟨hsame, -⟩⟩
  · have hupTo := hw.upTo oldest (TableHistory.mem_commits.mpr (.inr (mem_of_head? holdest)))
    omega
  · have hlt := hordered.2.2 c hc oldest (mem_of_head? holdest)
    omega

/-! ## Disposition -/

/-- Under the assumptions on expiry, on what commits record, on the times and on the clocks, every disposition of the orphans is
safe exactly when no orphan whose name is free in `sealed/` is on the edge. -/
theorem dispositions_safe_iff (h : TableHistory) (dir : WalDir) (hh : h.Sound)
    (hnames : (dir.orphans.map fileName).Nodup) (htime : SealedInTime h dir) :
    (∀ io, Safe h dir (disposeOrphansAt io h.retained dir)) ↔
      ∀ file ∈ dir.orphans, file.fileName ∉ dir.sealed → ¬ OnTheEdge h file := by
  constructor
  · intro hsafe file hfile hfree hedge
    have hverdict := hedge.requeued hh htime hfile hfree
    -- with no failing operation the sweep reaches the file
    obtain ⟨done, rest, hsplit, hall, -, hrequeued, -, -⟩ := disposeOrphansAt_spec (fun _ => true) h.retained hnames rfl
    rw [hall fun _ => rfl, append_nil] at hsplit
    refine (hsafe fun _ => true).requeued file ?_ ((committed_iff_onTheEdge hh htime hfile hverdict).mpr hedge)
    rw [hrequeued, mem_filter, decide_eq_true_iff]
    exact ⟨hsplit ▸ hfile, hverdict⟩
  · exact fun hedge io => safe_of_no_edge hh hnames htime hedge io

def aheadClocks : Clocks where
  sealing t := t + 6000
  committing t := t + 1000
  sealing_mono := fun _ _ h => Nat.add_le_add_right h 6000
  committing_mono := fun _ _ h => Nat.add_le_add_right h 1000
  close := fun t => by unfold historySkewMarginMs; omega

def oneSegment : Text := segmentName "a".toList "0192".toList

def laterSegment : Text := segmentName "a".toList "0193".toList

variable (moments : Nat)

/-- The first segment is committed, another commit follows after `moments`, and the first snapshot expires; the second segment is
sealed and not committed. -/
def expiredCommit : List Event :=
  [.sealing "a".toList "0192".toList, .commit [oneSegment], .pass moments, .commit [], .sealing "a".toList "0193".toList,
    .expire 1]

def expiredHistory : TableHistory :=
  ⟨[⟨⟨1000, some oneSegment⟩, [oneSegment]⟩, ⟨⟨(moments + 1000 : Nat), none⟩, []⟩], 1⟩

def expiredWorld : World := ⟨moments, [(laterSegment, moments), (oneSegment, 0)], expiredHistory moments⟩

def oneOrphan : OrphanFile := ⟨.utf8 oneSegment, some 6000⟩

def laterOrphan : OrphanFile := ⟨.utf8 laterSegment, some (moments + 6000)⟩

def twoOrphans : WalDir := ⟨[oneOrphan, laterOrphan moments], []⟩

theorem expiredCommit_plain : ∀ e ∈ expiredCommit moments, e.Plain := by
  simp [expiredCommit, Event.Plain]

theorem twoOrphans_readsSealTimes : ReadsSealTimes aheadClocks (expiredWorld moments) (twoOrphans moments) := by
  intro file hfile name hname m hm
  rcases mem_cons.mp hfile with rfl | hfile
  · cases hname
    cases hm
    exact ⟨0, mem_cons_of_mem _ mem_cons_self, rfl⟩
  · obtain rfl := mem_singleton.mp hfile
    cases hname
    cases hm
    exact ⟨moments, mem_cons_self, rfl⟩

/-- With a millisecond between the two commits the committed orphan is held and the one that was never committed is requeued. -/
theorem later_orphan_requeued :
    (∀ io, Safe (expiredHistory 1) (twoOrphans 1) (disposeOrphansAt io (expiredHistory 1).retained (twoOrphans 1))) ∧
    (disposeOrphansAt (fun _ => true) (expiredHistory 1).retained (twoOrphans 1)).disposed = ⟨[], [laterOrphan 1]⟩ := by
  have hrun : run (worldStep aheadClocks) init (expiredCommit 1) = some (expiredWorld 1) := by decide +kernel
  have hw := consistent_of_run (expiredCommit_plain 1) hrun
  have htime := hw.sealedInTime (twoOrphans_readsSealTimes 1)
  refine ⟨(dispositions_safe_iff (expiredHistory 1) _ hw.sound (by decide) htime).mpr ?_, by decide +kernel⟩
  rintro file - - ⟨name, sealedAt, -, -, -, c, hc, -, oldest, holdest, ⟨hover, -⟩ | ⟨hsame, -⟩⟩
  · cases holdest
    exact absurd hover (by decide)
  · obtain rfl := mem_singleton.mp hc
    cases holdest
    exact absurd hsame (by decide)

instance (clocks : Clocks) (w : World) : DecidablePred (Event.Apart clocks w) := fun e => by
  cases e <;> unfold Event.Apart <;> infer_instance

/-- The sweep of that directory, with every file operation succeeding, requeues the orphan that was never committed. -/
theorem orphans_safe_of_apart :
    (disposeOrphansAt (fun _ => true) (expiredHistory 1).retained (twoOrphans 1)).disposed.requeued = [laterOrphan 1] ∧
    Safe (expiredHistory 1) (twoOrphans 1) (disposeOrphansAt (fun _ => true) (expiredHistory 1).retained (twoOrphans 1)) := by
  refine ⟨by decide +kernel, ?_⟩
  exact safe_of_run_apart (expiredCommit_plain 1) (by decide +kernel) (by decide +kernel) (by decide +kernel)
    (twoOrphans_readsSealTimes 1) (by decide) _

/-- Two commits in one millisecond, with a sealing clock five seconds ahead: the first snapshot expires, its segment is on the edge,
and it is put back into `sealed/` although its rows are in the table. -/
theorem committed_orphan_requeued :
    run (worldStep aheadClocks) init (expiredCommit 0) = some (expiredWorld 0) ∧
    (expiredHistory 0).Sound ∧ SealedInTime (expiredHistory 0) (twoOrphans 0) ∧
    oneOrphan ∈ (disposeOrphansAt (fun _ => true) (expiredHistory 0).retained (twoOrphans 0)).disposed.requeued ∧
    (expiredHistory 0).Committed oneOrphan := by
  have hrun : run (worldStep aheadClocks) init (expiredCommit 0) = some (expiredWorld 0) := by decide +kernel
  have hw := consistent_of_run (expiredCommit_plain 0) hrun
  refine ⟨hrun, hw.sound, hw.sealedInTime (twoOrphans_readsSealTimes 0), by decide +kernel, ?_⟩
  exact ⟨oneSegment, rfl, _, mem_cons_self, mem_cons_self⟩

end LogLake.Disposition
