import LogLake.Lemmas.Subscribe

/-! # A subscription delivers every appended row -/

namespace LogLake.Subscribe

open List Option Iceberg Transition

variable {ρ : Type}

theorem commitsBetween_eq {commits before mid after : List (Commit ρ)} {b last : Commit ρ}
    (hnodup : (commits.map fun c => c.snapshot.id).Nodup) (hsplit : commits = before ++ b :: mid ++ after)
    (hlast : (b :: mid).getLast? = some last) : commitsBetween commits b.snapshot.id last.snapshot.id = mid := by
  have hposition : ∀ (front : List (Commit ρ)) (c : Commit ρ) (rest : List (Commit ρ)), commits = front ++ c :: rest →
      (commits.map fun c => c.snapshot.id).idxOf c.snapshot.id = front.length := by
    intro front c rest hfront
    have hnot : c.snapshot.id ∉ front.map fun c => c.snapshot.id := by
      intro hmem
      rw [hfront, map_append, map_cons, nodup_append] at hnodup
      exact hnodup.2.2 _ hmem _ mem_cons_self rfl
    rw [hfront, map_append, idxOf_append_of_notMem hnot, map_cons, idxOf_cons_self, length_map, Nat.add_zero]
  obtain ⟨init, hinit⟩ := List.getLast?_eq_some_iff.mp hlast
  have hb := hposition before b (mid ++ after) (by rw [hsplit]; simp)
  have hc := hposition (before ++ init) last after (by rw [hsplit, hinit]; simp)
  have hlength : mid.length = init.length := by
    have h := congrArg List.length hinit
    simpa using h
  simp only [commitsBetween, hb, hc]
  have htake : (before ++ init).length + 1 = (before ++ b :: mid).length := by
    simp only [length_append, length_cons, hlength]
    omega
  rw [hsplit, htake, take_left', ← singleton_append, ← append_assoc, drop_left']
  · simp
  · rfl

variable {t : TableMetadata ρ}

theorem Consistent.cursor {s : State ρ} {exact : Prop} (hs : Consistent exact s) (ht : s.captured = some t) {c current : Int}
    (hc : s.consumer.subscription.cursorSnapshotId = some c) (hcurrent : t.currentSnapshotId = some current) :
    ∃ past before cursor, past <+: s.commits ∧ Generation past t ∧ cursor.snapshot.id = c ∧
      past = before ++ cursor :: commitsBetween s.commits c current ∧
      (commitsBetween s.commits c current = [] → current = c) := by
  obtain ⟨past, hpast, hgen, haccount⟩ := hs.captured t ht
  obtain ⟨before, b, mid, cursor, ⟨rest, hrest⟩, -, hcursor, rfl, -⟩ := haccount.delivered c hc
  obtain ⟨init, hinit⟩ := List.getLast?_eq_some_iff.mp hcursor
  obtain ⟨after, hafter⟩ := hpast
  rw [hgen.current, map_eq_some_iff] at hcurrent
  obtain ⟨last, hlast, rfl⟩ := hcurrent
  have hsplit : past = (before ++ init) ++ cursor :: rest := by
    rw [← hrest, hinit]
    simp
  have hlast' : (cursor :: rest).getLast? = some last := by
    rw [hsplit, List.getLast?_append] at hlast
    simpa using hlast
  have hbetween := commitsBetween_eq hs.history.nodup (by rw [← hafter, hsplit]) hlast'
  refine ⟨past, before ++ init, cursor, ⟨after, hafter⟩, hgen, rfl, by rw [hbetween, hsplit], ?_⟩
  intro hnil
  rw [hbetween] at hnil
  rw [hnil, List.getLast?_singleton, some.injEq] at hlast'
  rw [hlast']

variable (time : ρ → Int)

/-- What a poll in progress does: failing, it leaves both cursors alone; it fails with a history gap exactly when a commit
after its cursor is no longer retained; and with all of them retained it returns rows unless a read fails. -/
structure PollIsSafe (s : State ρ) (t : TableMetadata ρ) (reads : Reads ρ) : Prop where
  unchanged : ∀ e, (s.consumer.subscription.pollCaptured time t reads).1 = .error e →
    (s.consumer.subscription.pollCaptured time t reads).2 = s.consumer.subscription
  gap : ∀ c current, s.consumer.subscription.cursorSnapshotId = some c → t.currentSnapshotId = some current →
    ((∃ gap, (s.consumer.subscription.pollCaptured time t reads).1 = .error (.historyGap gap)) ↔
      ∃ commit ∈ commitsBetween s.commits c current, commit.snapshot.id ∉ t.snapshots.map Snapshot.id)
  returns : ∀ c current, s.consumer.subscription.cursorSnapshotId = some c → t.currentSnapshotId = some current →
    reads.AllSucceed → (∀ commit ∈ commitsBetween s.commits c current, commit.snapshot.id ∈ t.snapshots.map Snapshot.id) →
    ∃ rows, (s.consumer.subscription.pollCaptured time t reads).1 = .ok rows

theorem pollCaptured_behind {sub : Subscription} {reads : Reads ρ} {c current : Int}
    (hc : sub.cursorSnapshotId = some c) (hcurrent : t.currentSnapshotId = some current) (hne : c ≠ current) :
    (sub.pollCaptured time t reads).1 = sub.pollIncremental t reads c := by
  have hne' : ¬ (some c = some current) := fun h => hne (some.inj h)
  simp only [Subscription.pollCaptured, hcurrent, hc, if_neg hne']
  cases sub.pollIncremental t reads c <;> rfl

theorem Consistent.pollCaptured_cases {s : State ρ} {exact : Prop} (hs : Consistent exact s) (ht : s.captured = some t)
    (reads : Reads ρ) {c current : Int} (hc : s.consumer.subscription.cursorSnapshotId = some c)
    (hcurrent : t.currentSnapshotId = some current) {r} (hr : (s.consumer.subscription.pollCaptured time t reads).1 = r) :
    ((∃ rows, r = .ok rows) ∨ (r = .error .readFailed ∧ ¬ reads.AllSucceed)) ∧
        (∀ commit ∈ commitsBetween s.commits c current, commit.snapshot.id ∈ t.snapshots.map Snapshot.id) ∨
      (∃ gap, r = .error (.historyGap gap)) ∧
        ∃ commit ∈ commitsBetween s.commits c current, commit.snapshot.id ∉ t.snapshots.map Snapshot.id := by
  subst hr
  obtain ⟨past, before, cursor, hpast, hgen, hcursor, hsplit, hnil⟩ := hs.cursor ht hc hcurrent
  rcases (commitsBetween s.commits c current).eq_nil_or_concat with hempty | ⟨mid, last, hmid⟩
  · left
    obtain rfl := hnil hempty
    refine ⟨Or.inl ⟨[], ?_⟩, ?_⟩
    · simp [Subscription.pollCaptured, hcurrent, hc]
    · rw [hempty]
      exact fun _ h => nomatch h
  · rw [concat_eq_append] at hmid
    rw [hmid] at hsplit ⊢
    have hne : c ≠ current := by
      rintro rfl
      have hlast := hgen.current
      rw [hcurrent, hsplit, List.getLast?_append, List.getLast?_cons, List.getLast?_concat] at hlast
      have hid : c = last.snapshot.id := some.inj hlast
      have hnodup := hs.history.nodup.sublist (hpast.sublist.map _)
      rw [hsplit, map_append, nodup_append] at hnodup
      refine (nodup_cons.mp hnodup.2.1).1 ?_
      show cursor.snapshot.id ∈ _
      rw [hcursor, hid]
      simp
    rw [pollCaptured_behind time hc hcurrent hne, ← hcursor]
    rcases pollIncremental_cases hs.history hpast hgen hsplit s.consumer.subscription reads with ⟨hpoll, hall⟩ | hgap
    · left
      refine ⟨?_, hall⟩
      rw [hpoll]
      rcases hread : readAdded reads ((mid ++ [last]).map Commit.snapshot).reverse with _ | rows
      · right
        refine ⟨rfl, fun hreads => ?_⟩
        have hsome := readAdded_isSome hreads ((mid ++ [last]).map Commit.snapshot).reverse
        rw [hread] at hsome
        nomatch hsome
      · exact .inl ⟨rows, rfl⟩
    · exact .inr hgap

theorem Consistent.pollIsSafe {s : State ρ} {exact : Prop} (hs : Consistent exact s) (ht : s.captured = some t)
    (reads : Reads ρ) : PollIsSafe time s t reads := by
  refine ⟨fun e h => pollCaptured_error time h, ?_, ?_⟩
  · intro c current hc hcurrent
    rcases hs.pollCaptured_cases time ht reads hc hcurrent rfl with ⟨hok, hall⟩ | ⟨hgap, hlost⟩
    · constructor
      · rintro ⟨gap, hgap⟩
        rcases hok with ⟨rows, hrows⟩ | ⟨hfailed, -⟩
        · exact (nomatch hgap.symm.trans hrows)
        · exact (nomatch hgap.symm.trans hfailed)
      · rintro ⟨commit, hmem, hnot⟩
        exact absurd (hall commit hmem) hnot
    · exact ⟨fun _ => hlost, fun _ => hgap⟩
  · intro c current hc hcurrent hreads hall
    rcases hs.pollCaptured_cases time ht reads hc hcurrent rfl with ⟨hok | ⟨-, hnot⟩, -⟩ | ⟨-, commit, hmem, hnot⟩
    · exact hok
    · exact absurd hreads hnot
    · exact absurd (hall commit hmem) hnot

/-- What the account of a consumer says about the rows it was delivered, with the commits named by their ids. -/
theorem Consistent.delivers {s : State ρ} {exact : Prop} (hs : Consistent exact s) {c : Int}
    (hc : s.consumer.subscription.cursorSnapshotId = some c) :
    ∃ b again, s.consumer.start = some b ∧
      s.consumer.delivered.Perm ((commitsBetween s.commits b c).flatMap Commit.appended ++ again) ∧
      (∀ row ∈ again, ∃ d, row ∈ (commitsBetween s.commits b d).flatMap Commit.appended) ∧ (exact → again = []) := by
  obtain ⟨before, b, mid, last, ⟨after, hafter⟩, hstart, hlast, rfl, ⟨again, hrows, hagain, hexact⟩, -⟩ :=
    hs.consumer.delivered c hc
  refine ⟨b.snapshot.id, again, hstart, ?_, fun row hrow => ?_, hexact⟩
  · rwa [commitsBetween_eq hs.history.nodup hafter.symm hlast]
  -- the last commit of all is as far as a row can come from
  · obtain ⟨newest, hnewest⟩ : ∃ d, (b :: (mid ++ after)).getLast? = some d := ⟨_, List.getLast?_cons⟩
    have hsplit : s.commits = before ++ b :: (mid ++ after) ++ [] := by rw [← hafter]; simp
    refine ⟨newest.snapshot.id, ?_⟩
    rw [commitsBetween_eq hs.history.nodup hsplit hnewest]
    have hdrop : s.commits.drop (before.length + 1) = mid ++ after := by
      rw [hsplit, append_nil, ← singleton_append, ← append_assoc, drop_left' (by simp)]
    exact hdrop ▸ hagain hrow

def allReads : Reads Int := ⟨fun _ => true, fun _ => true, fun _ => true, true⟩

def reclusterAndExpiry : List (Action Int) :=
  [.append 10 [] [⟨0, .data, [1]⟩], .capture, .poll allReads, .persist, .append 11 [] [⟨1, .data, [2]⟩],
    .append 12 [] [⟨2, .data, [3]⟩], .rewrite .recluster 13 [] [⟨3, .data, [2, 3]⟩] [1, 2], .expire 1, .capture,
    .abandon, .restart, .capture, .poll allReads]

def restartAfterPoll : List (Action Int) :=
  [.append 10 [] [⟨0, .data, [1]⟩], .capture, .poll allReads, .persist, .append 11 [] [⟨1, .data, [2]⟩], .capture,
    .poll allReads, .restart, .capture, .poll allReads]

end LogLake.Subscribe
