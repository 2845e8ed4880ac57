import LogLake.Ingest.RateBudget

/-! # The budget bounds the rate while the clocks agree -/

namespace LogLake.RateBudget

open List Transition

variable {rate burst lo hi d limit : ℚ} {e : Execution} {es : List Execution} {key : Option Bucket} {b : Bucket}

theorem refilled_le (rate burst : ℚ) (key : Option Bucket) (nowMs : Int) : refilled rate burst key nowMs ≤ burst := by
  unfold refilled
  split
  · exact min_le_left _ _
  · exact min_le_left _ _

theorem refilled_nonneg (hrate : 0 ≤ rate) (hburst : 0 ≤ burst) (hkey : ∀ b ∈ key, 0 ≤ b.tokens)
    (nowMs : Int) : 0 ≤ refilled rate burst key nowMs := by
  have hgain : ∀ last, 0 ≤ elapsedS nowMs last * rate := fun last => mul_nonneg (le_max_left _ _) hrate
  unfold refilled
  split
  · exact le_min hburst (add_nonneg hburst (hgain _))
  · exact le_min hburst (add_nonneg (hkey _ rfl) (hgain _))

/-- A refill under the condition brings no more than the time between the two readings is worth. -/
theorem refilled_stored_le (hsteady : Steady rate burst (some b) e) :
    refilled rate burst (stored (some b) e) e.nowMs ≤ b.tokens + ((e.nowMs - b.lastRefillMs : Int) : ℚ) / 1000 * rate := by
  obtain ⟨-, hb⟩ := hsteady
  obtain ⟨hclock, hexpired⟩ := hb b rfl
  by_cases hlive : e.time < b.expiresAt
  · have hstored : stored (some b) e = some b := by simp [stored, hlive]
    have helapsed : 0 ≤ ((e.nowMs - b.lastRefillMs : Int) : ℚ) / 1000 :=
      div_nonneg (Int.cast_nonneg (Int.sub_nonneg.mpr hclock)) (by norm_num)
    rw [hstored, refilled, elapsedS, max_eq_right helapsed]
    exact min_le_right _ _
  · exact (refilled_le _ _ _ _).trans (hexpired (not_lt.mp hlive))

/-- What the script leaves: the tokens after the refill, less the one it gave. -/
theorem budgetScript_spec (hrate : 0 ≤ rate) (hburst : 0 ≤ burst) (key : Option Bucket) (hkey : ∀ b ∈ key, 0 ≤ b.tokens)
    (e : Execution) {r} (hr : budgetScript rate burst key e = r) : r.2.lastRefillMs = e.nowMs ∧ 0 ≤ r.2.tokens ∧
      r.2.tokens + (if r.1.throttled = false then 1 else 0) = refilled rate burst (stored key e) e.nowMs := by
  subst hr
  have hstored : ∀ b ∈ stored key e, 0 ≤ b.tokens := fun b hb => hkey b (Option.filter_eq_some_iff.mp hb).1
  unfold budgetScript
  dsimp only
  split
  · next hone => exact ⟨rfl, sub_nonneg.mpr hone, by simp⟩
  · exact ⟨rfl, refilled_nonneg hrate hburst hstored _, by simp⟩

/-- The requests admitted between two times. -/
def admitted (rate burst lo hi : ℚ) (key : Option Bucket) (es : List Execution) : Nat :=
  (answers rate burst key es).countP (AdmittedWithin lo hi)

theorem time_of_mem_answers {x : Execution × Answer} (h : x ∈ answers rate burst key es) : x.1 ∈ es := by
  induction es generalizing key with
  | nil => cases h
  | cons e es ih =>
    rcases mem_cons.mp h with rfl | h
    · exact mem_cons_self
    · exact mem_cons_of_mem _ (ih h)

theorem admitted_of_late (hfirst : ∀ x ∈ es, e.time ≤ x.time) (hlate : ¬ e.time ≤ hi) :
    admitted rate burst lo hi key (e :: es) = 0 := by
  refine countP_eq_zero.mpr fun x hx hwithin => ?_
  have hin : x.1.time ≤ hi := (of_decide_eq_true hwithin).2.2
  rcases mem_cons.mp (time_of_mem_answers hx) with heq | hmem
  · exact hlate (heq ▸ hin)
  · exact hlate ((hfirst _ hmem).trans hin)

theorem gain_nonneg (hrate : 0 ≤ rate) (hlast : (b.lastRefillMs : ℚ) ≤ limit) : 0 ≤ (limit - b.lastRefillMs) / 1000 * rate :=
  mul_nonneg (div_nonneg (sub_nonneg.mpr hlast) (by norm_num)) hrate

theorem admitted_cons_le (rate burst lo hi : ℚ) (key : Option Bucket) (e : Execution) (es : List Execution) :
    (admitted rate burst lo hi key (e :: es) : ℚ) ≤ admitted rate burst lo hi (some (budgetScript rate burst key e).2) es +
      (if (budgetScript rate burst key e).1.throttled = false then 1 else 0) := by
  rw [admitted, answers, countP_cons, Nat.cast_add]
  refine add_le_add le_rfl ?_
  by_cases hgiven : (budgetScript rate burst key e).1.throttled = false
  · rw [if_pos hgiven]
    split <;> simp
  · rw [if_neg hgiven, if_neg (by simp [AdmittedWithin, hgiven])]
    simp

/-- From a bucket on, no more requests are admitted than it has tokens and the time up to the end of the interval brings. -/
theorem admitted_le_tokens (lo : ℚ) (hrate : 0 ≤ rate) (hburst : 0 ≤ burst)
    (hsorted : es.Pairwise fun e e' => e.time ≤ e'.time) (hlimit : ∀ e ∈ es, e.time ≤ hi → (e.nowMs : ℚ) ≤ limit)
    (htokens : 0 ≤ b.tokens) (hlast : (b.lastRefillMs : ℚ) ≤ limit)
    (hsteady : Meets (budgetStep rate burst) (Steady rate burst) (some b) es) :
    (admitted rate burst lo hi (some b) es : ℚ) ≤ b.tokens + (limit - b.lastRefillMs) / 1000 * rate := by
  induction es generalizing b with
  | nil =>
    simpa [admitted, answers] using add_nonneg htokens (gain_nonneg hrate hlast)
  | cons e es ih =>
    obtain ⟨hfirst, hrest⟩ := pairwise_cons.mp hsorted
    by_cases hin : e.time ≤ hi
    · have hnow := hlimit e mem_cons_self hin
      obtain ⟨hread, hpos, hsum⟩ :=
        budgetScript_spec hrate hburst (some b) (fun c hc => by cases hc; exact htokens) e rfl
      have hih := ih hrest (fun x hx => hlimit x (mem_cons_of_mem _ hx)) hpos (by rwa [hread]) (hsteady.2 _ rfl)
      have hrefill := refilled_stored_le hsteady.1
      rw [hread] at hih
      rw [Int.cast_sub] at hrefill
      have hstep := admitted_cons_le rate burst lo hi (some b) e es
      have hsplit : (limit - b.lastRefillMs) / 1000 * rate =
          (e.nowMs - b.lastRefillMs) / 1000 * rate + (limit - e.nowMs) / 1000 * rate := by ring
      linarith
    · rw [admitted_of_late hfirst hin, Nat.cast_zero]
      exact add_nonneg htokens (gain_nonneg hrate hlast)

theorem nowMs_le (hclock : |e.clock - e.time| ≤ d) (hin : e.time ≤ hi) : (e.nowMs : ℚ) ≤ (hi + d) * 1000 := by
  have hfloor : (e.nowMs : ℚ) ≤ e.clock * 1000 := Int.floor_le _
  have hoff := (abs_le.mp hclock).2
  linarith

/-- The readings of an interval's executions lie within its length, twice the deviation and a millisecond. -/
theorem span_le (hi : ℚ) (hclock : |e.clock - e.time| ≤ d) (hin : lo ≤ e.time) :
    ((hi + d) * 1000 - e.nowMs) / 1000 ≤ hi - lo + 2 * d + 1 / 1000 := by
  have hfloor : e.clock * 1000 < e.nowMs + 1 := Int.lt_floor_add_one _
  have hoff := (abs_le.mp hclock).1
  linarith

theorem admitted_le (hrate : 0 ≤ rate) (hburst : 0 ≤ burst) (hd : 0 ≤ d) (hwindow : lo ≤ hi)
    (hkey : ∀ b ∈ key, 0 ≤ b.tokens) (hsorted : es.Pairwise fun e e' => e.time ≤ e'.time)
    (hclocks : ∀ e ∈ es, |e.clock - e.time| ≤ d) (hsteady : Meets (budgetStep rate burst) (Steady rate burst) key es) :
    (admitted rate burst lo hi key es : ℚ) ≤ burst + 1 + rate * (hi - lo + 2 * d) := by
  have hbound : 0 ≤ burst + 1 + rate * (hi - lo + 2 * d) := by
    have hgain : 0 ≤ rate * (hi - lo + 2 * d) := mul_nonneg hrate (by linarith)
    linarith
  induction es generalizing key with
  | nil => simpa [admitted, answers] using hbound
  | cons e es ih =>
    obtain ⟨hfirst, hrest⟩ := pairwise_cons.mp hsorted
    obtain ⟨hread, hpos, hsum⟩ := budgetScript_spec hrate hburst key hkey e rfl
    have hlater := hsteady.2 _ rfl
    have hclock := hclocks e mem_cons_self
    have hothers : ∀ x ∈ es, |x.clock - x.time| ≤ d := fun x hx => hclocks x (mem_cons_of_mem _ hx)
    by_cases hbefore : e.time < lo
    · -- the interval has not begun
      have hskip : admitted rate burst lo hi key (e :: es) =
          admitted rate burst lo hi (some (budgetScript rate burst key e).2) es := by
        rw [admitted, answers, countP_cons_of_neg fun h => absurd (of_decide_eq_true h).2.1 (not_le.mpr hbefore)]
        rfl
      rw [hskip]
      exact ih (fun b hb => by cases hb; exact hpos) hrest hothers hlater
    by_cases hin : e.time ≤ hi
    · -- the first execution of the interval: at most the burst is there, and the rest comes with the time
      have hrest := admitted_le_tokens lo hrate hburst hrest (fun x hx hxin => nowMs_le (hothers x hx) hxin) hpos
        (by rw [hread]; exact nowMs_le hclock hin) hlater
      have hstep := admitted_cons_le rate burst lo hi key e es
      have hfull := refilled_le rate burst (stored key e) e.nowMs
      have hspan := mul_le_mul_of_nonneg_right (span_le hi hclock (not_lt.mp hbefore)) hrate
      rw [hread] at hrest
      have hmilli : rate * (1 / 1000) ≤ 1 := by linarith [hsteady.1.1]
      linarith
    · rw [admitted_of_late hfirst hin, Nat.cast_zero]
      exact hbound

/-- In every run of executions in the order of time, with clocks that are off by at most `d` and the condition met at each one,
an interval admits at most the burst, one request more, and what the rate allows in its length and twice the deviation. -/
theorem admitted_bounded_of_steady {es : List Execution} {start length : ℚ} (hrate : 0 ≤ rate) (hburst : 0 ≤ burst)
    (hd : 0 ≤ d) (hlength : 0 ≤ length) (hsorted : es.Pairwise fun e e' => e.time ≤ e'.time)
    (hclocks : ∀ e ∈ es, |e.clock - e.time| ≤ d) (hsteady : Meets (budgetStep rate burst) (Steady rate burst) none es) :
    (admitted rate burst start (start + length) none es : ℚ) ≤ burst + 1 + rate * (length + 2 * d) := by
  have hwindow : start ≤ start + length := by linarith
  have hle := admitted_le hrate hburst hd hwindow (fun b hb => by cases hb) hsorted hclocks hsteady
  rwa [add_sub_cancel_left] at hle

/-- Three requests, the second of a replica whose clock is half a second early. -/
theorem two_requests_admitted :
    (admitted 1 1 0 (0 + 1) none [⟨0, 0⟩, ⟨1 / 2, 1⟩, ⟨1, 1⟩] : ℚ) ≤ 1 + 1 + 1 * (1 + 2 * (1 / 2)) :=
  admitted_bounded_of_steady (by decide +kernel) (by decide +kernel) (by decide +kernel) (by decide +kernel)
    (by decide +kernel) (by decide +kernel) (by decide +kernel)

/-- Two replicas whose clocks are a second early and a second late take turns at one moment: the late one moves the refill back,
and the early one is given the two seconds again each time. -/
theorem alternating_clocks_exceed_budget :
    let es : List Execution := (List.replicate 5 [⟨10, 9⟩, ⟨10, 11⟩]).flatten
    (∀ e ∈ es, |e.clock - e.time| ≤ 1) ∧ (es.Pairwise fun e e' => e.time ≤ e'.time) ∧
      ¬ (admitted 1 1 10 (10 + 0) none es : ℚ) ≤ 1 + 1 + 1 * (0 + 2 * 1) := by
  decide +kernel

/-! ## Waiting -/

/-- The tokens an execution finds are at least what the time between the readings brings, or enough for a request. -/
theorem min_one_le_refilled (hrate : 0 ≤ rate) (hburst : 1 ≤ burst) (b : Bucket) (e : Execution) :
    min 1 (b.tokens + ((e.nowMs - b.lastRefillMs : Int) : ℚ) / 1000 * rate) ≤
      refilled rate burst (stored (some b) e) e.nowMs := by
  by_cases hlive : e.time < b.expiresAt
  · have hstored : stored (some b) e = some b := by simp [stored, hlive]
    rw [hstored, refilled]
    exact min_le_min hburst (add_le_add le_rfl (mul_le_mul_of_nonneg_right (le_max_right _ _) hrate))
  · have hstored : stored (some b) e = none := by simpa [stored] using hlive
    rw [hstored, refilled]
    have hgain : 0 ≤ elapsedS e.nowMs e.nowMs * rate := mul_nonneg (le_max_left _ _) hrate
    exact (min_le_left _ _).trans (le_min hburst (by linarith))

theorem exists_admitted (hrate : 0 ≤ rate) (hburst : 1 ≤ burst) {last : Execution} (between : List Execution)
    (hdue : 1 ≤ b.tokens + ((last.nowMs - b.lastRefillMs : Int) : ℚ) / 1000 * rate) :
    ∃ x ∈ answers rate burst (some b) (between ++ [last]), x.2.throttled = false := by
  induction between generalizing b with
  | nil =>
    have hone := min_one_le_refilled hrate hburst b last
    rw [min_eq_left hdue] at hone
    exact ⟨_, mem_cons_self, by simp [budgetScript, hone]⟩
  | cons e es ih =>
    by_cases hone : 1 ≤ refilled rate burst (stored (some b) e) e.nowMs
    · exact ⟨_, mem_cons_self, by simp [budgetScript, hone]⟩
    · -- a throttled execution leaves the tokens it found, and its reading
      have hgain := min_one_le_refilled hrate hburst b e
      have hfound := (min_le_iff.mp hgain).resolve_left hone
      obtain ⟨x, hx, hadmitted⟩ := ih (b := (budgetScript rate burst (some b) e).2) (by
        simp only [budgetScript, hone, if_false]
        push_cast at hdue hfound ⊢
        linarith)
      exact ⟨x, mem_cons_of_mem _ hx, hadmitted⟩

/-- Whatever the clocks of the replicas show and whoever else asks: after a throttled request, of the executions up to one whose
clock is the answer's seconds past that request's, one admits its request. -/
theorem throttling_ends_by_retry (hrate : 0 < rate) (hburst : 1 ≤ burst) (key : Option Bucket) (first last : Execution)
    (between : List Execution) (hthrottled : (budgetScript rate burst key first).1.throttled = true)
    (hlast : first.nowMs + 1000 * (budgetScript rate burst key first).1.retrySecs ≤ last.nowMs) :
    ∃ x ∈ answers rate burst (some (budgetScript rate burst key first).2) (between ++ [last]), x.2.throttled = false := by
  by_cases hone : 1 ≤ refilled rate burst (stored key first) first.nowMs
  · simp [budgetScript, hone] at hthrottled
  simp only [budgetScript, hone, if_false] at hlast ⊢
  refine exists_admitted hrate.le hburst between ?_
  generalize refilled rate burst (stored key first) first.nowMs = tokens at hlast ⊢
  have hretry : (1 - tokens) / rate ≤ (max 1 ⌈(1 - tokens) / rate⌉ : Int) :=
    (Int.le_ceil _).trans (Int.cast_le.mpr (le_max_right ..))
  have hwait : (1 - tokens) / rate ≤ ((last.nowMs - first.nowMs : Int) : ℚ) / 1000 := by
    rify at hlast hretry ⊢
    linarith
  have hgain := (div_le_iff₀ hrate).mp hwait
  linarith

/-- An empty bucket, a request of another replica half a second later, and one after the full second. -/
theorem admitted_a_second_later :
    ∃ x ∈ answers 1 1 (some (budgetScript 1 1 (some ⟨0, 0, 3600⟩) ⟨0, 0⟩).2) ([⟨1 / 2, 2 / 5⟩] ++ [⟨1, 1⟩]),
      x.2.throttled = false :=
  throttling_ends_by_retry (by decide +kernel) le_rfl _ _ _ _ (by decide +kernel) (by decide +kernel)

end LogLake.RateBudget
