import LogLake.Iceberg.Overlap

/-!
# Overlap depth

The sweep holds an interval until the starts at its release have been counted, one instant past its end. So its depth is exact
only where no interval is counted at that instant.
-/

namespace LogLake.Overlap

open List

/-! ## The loop -/

def total (events : List Event) : Int := (events.map Event.delta).sum

theorem total_append (l l' : List Event) : total (l ++ l') = total l + total l' := by
  rw [total, map_append, sum_append]
  rfl

/-- What the loop knows of the events it has seen. -/
structure Knows (s : Sweep) (seen : List Event) : Prop where
  depth : s.depth = total seen
  most : ∀ p, p <+: seen → total p ≤ s.best
  first : s.best = 0 ∨ ∃ p e rest, seen = p ++ e :: rest ∧ e.time = s.bestAt ∧ total (p ++ [e]) = s.best ∧
    ∀ q, q <+: p → total q < s.best

theorem Knows.next {s : Sweep} {seen : List Event} (h : Knows s seen) (e : Event) : Knows (s.next e) (seen ++ [e]) := by
  have htotal : total (seen ++ [e]) = s.depth + e.delta := by
    rw [total_append, h.depth]
    simp [total]
  unfold Sweep.next
  split
  · next hgt =>
    refine ⟨htotal.symm, fun p hp => ?_, Or.inr ⟨seen, e, [], rfl, rfl, htotal, fun q hq => ?_⟩⟩
    · rcases prefix_concat_iff.mp hp with rfl | hp
      · exact htotal.le
      · exact (h.most p hp).trans hgt.le
    · exact (h.most q hq).trans_lt hgt
  · next hle =>
    refine ⟨htotal.symm, fun p hp => ?_, h.first.imp id ?_⟩
    · rcases prefix_concat_iff.mp hp with rfl | hp
      · exact htotal.le.trans (not_lt.mp hle)
      · exact h.most p hp
    · rintro ⟨p, first, rest, rfl, hat⟩
      exact ⟨p, first, rest ++ [e], by rw [append_assoc, cons_append], hat⟩

theorem knows_sweep (l : List Event) : Knows (sweep l) l := by
  induction l using List.reverseRecOn with
  | nil => exact ⟨rfl, fun p hp => by rw [prefix_nil.mp hp]; exact le_rfl, Or.inl rfl⟩
  | append_singleton l e ih =>
    rw [sweep, foldl_append, foldl_cons, foldl_nil]
    exact ih.next e

/-! ## The events up to a time -/

instance : IsTrans Event Event.Before := ⟨fun a b c hab hbc => by unfold Event.Before at *; omega⟩

instance : Std.Total Event.Before := ⟨fun a b => by unfold Event.Before; omega⟩

/-- The starts until a time and the ends before it. -/
def upTo (t : Int) (l : List Event) : List Event := l.filter fun e => e.Before ⟨t, 1⟩

theorem mem_upTo {t : Int} {l : List Event} {e : Event} : e ∈ upTo t l ↔ e ∈ l ∧ e.Before ⟨t, 1⟩ := by
  rw [upTo, mem_filter, decide_eq_true_eq]

theorem upTo_eq_nil {t : Int} {a : Event} {l : List Event} (h : (a :: l).Pairwise Event.Before) (ha : ¬ a.Before ⟨t, 1⟩) :
    upTo t (a :: l) = [] := by
  refine eq_nil_iff_forall_not_mem.mpr fun b hb => ha ?_
  obtain ⟨hb, hbefore⟩ := mem_upTo.mp hb
  rcases mem_cons.mp hb with rfl | hb
  · exact hbefore
  · exact Trans.trans (rel_of_pairwise_cons h hb) hbefore

theorem prefix_upTo (t : Int) {l : List Event} (h : l.Pairwise Event.Before) : upTo t l <+: l := by
  induction l with
  | nil => exact prefix_rfl
  | cons a l ih =>
    by_cases ha : a.Before ⟨t, 1⟩
    · have hcons : upTo t (a :: l) = a :: upTo t l := filter_cons_of_pos (decide_eq_true ha)
      rw [hcons]
      exact (prefix_cons_inj a).mpr (ih h.of_cons)
    · rw [upTo_eq_nil h ha]
      exact nil_prefix

section

variable (bounds : List Interval) (t : Int)

/-- How many of the intervals contain a time. -/
def depthAt : Nat := bounds.countP fun b => b.lo ≤ t ∧ t ≤ b.hi

/-- How many contain it when each lasts until its release. -/
def heldAt : Nat := bounds.countP fun b => b.lo ≤ t ∧ t ≤ b.release

theorem Interval.hi_le_release (b : Interval) : b.hi ≤ b.release := by
  have := b.inRange
  unfold Interval.release
  omega

theorem depthAt_le_heldAt : depthAt bounds t ≤ heldAt bounds t := by
  refine countP_mono_left fun b _ hin => ?_
  obtain ⟨hlo, hhi⟩ := of_decide_eq_true hin
  exact decide_eq_true ⟨hlo, hhi.trans b.hi_le_release⟩

theorem total_upTo : total (upTo t (events bounds)) = heldAt bounds t := by
  induction bounds with
  | nil => rfl
  | cons b bounds ih =>
    have hle := b.le.trans b.hi_le_release
    have hevents : events (b :: bounds) = [⟨b.lo, 1⟩, ⟨b.release, -1⟩] ++ events bounds := rfl
    have hstart : (Event.mk b.lo 1).Before ⟨t, 1⟩ ↔ b.lo ≤ t := by simp [Event.Before, le_iff_lt_or_eq]
    have hend : (Event.mk b.release (-1)).Before ⟨t, 1⟩ ↔ b.release < t := by simp [Event.Before]
    rw [hevents, upTo, filter_append, ← upTo, ← upTo, total_append, ih, heldAt, heldAt, countP_cons]
    simp only [upTo, filter_cons, filter_nil, hstart, hend, decide_eq_true_eq]
    split_ifs <;> simp [total] <;> omega

end

/-! ## The answer -/

section

variable (bounds : List Interval)

/-- The sweep finds the most intervals held at a time, and the first such time. -/
theorem sweep_held {s : Sweep} (hs : sweep ((events bounds).insertionSort Event.Before) = s) :
    (∀ t, heldAt bounds t ≤ s.best) ∧
      (s.best = 0 ∨ heldAt bounds s.bestAt = s.best ∧ ∀ u < s.bestAt, (heldAt bounds u : Int) < s.best) := by
  have hknows := knows_sweep ((events bounds).insertionSort Event.Before)
  have hsorted := pairwise_insertionSort Event.Before (events bounds)
  have hperm := perm_insertionSort Event.Before (events bounds)
  rw [hs] at hknows
  generalize (events bounds).insertionSort Event.Before = l at hknows hsorted hperm
  have htotal : ∀ t, total (upTo t l) = heldAt bounds t := by
    intro t
    rw [← total_upTo]
    exact ((hperm.filter _).map Event.delta).sum_eq
  have hmost : ∀ t, heldAt bounds t ≤ s.best := fun t => htotal t ▸ hknows.most _ (prefix_upTo t hsorted)
  refine ⟨hmost, hknows.first.imp id ?_⟩
  rintro ⟨p, e, rest, rfl, hat, hbest, hfirst⟩
  obtain ⟨hp, he, hcross⟩ := pairwise_append.mp hsorted
  have hdelta : 0 < e.delta := by
    have hbefore := hfirst p prefix_rfl
    rw [← hbest, total_append] at hbefore
    simpa [total] using hbefore
  refine ⟨le_antisymm (hmost _) ?_, fun u hu => ?_⟩
  · -- all that came before the event counts, and what follows it of its time are starts
    have hself : e.Before ⟨s.bestAt, 1⟩ := Or.inr ⟨hat, hdelta⟩
    have hall : upTo s.bestAt (p ++ [e]) = p ++ [e] := by
      refine filter_eq_self.mpr fun x hx => decide_eq_true ?_
      rcases mem_append.mp hx with hx | hx
      · exact Trans.trans (hcross x hx e mem_cons_self) hself
      · exact mem_singleton.mp hx ▸ hself
    have hrest : 0 ≤ total (upTo s.bestAt rest) := by
      refine List.sum_nonneg fun d hd => ?_
      obtain ⟨x, hx, rfl⟩ := mem_map.mp hd
      obtain ⟨hx, hbefore⟩ := mem_upTo.mp hx
      have hafter := rel_of_pairwise_cons he hx
      unfold Event.Before at hafter hbefore
      dsimp only at hbefore
      omega
    rw [← htotal, ← singleton_append, ← append_assoc, upTo, filter_append, ← upTo, ← upTo, hall, total_append, hbest]
    omega
  · have hlate : ¬ e.Before ⟨u, 1⟩ := by
      unfold Event.Before
      dsimp only
      omega
    rw [← htotal, upTo, filter_append, ← upTo, ← upTo, upTo_eq_nil he hlate, append_nil]
    exact hfirst _ (prefix_upTo u hp)

/-- The depth is the largest at any time, and the stab point has it. -/
def IsDeepest (answer : Nat × Int) : Prop := (∀ t, depthAt bounds t ≤ answer.1) ∧ depthAt bounds answer.2 = answer.1

/-- At the first of the times at which the most intervals are held, all that are held contain it. -/
def HeldInside : Prop :=
  ∀ t, (∀ u, heldAt bounds u ≤ heldAt bounds t) → (∀ u < t, heldAt bounds u < heldAt bounds t) →
    depthAt bounds t = heldAt bounds t

theorem overlap_depth_exact_iff : IsDeepest bounds (overlapDepthAndStab bounds) ↔ HeldInside bounds := by
  have hle := depthAt_le_heldAt bounds
  obtain ⟨hmost, hbest⟩ := sweep_held bounds rfl
  unfold overlapDepthAndStab IsDeepest
  dsimp only
  generalize sweep ((events bounds).insertionSort Event.Before) = s at hmost hbest
  have hleAt := hle s.bestAt
  have hmostAt := hmost s.bestAt
  constructor
  · rintro ⟨-, hstab⟩ t hmax hleast
    have hlet := hle t
    have hmostt := hmost t
    rcases hbest with hzero | ⟨hheld, hfirst⟩
    · omega
    · rcases lt_trichotomy t s.bestAt with hlt | rfl | hgt
      · have hless := hfirst t hlt
        have hmore := hmax s.bestAt
        omega
      · omega
      · have hless := hleast _ hgt
        omega
  · intro hinside
    refine ⟨fun t => ?_, ?_⟩
    · have hlet := hle t
      have hmostt := hmost t
      omega
    · rcases hbest with hzero | ⟨hheld, hfirst⟩
      · omega
      · have hmax : ∀ u, heldAt bounds u ≤ heldAt bounds s.bestAt := fun u => by
          have := hmost u
          omega
        have hleast : ∀ u < s.bestAt, heldAt bounds u < heldAt bounds s.bestAt := fun u hu => by
          have := hfirst u hu
          omega
        have hin := hinside _ hmax hleast
        omega

end

/-- One interval ends right before another begins: no time is in both, and the depth is two. -/
theorem touching_intervals_counted :
    overlapDepthAndStab [⟨0, 4, by decide, by decide⟩, ⟨5, 9, by decide, by decide⟩] = (2, 5) ∧
      depthAt [⟨0, 4, by decide, by decide⟩, ⟨5, 9, by decide, by decide⟩] 5 = 1 := by
  decide +kernel

end LogLake.Overlap
