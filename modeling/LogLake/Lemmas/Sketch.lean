import LogLake.Aggregates.Sketch

/-! # What the operations on a summary do -/

namespace LogLake.ColumnSketch

open SortedMap

variable {s other : ColumnSketch} {values values' : List Text} {bound : Nat}

@[simp] theorem prune_m (s : ColumnSketch) : s.prune.m = s.m := by
  unfold prune
  split <;> rfl

@[simp] theorem prune_rows (s : ColumnSketch) : s.prune.rows = s.rows := by
  unfold prune
  split <;> rfl

theorem length_prune_le (s : ColumnSketch) : s.prune.counters.entries.length ≤ s.m := by
  unfold prune
  split
  · assumption
  · exact length_lower_nthLargest s.counters s.m

/-- Pruning lowers every counter by one cut and raises the error by it. -/
theorem exists_cut_prune (s : ColumnSketch) : ∃ cut, s.prune.errorFloor = s.errorFloor + cut ∧
    (∀ x, s.prune.counters.weight x = s.counters.weight x - cut) ∧
    s.prune.counters.total + (s.m + 1) * cut ≤ s.counters.total := by
  unfold prune
  split
  · exact ⟨0, rfl, fun x => rfl, le_rfl⟩
  · exact ⟨s.counters.nthLargest s.m, rfl, weight_lower s.counters _, total_lower_nthLargest s.counters s.m⟩

@[simp] theorem fromExact_rows (m : Nat) (exact : SortedMap Text Nat) (rows : Nat) : (fromExact m exact rows).rows = rows :=
  prune_rows _

@[simp] theorem fromExact_m (m : Nat) (exact : SortedMap Text Nat) (rows : Nat) : (fromExact m exact rows).m = max m 1 :=
  prune_m _

@[simp] theorem merge_rows (s other : ColumnSketch) : (s.merge other).rows = s.rows + other.rows := prune_rows _

@[simp] theorem merge_m (s other : ColumnSketch) : (s.merge other).m = max s.m other.m := prune_m _

theorem offer_eq_or (s : ColumnSketch) (value : Text) :
    s.offer value = ⟨s.counters.bump value 1, s.errorFloor, s.m, s.rows + 1⟩ ∨
      s.offer value = prune ⟨s.counters.bump value 1, s.errorFloor, s.m, s.rows + 1⟩ := by
  simp only [offer]
  split
  · exact Or.inl rfl
  · split
    · exact Or.inr rfl
    · exact Or.inl rfl

@[simp] theorem offer_rows (s : ColumnSketch) (value : Text) : (s.offer value).rows = s.rows + 1 := by
  rcases offer_eq_or s value with h | h
  · rw [h]
  · rw [h, prune_rows]

@[simp] theorem offer_m (s : ColumnSketch) (value : Text) : (s.offer value).m = s.m := by
  rcases offer_eq_or s value with h | h
  · rw [h]
  · rw [h, prune_m]

/-! ## The two bounds -/

/-- Every counter understates the multiplicity of its value, by at most the error floor. -/
def Summarises (s : ColumnSketch) (values : List Text) : Prop :=
  ∀ x, s.counters.weight x ≤ values.count x ∧ values.count x ≤ s.counters.weight x + s.errorFloor

/-- The counters and what pruning took from more than `bound` of them are paid for by the values. -/
def PaidBy (bound : Nat) (s : ColumnSketch) (values : List Text) : Prop :=
  bound ≤ s.m ∧ s.counters.total + s.errorFloor * (bound + 1) ≤ values.length

theorem Summarises.prune (h : s.Summarises values) : s.prune.Summarises values := by
  obtain ⟨cut, hfloor, hweight, -⟩ := exists_cut_prune s
  intro x
  obtain ⟨hlow, hhigh⟩ := h x
  rw [hweight, hfloor]
  omega

theorem PaidBy.prune (h : s.PaidBy bound values) : s.prune.PaidBy bound values := by
  obtain ⟨cut, hfloor, -, htotal⟩ := exists_cut_prune s
  obtain ⟨hm, hpaid⟩ := h
  refine ⟨by rw [prune_m]; exact hm, ?_⟩
  have hcut : cut * (bound + 1) ≤ (s.m + 1) * cut := by
    rw [Nat.mul_comm cut]
    exact Nat.mul_le_mul_right cut (by omega)
  rw [hfloor, Nat.add_mul]
  omega

theorem Summarises.fromExact (m : Nat) (exact : SortedMap Text Nat) (rows : Nat) :
    (fromExact m exact rows).Summarises exact.elements := by
  refine Summarises.prune fun x => ?_
  rw [count_elements]
  exact ⟨le_rfl, le_rfl⟩

theorem PaidBy.fromExact {m : Nat} (hbound : bound ≤ max m 1) (exact : SortedMap Text Nat) (rows : Nat) :
    (fromExact m exact rows).PaidBy bound exact.elements := by
  refine PaidBy.prune ⟨hbound, ?_⟩
  rw [length_elements]
  simp

theorem Summarises.offer (h : s.Summarises values) (value : Text) : (s.offer value).Summarises (value :: values) := by
  have hraised : Summarises ⟨s.counters.bump value 1, s.errorFloor, s.m, s.rows + 1⟩ (value :: values) := by
    intro x
    obtain ⟨hlow, hhigh⟩ := h x
    rw [weight_bump, List.count_cons]
    by_cases hx : x = value
    · simp only [hx, if_pos, beq_self_eq_true]
      rw [hx] at hlow hhigh
      omega
    · have hne : (value == x) = false := by simpa using Ne.symm hx
      simp only [if_neg hx, hne]
      simpa using ⟨hlow, hhigh⟩
  rcases offer_eq_or s value with heq | heq
  · rw [heq]
    exact hraised
  · rw [heq]
    exact hraised.prune

theorem PaidBy.offer (h : s.PaidBy bound values) (value : Text) : (s.offer value).PaidBy bound (value :: values) := by
  have hraised : PaidBy bound ⟨s.counters.bump value 1, s.errorFloor, s.m, s.rows + 1⟩ (value :: values) := by
    refine ⟨h.1, ?_⟩
    have hpaid := h.2
    rw [total_bump, List.length_cons]
    dsimp only
    omega
  rcases offer_eq_or s value with heq | heq
  · rw [heq]
    exact hraised
  · rw [heq]
    exact hraised.prune

/-- A merged sketch summarises the values of both. -/
theorem Summarises.merge (h : s.Summarises values) (h' : other.Summarises values') :
    (s.merge other).Summarises (values ++ values') := by
  refine Summarises.prune fun x => ?_
  obtain ⟨hlow, hhigh⟩ := h x
  obtain ⟨hlow', hhigh'⟩ := h' x
  rw [weight_add, List.count_append]
  dsimp only
  omega

/-- The error of a merged sketch is paid for by the values of both. -/
theorem PaidBy.merge (h : s.PaidBy bound values) (h' : other.PaidBy bound values') :
    (s.merge other).PaidBy bound (values ++ values') := by
  refine PaidBy.prune ⟨le_trans h.1 (le_max_left _ _), ?_⟩
  have hpaid := h.2
  have hpaid' := h'.2
  rw [total_add, List.length_append, Nat.add_mul]
  omega

end LogLake.ColumnSketch
