import LogLake.Lib.Tally

/-!
# Counters that understate by a known amount

Cutting a map of counts down to its largest entries: the count at a given rank is taken off every
entry, and what is left with nothing is dropped.
-/

namespace List

/-- At most `n` elements are above the `n`-th of a descending list. -/
theorem countP_getD_lt_le {l : List Nat} (h : l.Pairwise (· ≥ ·)) (n : Nat) :
    l.countP (fun x => decide (l.getD n 0 < x)) ≤ n := by
  induction l generalizing n with
  | nil => simp
  | cons a l ih =>
    cases n with
    | zero =>
      have hle : ∀ x ∈ a :: l, ¬a < x := by
        intro x hx
        rcases mem_cons.mp hx with rfl | hx
        · exact lt_irrefl x
        · exact not_lt_of_ge (rel_of_pairwise_cons h hx)
      simpa using hle
    | succ n =>
      have hrest := ih h.of_cons n
      simp only [getD_cons_succ, countP_cons]
      split <;> omega

/-- The first `n + 1` elements are cut by the `n`-th in full. -/
theorem mul_getD_le_sum_min {l : List Nat} (h : l.Pairwise (· ≥ ·)) (n : Nat) :
    (n + 1) * l.getD n 0 ≤ (l.map fun x => min x (l.getD n 0)).sum := by
  induction l generalizing n with
  | nil => simp
  | cons a l ih =>
    cases n with
    | zero => simp
    | succ n =>
      have hrest := ih h.of_cons n
      have hle : l.getD n 0 ≤ a := by
        rw [getD_eq_getElem?_getD]
        cases hget : l[n]? with
        | none => simp
        | some x => simpa using rel_of_pairwise_cons h (mem_of_getElem? hget)
      simp only [getD_cons_succ, map_cons, sum_cons, Nat.min_eq_right hle]
      rw [Nat.succ_mul]
      omega

/-- What is cut off and what is left make the sum. -/
theorem sum_map_sub_add_min (l : List Nat) (cut : Nat) : (l.map (· - cut)).sum + (l.map (min · cut)).sum = l.sum := by
  induction l with
  | nil => rfl
  | cons a l ih =>
    simp only [map_cons, sum_cons]
    omega

end List

namespace SortedMap

variable {κ : Type*} [LinearOrder κ] (m : SortedMap κ Nat)

/-- The count of a key, nothing when it is absent. -/
def weight (k : κ) : Nat := (m.get? k).getD 0

def total : Nat := (m.entries.map Prod.snd).sum

/-- The keys, each as often as it is counted. -/
def elements : List κ := m.entries.flatMap fun e => List.replicate e.2 e.1

/-- Take a cut off every count, and drop what is left with nothing. -/
def lower (cut : Nat) : SortedMap κ Nat where
  entries := (m.entries.map fun e => (e.1, e.2 - cut)).filter fun e => decide (0 < e.2)
  sorted := by
    have hmap : (m.entries.map fun e => (e.1, e.2 - cut)).Pairwise fun a b => a.1 < b.1 := List.pairwise_map.mpr m.sorted
    exact hmap.filter _

/-- The count at a rank, the largest being at rank zero. -/
def nthLargest (n : Nat) : Nat := ((m.entries.map Prod.snd).insertionSort (· ≥ ·)).getD n 0

variable {m m' : SortedMap κ Nat} {k : κ} {cut n : Nat}

/-! ## Counts of one key -/

/-- The weight of a key is that of its entry. -/
theorem weight_eq_of_mem {v : Nat} (h : (k, v) ∈ m.entries) : m.weight k = v := by
  rw [weight, get?_eq_some_iff.mpr h, Option.getD_some]

/-- A key without an entry has no weight. -/
theorem weight_eq_zero (h : ∀ v, (k, v) ∉ m.entries) : m.weight k = 0 := by
  cases hget : m.get? k with
  | none => rw [weight, hget, Option.getD_none]
  | some v => exact absurd (get?_eq_some_iff.mp hget) (h v)

variable (m : SortedMap κ Nat)

/-- A raised count raises the weight of its key alone. -/
theorem weight_bump (k k' : κ) (n : Nat) : (m.bump k n).weight k' = m.weight k' + if k' = k then n else 0 := by
  rw [weight, bump, get?_upsert]
  by_cases hk : k' = k
  · simp [hk, weight]
  · simp [hk, weight]

theorem weight_add (m m' : SortedMap κ Nat) (k : κ) : (m.add m').weight k = m.weight k + m'.weight k := by
  rw [weight, get?_add, weight, weight]
  cases m'.get? k <;> simp

/-- Every weight is lowered by the cut. -/
theorem weight_lower (cut : Nat) (k : κ) : (m.lower cut).weight k = m.weight k - cut := by
  have hmem : ∀ v, (k, v) ∈ (m.lower cut).entries ↔ 0 < v ∧ ∃ w, (k, w) ∈ m.entries ∧ w - cut = v := by
    intro v
    simp only [lower, List.mem_filter, List.mem_map, decide_eq_true_eq, Prod.mk.injEq]
    constructor
    · rintro ⟨⟨⟨k', w⟩, hw, rfl, rfl⟩, hpos⟩
      exact ⟨hpos, w, hw, rfl⟩
    · rintro ⟨hpos, w, hw, rfl⟩
      exact ⟨⟨(k, w), hw, rfl, rfl⟩, hpos⟩
  cases hget : m.get? k with
  | none =>
    have hnone : ∀ w, (k, w) ∉ m.entries := fun w hw => by
      rw [get?_eq_some_iff.mpr hw] at hget
      cases hget
    rw [weight_eq_zero hnone, Nat.zero_sub]
    refine weight_eq_zero fun v hv => ?_
    obtain ⟨-, w, hw, -⟩ := (hmem v).mp hv
    exact hnone w hw
  | some w =>
    have hw := get?_eq_some_iff.mp hget
    rw [weight_eq_of_mem hw]
    by_cases hpos : 0 < w - cut
    · exact weight_eq_of_mem ((hmem _).mpr ⟨hpos, w, hw, rfl⟩)
    · rw [Nat.eq_zero_of_not_pos hpos]
      refine weight_eq_zero fun v hv => ?_
      obtain ⟨hv, w', hw', hsub⟩ := (hmem v).mp hv
      have hsame : w' = w := by rw [← weight_eq_of_mem hw', weight_eq_of_mem hw]
      omega

/-! ## Totals -/

@[simp] theorem total_empty : (empty : SortedMap κ Nat).total = 0 := rfl

/-- A raised entry raises the sum by as much. -/
theorem sum_upsertEntries (k : κ) (n : Nat) {l : List (κ × Nat)} :
    ((upsertEntries k (fun v => v.getD 0 + n) l).map Prod.snd).sum = (l.map Prod.snd).sum + n := by
  induction l with
  | nil => simp [upsertEntries]
  | cons e l ih =>
    rw [upsertEntries]
    split
    · simp
      omega
    · split
      · simp
        omega
      · simp only [List.map_cons, List.sum_cons, ih]
        omega

/-- A raised count raises the total by as much. -/
theorem total_bump (k : κ) (n : Nat) : (m.bump k n).total = m.total + n := sum_upsertEntries k n

/-- Raised counts raise the total by their sum. -/
theorem total_foldl_bump (l : List (κ × Nat)) (m : SortedMap κ Nat) :
    (l.foldl (fun m e => m.bump e.1 e.2) m).total = m.total + (l.map Prod.snd).sum := by
  induction l generalizing m with
  | nil => rfl
  | cons e l ih =>
    rw [List.foldl_cons, ih, total_bump, List.map_cons, List.sum_cons, Nat.add_assoc]

theorem total_add (m m' : SortedMap κ Nat) : (m.add m').total = m.total + m'.total := total_foldl_bump m'.entries m

/-- The total of a tally is the number of keys. -/
theorem total_tally (l : List κ) : (tally l).total = l.length := by
  have hfold : ∀ m : SortedMap κ Nat, (l.foldl (fun m k => m.bump k 1) m).total = m.total + l.length := by
    induction l with
    | nil => exact fun m => rfl
    | cons k l ih =>
      intro m
      rw [List.foldl_cons, ih, total_bump, List.length_cons]
      omega
  rw [tally, hfold, total_empty, Nat.zero_add]

/-- The cut takes at most itself from every entry. -/
theorem total_lower_add_min (cut : Nat) :
    (m.lower cut).total + ((m.entries.map Prod.snd).map (min · cut)).sum = m.total := by
  have hzero : ∀ l : List (κ × Nat), ((l.filter fun e => decide (0 < e.2)).map Prod.snd).sum = (l.map Prod.snd).sum := by
    intro l
    induction l with
    | nil => rfl
    | cons e l ih =>
      by_cases hpos : 0 < e.2
      · simp [hpos, ih]
      · simp [hpos, ih]
        omega
  have hfuse : (m.entries.map fun e => (e.1, e.2 - cut)).map Prod.snd = (m.entries.map Prod.snd).map (· - cut) := by
    simp only [List.map_map]
    rfl
  have hsplit := List.sum_map_sub_add_min (m.entries.map Prod.snd) cut
  rw [total, lower, hzero, hfuse, total, hsplit]

/-- Every key is among the elements as often as its weight. -/
theorem count_elements [BEq κ] [LawfulBEq κ] (m : SortedMap κ Nat) (k : κ) : m.elements.count k = m.weight k := by
  obtain ⟨l, hl⟩ := m
  rw [elements]
  induction l with
  | nil => rfl
  | cons e l ih =>
    have hrest := ih hl.of_cons
    rw [List.flatMap_cons, List.count_append, List.count_replicate, hrest]
    by_cases hk : e.1 = k
    · have habsent : ∀ v, (k, v) ∉ l := fun v hv => (List.rel_of_pairwise_cons hl hv).ne hk
      have hhead : (⟨e :: l, hl⟩ : SortedMap κ Nat).weight k = e.2 :=
        weight_eq_of_mem (List.mem_cons.mpr (.inl (Prod.ext hk.symm rfl)))
      have htail : (⟨l, hl.of_cons⟩ : SortedMap κ Nat).weight k = 0 := weight_eq_zero habsent
      simp [hk, hhead, htail]
    · have hskip : (⟨e :: l, hl⟩ : SortedMap κ Nat).weight k = (⟨l, hl.of_cons⟩ : SortedMap κ Nat).weight k := by
        simp [weight, get?, hk]
      simp [hk, hskip]

/-- There are as many elements as the total. -/
theorem length_elements : m.elements.length = m.total := by
  rw [elements, List.length_flatMap, total]
  simp

/-! ## Cutting down to the largest -/

/-- Lowered by the `n`-th largest count, at most `n` entries stay. -/
theorem length_lower_nthLargest (n : Nat) : (m.lower (m.nthLargest n)).entries.length ≤ n := by
  have hsorted := List.pairwise_insertionSort (· ≥ ·) (m.entries.map Prod.snd)
  have hperm := List.perm_insertionSort (· ≥ ·) (m.entries.map Prod.snd)
  have hcount := List.countP_getD_lt_le hsorted n
  rw [hperm.countP_eq, List.countP_map] at hcount
  rw [lower, ← List.countP_eq_length_filter, List.countP_map]
  refine le_trans (List.countP_mono_left fun e _ he => ?_) hcount
  simp only [Function.comp_apply, decide_eq_true_eq] at he ⊢
  change m.nthLargest n < e.2
  omega

/-- The cut by the `n`-th largest count takes it `n + 1` times. -/
theorem total_lower_nthLargest (n : Nat) : (m.lower (m.nthLargest n)).total + (n + 1) * m.nthLargest n ≤ m.total := by
  have hsorted := List.pairwise_insertionSort (· ≥ ·) (m.entries.map Prod.snd)
  have hperm := List.perm_insertionSort (· ≥ ·) (m.entries.map Prod.snd)
  have hmin := List.mul_getD_le_sum_min hsorted n
  have hsum := (hperm.map (min · (m.nthLargest n))).sum_eq
  have hsplit := total_lower_add_min m (m.nthLargest n)
  change (n + 1) * m.nthLargest n ≤ _ at hmin
  rw [← hsum] at hsplit
  have hsame : (((m.entries.map Prod.snd).insertionSort (· ≥ ·)).map fun x => min x (m.nthLargest n)).sum ≥
      (n + 1) * m.nthLargest n := hmin
  omega

end SortedMap
