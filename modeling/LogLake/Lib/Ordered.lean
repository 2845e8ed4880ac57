import Mathlib

/-!
# Ordered lists and maps

What the outcome of a comparison says of the compared elements, merging of ascending lists without repetition, removal of
adjacent repetitions, and finite maps kept as association lists in strictly ascending key order.
-/

namespace Comparison

variable {α : Type*} [LinearOrder α] [DecidableLT α] {a b : α}

/-- A comparison says less exactly when it is less. -/
@[simp] theorem isLT_cmp : (cmp a b).isLT = true ↔ a < b := by
  unfold cmp cmpUsing
  split
  · next h => simpa using h
  · next h => split <;> simpa using not_lt.mp h

/-- A comparison says greater exactly when it is greater. -/
@[simp] theorem isGT_cmp : (cmp a b).isGT = true ↔ b < a := by
  unfold cmp cmpUsing
  split
  · next h => simpa using h.le
  · split
    · next h => simpa using h
    · next h => simpa using not_lt.mp h

/-- A comparison says equal exactly when it is equal. -/
@[simp] theorem isEq_cmp : (cmp a b).isEq = true ↔ a = b := by
  unfold cmp cmpUsing
  split
  · next h => simpa using h.ne
  · split
    · next h => simpa using h.ne'
    · next h h' => simpa using le_antisymm (not_lt.mp h') (not_lt.mp h)

/-- A comparison says at most exactly when it is at most. -/
@[simp] theorem isLE_cmp : (cmp a b).isLE = true ↔ a ≤ b := by
  rw [← not_lt, ← isGT_cmp]
  cases cmp a b <;> decide

/-- A comparison says at least exactly when it is at least. -/
@[simp] theorem isGE_cmp : (cmp a b).isGE = true ↔ b ≤ a := by
  rw [← not_lt, ← isLT_cmp]
  cases cmp a b <;> decide

theorem isEq_cmp_eq_decide (a b : α) [Decidable (a = b)] : (cmp a b).isEq = decide (a = b) := by
  rw [Bool.eq_iff_iff, isEq_cmp, decide_eq_true_iff]

theorem isEq_cmp_comm_eq_decide (a b : α) [Decidable (a = b)] : (cmp b a).isEq = decide (a = b) := by
  rw [Bool.eq_iff_iff, isEq_cmp, decide_eq_true_iff, eq_comm]

end Comparison

namespace List

variable {α : Type*}

/-- Drop every element that equals its right neighbour. -/
def dedupAdjacent [DecidableEq α] : List α → List α
  | [] => []
  | [a] => [a]
  | a :: b :: l => if a = b then dedupAdjacent (b :: l) else a :: dedupAdjacent (b :: l)

variable {l : List α}

/-- No element is lost with the adjacent duplicates. -/
@[simp] theorem mem_dedupAdjacent [DecidableEq α] {x : α} : x ∈ l.dedupAdjacent ↔ x ∈ l := by
  fun_induction dedupAdjacent l with
  | case1 | case2 => rfl
  | case3 a l ih => rw [ih]; simp
  | case4 a b l _ ih => rw [mem_cons, ih, mem_cons (b := a)]

/-- The sorted distinct elements of a list. -/
def sortDedup [LinearOrder α] (l : List α) : List α := (l.insertionSort (· ≤ ·)).dedupAdjacent

/-- No element is lost by sorting without duplicates. -/
@[simp] theorem mem_sortDedup [LinearOrder α] {x : α} : x ∈ l.sortDedup ↔ x ∈ l := by
  rw [sortDedup, mem_dedupAdjacent, mem_insertionSort]

/-- A sorted list without adjacent duplicates is strictly sorted. -/
theorem pairwise_dedupAdjacent [LinearOrder α] (h : l.Pairwise (· ≤ ·)) : l.dedupAdjacent.Pairwise (· < ·) := by
  fun_induction dedupAdjacent l with
  | case1 => exact Pairwise.nil
  | case2 => exact pairwise_singleton ..
  | case3 a l ih => exact ih h.of_cons
  | case4 a b l hab ih =>
    refine pairwise_cons.mpr ⟨fun x hx => ?_, ih h.of_cons⟩
    have hle : a ≤ b := rel_of_pairwise_cons h mem_cons_self
    rcases mem_cons.mp (mem_dedupAdjacent.mp hx) with rfl | hx
    · exact lt_of_le_of_ne hle hab
    · exact (lt_of_le_of_ne hle hab).trans_le (rel_of_pairwise_cons h.of_cons hx)

/-- A list sorted without duplicates is strictly sorted. -/
theorem pairwise_sortDedup [LinearOrder α] (l : List α) : l.sortDedup.Pairwise (· < ·) :=
  pairwise_dedupAdjacent (pairwise_insertionSort (· ≤ ·) l)

/-- Merge two ascending lists, keeping one copy of a common element. -/
def unionSorted [LinearOrder α] : List α → List α → List α
  | [], b => b
  | a, [] => a
  | x :: a, y :: b =>
    if x < y then x :: unionSorted a (y :: b)
    else if y < x then y :: unionSorted (x :: a) b
    else x :: unionSorted a b
termination_by a b => a.length + b.length

/-- The union of two sorted lists has the elements of both. -/
@[simp] theorem mem_unionSorted [LinearOrder α] {x : α} {a b : List α} : x ∈ unionSorted a b ↔ x ∈ a ∨ x ∈ b := by
  fun_induction unionSorted a b with
  | case1 | case2 => simp
  | case3 y a z b _ ih => simp only [mem_cons, ih, or_assoc]
  | case4 y a z b _ _ ih => simp only [mem_cons, ih, or_assoc, or_left_comm]
  | case5 y a z b hnlt hngt ih =>
    obtain rfl := le_antisymm (not_lt.mp hngt) (not_lt.mp hnlt)
    simp only [mem_cons, ih]
    tauto

end List

/-- A finite map as its entries in strictly ascending key order. -/
structure SortedMap (κ ν : Type*) [LinearOrder κ] where
  entries : List (κ × ν)
  sorted : entries.Pairwise fun a b => a.1 < b.1

namespace SortedMap

variable {κ ν : Type*} [LinearOrder κ]

def empty : SortedMap κ ν := ⟨[], List.Pairwise.nil⟩

instance decidableEq [DecidableEq ν] : DecidableEq (SortedMap κ ν) := fun a b =>
  decidable_of_iff (a.entries = b.entries) ⟨fun h => by cases a; cases b; simpa using h, fun h => by rw [h]⟩

def get? (m : SortedMap κ ν) (k : κ) : Option ν := (m.entries.find? fun e => decide (e.1 = k)).map Prod.snd

def mapValues {μ : Type*} (f : ν → μ) (m : SortedMap κ ν) : SortedMap κ μ :=
  ⟨m.entries.map fun e => (e.1, f e.2), List.pairwise_map.mpr m.sorted⟩

/-- Set the value under a key from the value that was there, in an ascending entry list. -/
def upsertEntries (k : κ) (f : Option ν → ν) : List (κ × ν) → List (κ × ν)
  | [] => [(k, f none)]
  | (k', v) :: rest =>
    if k < k' then (k, f none) :: (k', v) :: rest
    else if k = k' then (k, f (some v)) :: rest
    else (k', v) :: upsertEntries k f rest

variable {k : κ} {f : Option ν → ν} {l : List (κ × ν)}

/-- An entry after an update is the updated one or an old one. -/
theorem of_mem_upsertEntries {e : κ × ν} (h : e ∈ upsertEntries k f l) : e.1 = k ∨ e ∈ l := by
  fun_induction upsertEntries k f l with
  | case1 => left; rw [List.mem_singleton.mp h]
  | case2 k' v rest _ =>
    rcases List.mem_cons.mp h with rfl | h
    · exact Or.inl rfl
    · exact Or.inr h
  | case3 v rest _ =>
    rcases List.mem_cons.mp h with rfl | h
    · exact Or.inl rfl
    · exact Or.inr (List.mem_cons_of_mem _ h)
  | case4 k' v rest _ _ ih =>
    rcases List.mem_cons.mp h with rfl | h
    · exact Or.inr List.mem_cons_self
    · exact (ih h).imp id (List.mem_cons_of_mem _)

/-- An update keeps the entries in order. -/
theorem pairwise_upsertEntries
    (h : l.Pairwise fun a b => a.1 < b.1) : (upsertEntries k f l).Pairwise fun a b => a.1 < b.1 := by
  fun_induction upsertEntries k f l with
  | case1 => exact List.pairwise_singleton ..
  | case2 k' v rest hlt =>
    refine List.pairwise_cons.mpr ⟨fun e he => ?_, h⟩
    rcases List.mem_cons.mp he with rfl | he
    · exact hlt
    · exact hlt.trans (List.rel_of_pairwise_cons h he)
  | case3 v rest _ =>
    exact List.pairwise_cons.mpr ⟨fun e he => List.rel_of_pairwise_cons h he, h.of_cons⟩
  | case4 k' v rest hn hne ih =>
    refine List.pairwise_cons.mpr ⟨fun e he => ?_, ih h.of_cons⟩
    rcases of_mem_upsertEntries he with he | he
    · exact he ▸ lt_of_le_of_ne (not_lt.mp hn) (Ne.symm hne)
    · exact List.rel_of_pairwise_cons h he

/-- Set the value under a key from the value that was there. -/
def upsert (m : SortedMap κ ν) (k : κ) (f : Option ν → ν) : SortedMap κ ν :=
  ⟨upsertEntries k f m.entries, pairwise_upsertEntries m.sorted⟩

/-- A key before all entries has none. -/
theorem find?_eq_none_of_lt (h : ∀ e ∈ l, k < e.1) : l.find? (fun e => decide (e.1 = k)) = none := by
  rw [List.find?_eq_none]
  intro e he
  simpa using (h e he).ne'

variable {m : SortedMap κ ν}

/-- A map has a value at a key exactly when it has that entry. -/
theorem get?_eq_some_iff {v : ν} : m.get? k = some v ↔ (k, v) ∈ m.entries := by
  obtain ⟨l, hl⟩ := m
  simp only [get?]
  induction l with
  | nil => simp
  | cons e l ih =>
    obtain ⟨k', v'⟩ := e
    rw [List.mem_cons]
    by_cases hk : k' = k
    · subst hk
      have hnot : (k', v) ∉ l := fun hm => (List.rel_of_pairwise_cons hl hm).false
      simp [List.find?_cons_of_pos, hnot, eq_comm]
    · rw [List.find?_cons_of_neg (by simpa using hk), ih hl.of_cons]
      simp [Ne.symm hk]

/-- The entries after an update: the new one, and the old ones of other keys. -/
theorem mem_entries_upsert {k' : κ} {v : ν} :
    (k', v) ∈ (m.upsert k f).entries ↔ (k' = k ∧ v = f (m.get? k)) ∨ (k' ≠ k ∧ (k', v) ∈ m.entries) := by
  obtain ⟨l, hl⟩ := m
  simp only [upsert, get?]
  induction l with
  | nil => simp [upsertEntries]
  | cons e l ih =>
    obtain ⟨k₀, v₀⟩ := e
    rw [upsertEntries]
    by_cases hlt : k < k₀
    · have hnone := find?_eq_none_of_lt (k := k) (l := (k₀, v₀) :: l) fun e he => by
        rcases List.mem_cons.mp he with rfl | he
        · exact hlt
        · exact hlt.trans (List.rel_of_pairwise_cons hl he)
      rw [if_pos hlt, hnone, Option.map_none]
      have hne : ∀ w, (k, w) ∉ (k₀, v₀) :: l := fun w hw => by
        have := List.find?_eq_none.mp hnone (k, w) hw
        simp at this
      grind
    · rw [if_neg hlt]
      by_cases hk : k = k₀
      · subst hk
        have hnot : ∀ w, (k, w) ∉ l := fun w hw => (List.rel_of_pairwise_cons hl hw).false
        rw [if_pos rfl, List.find?_cons_of_pos (by simp)]
        grind
      · rw [if_neg hk, List.find?_cons_of_neg (by simpa using Ne.symm hk), List.mem_cons, ih hl.of_cons, List.mem_cons]
        grind

variable (m : SortedMap κ ν)

theorem get?_upsert (k k' : κ) (f : Option ν → ν) [Decidable (k' = k)] :
    (m.upsert k f).get? k' = if k' = k then some (f (m.get? k)) else m.get? k' := by
  apply Option.ext
  intro v
  rw [get?_eq_some_iff, mem_entries_upsert]
  split
  · next h => simp [h, eq_comm]
  · next h => simp [h, get?_eq_some_iff]

def erase (k : κ) : SortedMap κ ν :=
  ⟨m.entries.filter fun e => decide (e.1 ≠ k), m.sorted.filter _⟩

theorem get?_erase (k k' : κ) [Decidable (k' = k)] : (m.erase k).get? k' = if k' = k then none else m.get? k' := by
  apply Option.ext
  intro v
  rw [get?_eq_some_iff, erase, List.mem_filter]
  split
  · next h => simp [h]
  · next h => simp [h, get?_eq_some_iff]

/-- Only the entries whose key has a property. -/
def keep (p : κ → Bool) : SortedMap κ ν := ⟨m.entries.filter fun e => p e.1, m.sorted.filter _⟩

theorem get?_keep (p : κ → Bool) (k : κ) : (m.keep p).get? k = if p k then m.get? k else none := by
  apply Option.ext
  intro v
  rw [get?_eq_some_iff, keep, List.mem_filter]
  split
  · next h => simp [h, get?_eq_some_iff]
  · next h => simp [h]

variable (p : ν → Bool)

def retain : SortedMap κ ν := ⟨m.entries.filter fun e => p e.2, m.sorted.filter _⟩

theorem get?_retain (k : κ) : (m.retain p).get? k = (m.get? k).filter p := by
  apply Option.ext
  intro v
  rw [get?_eq_some_iff, retain, List.mem_filter, Option.filter_eq_some_iff, get?_eq_some_iff]

/-- The keys whose value satisfies a predicate, in ascending order. -/
def keysWith : List κ := (m.entries.filter fun e => p e.2).map Prod.fst

variable {m p}

/-- The keys whose value meets a condition. -/
theorem mem_keysWith : k ∈ m.keysWith p ↔ ∃ v, m.get? k = some v ∧ p v = true := by
  simp only [keysWith, List.mem_map, List.mem_filter, get?_eq_some_iff]
  constructor
  · rintro ⟨⟨k', v⟩, ⟨hmem, hp⟩, rfl⟩
    exact ⟨v, hmem, hp⟩
  · rintro ⟨v, hmem, hp⟩
    exact ⟨(k, v), ⟨hmem, hp⟩, rfl⟩

/-- The keys of the entries are those with a value. -/
theorem mem_map_fst_entries : k ∈ m.entries.map Prod.fst ↔ (m.get? k).isSome = true := by
  simp only [List.mem_map, Option.isSome_iff_exists, get?_eq_some_iff]
  constructor
  · rintro ⟨⟨k', v⟩, hmem, rfl⟩
    exact ⟨v, hmem⟩
  · rintro ⟨v, hmem⟩
    exact ⟨(k, v), hmem, rfl⟩

variable {μ : Type*} (f : Option ν → μ → ν)

/-- Merge the entries of a second map into a first, each by the value already there. -/
def mergeWith (m : SortedMap κ ν) (m' : SortedMap κ μ) : SortedMap κ ν :=
  m'.entries.foldl (fun m e => m.upsert e.1 fun old => f old e.2) m

/-- Updates at different keys do not disturb each other. -/
theorem get?_foldl_upsert {l : List (κ × μ)} (hl : l.Pairwise fun a b => a.1 < b.1) (m : SortedMap κ ν) (k : κ) :
    (l.foldl (fun m e => m.upsert e.1 fun old => f old e.2) m).get? k =
      (((l.find? fun e => decide (e.1 = k)).map Prod.snd).map (f (m.get? k))).or (m.get? k) := by
  induction l generalizing m with
  | nil => simp
  | cons e l ih =>
    rw [List.foldl_cons, ih hl.of_cons, get?_upsert]
    by_cases hk : e.1 = k
    · have hnone := find?_eq_none_of_lt (k := k) (l := l) fun e' he' => hk ▸ List.rel_of_pairwise_cons hl he'
      rw [hnone, List.find?_cons_of_pos (by simpa using hk)]
      simp [hk]
    · rw [List.find?_cons_of_neg (by simpa using hk)]
      simp [Ne.symm hk]

theorem get?_mergeWith (m : SortedMap κ ν) (m' : SortedMap κ μ) (k : κ) :
    (m.mergeWith f m').get? k = ((m'.get? k).map (f (m.get? k))).or (m.get? k) :=
  get?_foldl_upsert f m'.sorted m k

end SortedMap
