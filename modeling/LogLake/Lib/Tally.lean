import LogLake.Lib.Ordered

/-!
# Tallies

A tally counts how often each key occurs in a list, as a map built by raising one entry per element.
-/

namespace SortedMap

open List

variable {κ ν : Type*} [LinearOrder κ]

/-- Two maps with the same values are equal. -/
theorem ext_get? {m m' : SortedMap κ ν} (h : ∀ k, m.get? k = m'.get? k) : m = m' := by
  obtain ⟨l, hl⟩ := m
  obtain ⟨l', hl'⟩ := m'
  have hmem : ∀ e, e ∈ l ↔ e ∈ l' := by
    intro ⟨k, v⟩
    have hk := h k
    rw [← get?_eq_some_iff (m := ⟨l, hl⟩), ← get?_eq_some_iff (m := ⟨l', hl'⟩), hk]
  have hnodup : ∀ {l : List (κ × ν)}, l.Pairwise (fun a b => a.1 < b.1) → l.Nodup :=
    fun hp => hp.imp fun hlt heq => hlt.ne (congrArg Prod.fst heq)
  have hperm : l.Perm l' := (perm_ext_iff_of_nodup (hnodup hl) (hnodup hl')).mpr hmem
  have heq : l = l' := hperm.eq_of_pairwise (fun a b _ _ hab hba => absurd hba hab.asymm) hl hl'
  subst heq
  rfl

/-- Raise the count of a key by `n`. -/
def bump (m : SortedMap κ Nat) (k : κ) (n : Nat) : SortedMap κ Nat := m.upsert k fun v => v.getD 0 + n

variable (l : List κ)

def tally : SortedMap κ Nat := l.foldl (fun m k => m.bump k 1) empty

/-- Add the counts of a second map to those of the first. -/
def add (m m' : SortedMap κ Nat) : SortedMap κ Nat := m'.entries.foldl (fun m e => m.bump e.1 e.2) m

/-- The sum of the counts of the keys with a property. -/
def sumWith (m : SortedMap κ Nat) (p : κ → Bool) : Nat := ((m.entries.filter fun e => p e.1).map Prod.snd).sum

/-- Counting on from a map adds how often each key occurs. -/
theorem get?_foldl_bump_one (m : SortedMap κ Nat) (k : κ) : (l.foldl (fun m k => m.bump k 1) m).get? k =
      if k ∈ l then some ((m.get? k).getD 0 + l.count k) else m.get? k := by
  induction l generalizing m with
  | nil => simp
  | cons a l ih =>
    rw [foldl_cons, ih, bump, get?_upsert]
    by_cases hka : k = a
    · subst hka
      by_cases hkl : k ∈ l
      · simp [hkl, Nat.add_assoc, Nat.add_comm]
      · simp [hkl, count_eq_zero_of_not_mem hkl]
    · simp [hka, count_cons_of_ne (Ne.symm hka)]

/-- The tally of a key is how often it occurs, and nothing when it does not. -/
theorem get?_tally (k : κ) : (tally l).get? k = if k ∈ l then some (l.count k) else none := by
  rw [tally, get?_foldl_bump_one]
  simp [empty, get?]

/-- Raising counts at different keys adds each one to what was there. -/
theorem get?_foldl_bump (l : List (κ × Nat)) (hl : l.Pairwise fun a b => a.1 < b.1) (m : SortedMap κ Nat) (k : κ) :
    (l.foldl (fun m e => m.bump e.1 e.2) m).get? k = match (l.find? fun e => decide (e.1 = k)).map Prod.snd with
      | some n => some ((m.get? k).getD 0 + n)
      | none => m.get? k := by
  induction l generalizing m with
  | nil => rfl
  | cons e l ih =>
    rw [foldl_cons, ih hl.of_cons, bump, get?_upsert]
    by_cases hk : e.1 = k
    · have hnone := find?_eq_none_of_lt (k := k) (l := l) fun e' he' => hk ▸ rel_of_pairwise_cons hl he'
      rw [hnone, List.find?_cons_of_pos (by simpa using hk)]
      simp [hk]
    · rw [List.find?_cons_of_neg (by simpa using hk)]
      simp [Ne.symm hk]

/-- The count of a key in a sum. -/
theorem get?_add (m m' : SortedMap κ Nat) (k : κ) : (m.add m').get? k = match m'.get? k with
    | some n => some ((m.get? k).getD 0 + n)
    | none => m.get? k :=
  get?_foldl_bump m'.entries m'.sorted m k

/-- The tally of two lists is the sum of their tallies. -/
theorem add_tally (l l' : List κ) : (tally l).add (tally l') = tally (l ++ l') := by
  refine ext_get? fun k => ?_
  rw [get?_add, get?_tally, get?_tally, get?_tally, count_append]
  by_cases hl : k ∈ l <;> by_cases hl' : k ∈ l' <;> simp [hl, hl', count_eq_zero_of_not_mem]

/-- A tally does not depend on the order. -/
theorem tally_perm {l l' : List κ} (h : l.Perm l') : tally l = tally l' := by
  refine ext_get? fun k => ?_
  rw [get?_tally, get?_tally, h.count_eq k]
  simp only [h.mem_iff]

/-- The entries of a tally are the distinct keys with their counts. -/
theorem entries_tally_perm : (tally l).entries.Perm (l.dedup.map fun k => (k, l.count k)) := by
  refine (perm_ext_iff_of_nodup ?_ ?_).mpr ?_
  · exact (tally l).sorted.imp fun hlt heq => hlt.ne (congrArg Prod.fst heq)
  · exact (nodup_dedup l).map fun a b hab => (Prod.mk.inj hab).1
  · intro ⟨k, n⟩
    rw [← get?_eq_some_iff, get?_tally, mem_map]
    simp only [mem_dedup, Prod.mk.injEq]
    constructor
    · intro h
      split at h
      · next hk => exact ⟨k, hk, rfl, Option.some.inj h⟩
      · cases h
    · rintro ⟨k', hk', rfl, rfl⟩
      rw [if_pos hk']

/-- The counts of the keys that meet a condition add up to the number of such elements. -/
theorem sumWith_tally (p : κ → Bool) : (tally l).sumWith p = l.countP p := by
  have hperm := ((entries_tally_perm l).filter fun e => p e.1).map Prod.snd
  rw [sumWith, hperm.sum_eq, filter_map, map_map]
  exact sum_map_count_dedup_filter_eq_countP p l

/-- A tally has an entry for each distinct key that meets a condition. -/
theorem length_filter_entries_tally (p : κ → Bool) :
    ((tally l).entries.filter fun e => p e.1).length = (l.dedup.filter p).length := by
  rw [((entries_tally_perm l).filter fun e => p e.1).length_eq, filter_map, length_map]
  rfl

/-- A tally has an entry for each distinct key. -/
theorem length_entries_tally : (tally l).entries.length = l.dedup.length := by
  rw [(entries_tally_perm l).length_eq, length_map]

/-- The distinct elements of two lists are those of the first and the new ones of the second. -/
theorem length_dedup_append (l l' : List κ) :
    (l ++ l').dedup.length = l.dedup.length + (l'.dedup.filter fun k => decide (k ∉ l)).length := by
  have hperm : (l ++ l').dedup.Perm (l.dedup ++ l'.dedup.filter fun k => decide (k ∉ l)) := by
    refine (perm_ext_iff_of_nodup (nodup_dedup _) ?_).mpr fun k => ?_
    · refine nodup_append'.mpr ⟨nodup_dedup l, (nodup_dedup l').filter _, fun k hk hk' => ?_⟩
      exact of_decide_eq_true (mem_filter.mp hk').2 (mem_dedup.mp hk)
    · simp only [mem_dedup, mem_append, mem_filter, decide_eq_true_eq]
      tauto
  rw [hperm.length_eq, length_append]

end SortedMap
