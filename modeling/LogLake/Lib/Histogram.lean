import LogLake.Lib.MisraGries

/-!
# Re-bucketing a tally

Counts that were taken by one key can be counted again by another key that the first one determines,
entry by entry.
-/

namespace SortedMap

open List Prod

variable {κ μ : Type*} [LinearOrder κ] [LinearOrder μ]

/-- The weight of a key in a tally is how often it occurs. -/
theorem weight_tally (l : List κ) (k : κ) : (tally l).weight k = l.count k := by
  rw [weight, get?_tally]
  split
  · rfl
  · next h => rw [count_eq_zero_of_not_mem h, Option.getD_none]

/-- A tally has no zero entries. -/
theorem pos_of_mem_tally {l : List κ} {e : κ × Nat} (h : e ∈ (tally l).entries) : 0 < e.2 := by
  have hget := get?_eq_some_iff.mpr (show (e.1, e.2) ∈ (tally l).entries from h)
  rw [get?_tally] at hget
  split at hget
  · next hmem => exact Option.some.inj hget ▸ count_pos_iff.mpr hmem
  · cases hget

/-- A tally has an entry for every key that occurs. -/
theorem exists_mem_tally {l : List κ} {k : κ} (h : k ∈ l) : ∃ n, (k, n) ∈ (tally l).entries :=
  ⟨l.count k, get?_eq_some_iff.mp (by rw [get?_tally, if_pos h])⟩

/-- More keys change the tally. -/
theorem tally_append_eq_iff (l l' : List κ) : tally (l ++ l') = tally l ↔ l' = [] := by
  constructor
  · intro h
    have htotal := congrArg total h
    rw [total_tally, total_tally, length_append] at htotal
    exact eq_nil_of_length_eq_zero (by omega)
  · rintro rfl
    rw [append_nil]

/-- To raise a count is to tally the key more often. -/
theorem tally_bump (l : List κ) (k : κ) {n : Nat} (h : 0 < n) : (tally l).bump k n = tally (l ++ List.replicate n k) := by
  refine ext_get? fun k' => ?_
  rw [bump, get?_upsert, get?_tally, get?_tally, get?_tally, count_append, count_replicate]
  by_cases hk : k' = k
  · subst hk
    by_cases hmem : k' ∈ l
    · simp [hmem]
    · simp [hmem, count_eq_zero_of_not_mem, h.ne']
  · have hne : ¬k = k' := fun heq => hk heq.symm
    simp [hk, hne, mem_replicate]

omit [LinearOrder κ] in
/-- To raise the counts of the images of entries is to tally the images. -/
theorem foldl_bump_tally (g : κ → μ) (es : List (κ × Nat)) (hpos : ∀ e ∈ es, 0 < e.2) (l : List μ) :
    es.foldl (fun m e => m.bump (g e.1) e.2) (tally l) =
      tally (l ++ (es.flatMap fun e => List.replicate e.2 e.1).map g) := by
  induction es generalizing l with
  | nil => simp
  | cons e es ih =>
    rw [foldl_cons, tally_bump l _ (hpos e mem_cons_self), ih fun e' he' => hpos e' (mem_cons_of_mem _ he'),
      flatMap_cons, map_append, map_replicate, append_assoc]

/-- The elements of a tally kept by their keys are the keys kept. -/
theorem elements_keep_tally_perm (l : List κ) (p : κ → Bool) : ((tally l).keep p).elements.Perm (l.filter p) := by
  refine perm_iff_count.mpr fun k => ?_
  rw [count_elements, weight, get?_keep]
  by_cases hp : p k
  · rw [if_pos hp, count_filter hp]
    exact weight_tally l k
  · have hnot : k ∉ l.filter p := fun hmem => hp (mem_filter.mp hmem).2
    rw [if_neg hp, count_eq_zero_of_not_mem hnot]
    rfl

/-- Regrouping the kept entries of a tally regroups the kept keys. -/
theorem foldl_bump_filter_tally (g : κ → μ) (p : κ → Bool) (l : List κ) (l' : List μ) :
    ((tally l).entries.filter fun e => p e.1).foldl (fun m e => m.bump (g e.1) e.2) (tally l') =
      tally (l' ++ (l.filter p).map g) := by
  rw [foldl_bump_tally g _ fun e he => pos_of_mem_tally (mem_filter.mp he).1]
  exact tally_perm (((elements_keep_tally_perm l p).map g).append_left l')

/-! ## Gathering -/

section Gather

variable {β : Type*}

/-- The elements gathered under their keys. -/
def gather (l : List (κ × β)) : SortedMap κ (List β) :=
  l.foldl (fun m e => m.upsert e.1 fun v => v.getD [] ++ [e.2]) empty

/-- To append to the value of a key adds one element to those of the kept keys, if it is kept. -/
theorem flatMap_filter_upsertEntries_perm (k : κ) (b : β) (p : κ → Bool) (l : List (κ × List β)) :
    (((upsertEntries k (fun v => v.getD [] ++ [b]) l).filter fun e => p e.1).flatMap snd).Perm
      (((l.filter fun e => p e.1).flatMap snd) ++ if p k then [b] else []) := by
  induction l with
  | nil => cases hp : p k <;> simp [upsertEntries, hp]
  | cons e rest ih =>
    obtain ⟨k', v⟩ := e
    rw [upsertEntries]
    split
    · cases hp : p k
      · simp [hp]
      · simpa [hp] using (perm_append_singleton b _).symm
    · split
      · next heq =>
        subst heq
        cases hp : p k
        · simp [hp]
        · simpa [hp] using ((perm_append_singleton b _).symm).append_left v
      · cases hp' : p k'
        · simpa [hp'] using ih
        · simpa [hp'] using ih.append_left v

/-- The gathered values of the kept keys are the values of the kept pairs. -/
theorem flatMap_filter_gather_perm (l : List (κ × β)) (p : κ → Bool) :
    ((((gather l).entries.filter fun e => p e.1)).flatMap snd).Perm ((l.filter fun e => p e.1).map snd) := by
  have hfold : ∀ (l : List (κ × β)) (m : SortedMap κ (List β)),
      (((l.foldl (fun m e => m.upsert e.1 fun v => v.getD [] ++ [e.2]) m).entries.filter fun e => p e.1).flatMap
        snd).Perm (((m.entries.filter fun e => p e.1).flatMap snd) ++ (l.filter fun e => p e.1).map snd) := by
    intro l
    induction l with
    | nil => intro m; simp
    | cons e l ih =>
      intro m
      rw [foldl_cons]
      refine (ih _).trans ?_
      refine ((flatMap_filter_upsertEntries_perm e.1 e.2 p m.entries).append_right _).trans ?_
      rw [append_assoc]
      cases hp : p e.1 <;> simp [hp]
  exact hfold l empty

end Gather

end SortedMap
