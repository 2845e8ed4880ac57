import Mathlib

/-!
# Tables with a primary key

The rows of a table in some order, no two with the same key.
-/

/-- A table: its rows, no two with the same key. -/
structure KeyedTable {ρ κ : Type*} (key : ρ → κ) where
  rows : List ρ
  nodup : (rows.map key).Nodup

namespace KeyedTable

open List

variable {ρ κ : Type*} {key : ρ → κ}

def empty : KeyedTable key := ⟨[], nodup_nil⟩

/-- Set the columns of the rows that meet the condition; the key is not one of them. -/
def update (t : KeyedTable key) (p : ρ → Prop) [DecidablePred p] (set : ρ → ρ) (hkey : ∀ r, key (set r) = key r) :
    KeyedTable key where
  rows := t.rows.map fun r => if p r then set r else r
  nodup := by
    have hkeys : key ∘ (fun r => if p r then set r else r) = key := by
      funext r
      simp only [Function.comp_apply]
      split
      · exact hkey r
      · rfl
    rw [map_map, hkeys]
    exact t.nodup

def retain (t : KeyedTable key) (p : ρ → Prop) [DecidablePred p] : KeyedTable key where
  rows := t.rows.filter p
  nodup := t.nodup.sublist (filter_sublist.map key)

variable [DecidableEq κ]

def row (t : KeyedTable key) (k : κ) : Option ρ := t.rows.find? fun r => key r = k

variable {t : KeyedTable key} {k : κ} {r : ρ}

/-- The row of a key is the row that has it. -/
theorem row_eq_some : t.row k = some r ↔ r ∈ t.rows ∧ key r = k := by
  constructor
  · intro h
    exact ⟨mem_of_find?_eq_some h, by simpa using List.find?_some h⟩
  · rintro ⟨hmem, rfl⟩
    have hsome : (t.row (key r)).isSome := List.find?_isSome.mpr ⟨r, hmem, by simp⟩
    obtain ⟨other, hother⟩ := Option.isSome_iff_exists.mp hsome
    have hkey : key other = key r := by simpa using List.find?_some hother
    rw [hother, inj_on_of_nodup_map t.nodup (mem_of_find?_eq_some hother) hmem hkey]

/-- A key has no row when no row has it. -/
theorem row_eq_none : t.row k = none ↔ ∀ r ∈ t.rows, key r ≠ k := by
  simp [row]

/-- Insert a row, unless its key is taken. -/
def insertNew (t : KeyedTable key) (r : ρ) : KeyedTable key :=
  if h : t.row (key r) = none then
    { rows := t.rows ++ [r]
      nodup := by
        rw [map_append, nodup_append]
        refine ⟨t.nodup, nodup_singleton _, ?_⟩
        rintro k hk _ hr rfl
        obtain ⟨other, hother, rfl⟩ := mem_map.mp hk
        rw [map_singleton, mem_singleton] at hr
        exact row_eq_none.mp h other hother hr }
  else t

/-- To set the rows that have the key of a row that meets the condition is to set the rows that meet it. -/
theorem update_matched (t : KeyedTable key) (p : ρ → Prop) [DecidablePred p] (set : ρ → ρ)
    (hkey : ∀ r, key (set r) = key r) :
    t.update (fun r => key r ∈ (t.rows.filter fun r => p r).map key) set hkey = t.update p set hkey := by
  have hmatched : ∀ r ∈ t.rows, (key r ∈ (t.rows.filter fun r => p r).map key ↔ p r) := by
    intro r hr
    constructor
    · intro h
      obtain ⟨other, hother, hsame⟩ := mem_map.mp h
      rw [mem_filter, decide_eq_true_eq] at hother
      exact inj_on_of_nodup_map t.nodup hother.1 hr hsame ▸ hother.2
    · exact fun hp => mem_map.mpr ⟨r, mem_filter.mpr ⟨hr, decide_eq_true hp⟩, rfl⟩
  unfold update
  congr 1
  refine map_congr_left fun r hr => ?_
  simp only [hmatched r hr]

theorem row_update (t : KeyedTable key) (p : ρ → Prop) [DecidablePred p] (set : ρ → ρ) (hkey : ∀ r, key (set r) = key r)
    (k : κ) : (t.update p set hkey).row k = (t.row k).map fun r => if p r then set r else r := by
  cases hrow : t.row k with
  | none =>
    rw [row_eq_none] at hrow
    rw [Option.map_none, row_eq_none]
    intro r hr
    obtain ⟨old, hold, rfl⟩ := mem_map.mp hr
    split
    · rw [hkey]
      exact hrow old hold
    · exact hrow old hold
  | some r =>
    obtain ⟨hmem, hk⟩ := row_eq_some.mp hrow
    rw [Option.map_some, row_eq_some]
    refine ⟨mem_map.mpr ⟨r, hmem, rfl⟩, ?_⟩
    split
    · rw [hkey, hk]
    · exact hk

variable {p : ρ → Prop} {set : ρ → ρ} {hkey : ∀ r, key (set r) = key r}

/-- A row that does not meet the condition is not updated. -/
theorem row_update_of_not [DecidablePred p] (hrow : t.row k = some r) (hp : ¬ p r) :
    (t.update p set hkey).row k = some r := by
  rw [row_update, hrow, Option.map_some, if_neg hp]

/-- A row that meets the condition is updated. -/
theorem row_update_of_pos [DecidablePred p] (hrow : t.row k = some r) (hp : p r) :
    (t.update p set hkey).row k = some (set r) := by
  rw [row_update, hrow, Option.map_some, if_pos hp]

/-- Keys whose row does not meet the condition keep it. -/
theorem row_update_of_forall_not [DecidablePred p] (h : ∀ r, t.row k = some r → ¬ p r) :
    (t.update p set hkey).row k = t.row k := by
  cases hrow : t.row k with
  | none => rw [row_update, hrow, Option.map_none]
  | some r => exact row_update_of_not hrow (h r hrow)

/-- A row after an update was there before or is an updated one. -/
theorem row_update_eq_some [DecidablePred p] {r' : ρ} (h : (t.update p set hkey).row k = some r') :
    t.row k = some r' ∨ ∃ r, t.row k = some r ∧ p r ∧ r' = set r := by
  rw [row_update] at h
  obtain ⟨r, hrow, hnew⟩ := Option.map_eq_some_iff.mp h
  split at hnew
  · next hp => exact Or.inr ⟨r, hrow, hp, hnew.symm⟩
  · exact Or.inl (by rw [hrow, hnew])

theorem key_of_row (h : t.row k = some r) : key r = k := (row_eq_some.mp h).2

/-- A row after an insert: the old one stays when the key was taken. -/
theorem row_insertNew (t : KeyedTable key) (r : ρ) (k : κ) :
    (t.insertNew r).row k = if key r = k then some ((t.row k).getD r) else t.row k := by
  unfold insertNew
  split
  · next hnone =>
    split
    · next hk =>
      subst hk
      rw [hnone, Option.getD_none, row_eq_some]
      exact ⟨by simp, rfl⟩
    · next hk => simp [row, hk]
  · next hsome =>
    split
    · next hk =>
      subst hk
      obtain ⟨other, hother⟩ := Option.ne_none_iff_exists'.mp hsome
      rw [hother, Option.getD_some]
    · rfl

/-- A row of a table of which some were retained. -/
theorem row_retain (t : KeyedTable key) (p : ρ → Prop) [DecidablePred p] (k : κ) :
    (t.retain p).row k = (t.row k).filter fun r => p r := by
  cases hrow : t.row k with
  | none =>
    rw [row_eq_none] at hrow
    rw [Option.filter_none, row_eq_none]
    exact fun r hr => hrow r (mem_of_mem_filter hr)
  | some r =>
    obtain ⟨hmem, hk⟩ := row_eq_some.mp hrow
    by_cases hp : p r
    · rw [Option.filter_some, if_pos (by simpa using hp), row_eq_some]
      exact ⟨mem_filter.mpr ⟨hmem, by simpa using hp⟩, hk⟩
    · rw [Option.filter_some, if_neg (by simpa using hp), row_eq_none]
      intro other hother hkey
      obtain ⟨hold, hpo⟩ := mem_filter.mp hother
      have heq : other = r := inj_on_of_nodup_map t.nodup hold hmem (hkey.trans hk.symm)
      exact hp (by simpa [heq] using hpo)

end KeyedTable
