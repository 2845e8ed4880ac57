import LogLake.Lib.Tally
import LogLake.Sql.Eval

/-!
# Counts per value of a column

A group-count footer holds, for one column, how many rows carry each non-NULL value, under the
value's rendering as a string, and how many rows are NULL there.
-/

namespace LogLake

open List

def renderBool (b : Bool) : Text := if b then "true".toList else "false".toList

/-- The footer key of a value: the cast-to-`Utf8` rendering of the types that are counted under a canonical key. -/
def renderKey : Value → Option Text
  | .bool b => some (renderBool b)
  | .int i => some (renderInt i)
  | .text s => some s
  | _ => none

structure GroupCounts where
  values : SortedMap Text Nat
  nulls : Nat
  deriving DecidableEq

/-- Count a column's keys, `none` for NULL. -/
def groupCounts (keys : List (Option Text)) : GroupCounts := ⟨SortedMap.tally (keys.filterMap id), keys.count none⟩

/-- Fold the counts of a second set of rows into those of a first. -/
def GroupCounts.fold (a b : GroupCounts) : GroupCounts := ⟨a.values.add b.values, a.nulls + b.nulls⟩

theorem fold_groupCounts (keys keys' : List (Option Text)) :
    (groupCounts keys).fold (groupCounts keys') = groupCounts (keys ++ keys') := by
  unfold groupCounts GroupCounts.fold
  rw [SortedMap.add_tally, filterMap_append, count_append]

/-- The counts depend only on the multiplicities. -/
theorem groupCounts_perm {keys keys' : List (Option Text)} (h : keys.Perm keys') : groupCounts keys = groupCounts keys' := by
  unfold groupCounts
  rw [SortedMap.tally_perm (h.filterMap id), h.count_eq none]

theorem length_filterMap_add_count_none (keys : List (Option Text)) :
    (keys.filterMap id).length + keys.count none = keys.length := by
  induction keys with
  | nil => rfl
  | cons k keys ih =>
    cases k with
    | none =>
      rw [filterMap_cons_none rfl, count_cons_self, length_cons, ← ih, Nat.add_assoc]
    | some v =>
      rw [filterMap_cons_some (f := id) rfl, count_cons_of_ne (by simp), length_cons, length_cons, ← ih]
      omega

end LogLake
