import Mathlib

/-!
# Kleene's three-valued logic

Truth values are `Option Bool`: `none` is the unknown value.
-/

namespace Kleene

def and : Option Bool → Option Bool → Option Bool
  | some false, _ => some false
  | _, some false => some false
  | some true, some true => some true
  | _, _ => none

def or : Option Bool → Option Bool → Option Bool
  | some true, _ => some true
  | _, some true => some true
  | some false, some false => some false
  | _, _ => none

def not (a : Option Bool) : Option Bool := a.map Bool.not

/-- Disjunction of a list, false when the list is empty. -/
def any (l : List (Option Bool)) : Option Bool := l.foldr or (some false)

variable {a b : Option Bool}

@[simp] theorem and_eq_true : and a b = some true ↔ a = some true ∧ b = some true := by
  rcases a with _ | _ | _ <;> rcases b with _ | _ | _ <;> decide

@[simp] theorem and_eq_false : and a b = some false ↔ a = some false ∨ b = some false := by
  rcases a with _ | _ | _ <;> rcases b with _ | _ | _ <;> decide

@[simp] theorem or_eq_true : or a b = some true ↔ a = some true ∨ b = some true := by
  rcases a with _ | _ | _ <;> rcases b with _ | _ | _ <;> decide

@[simp] theorem or_eq_false : or a b = some false ↔ a = some false ∧ b = some false := by
  rcases a with _ | _ | _ <;> rcases b with _ | _ | _ <;> decide

/-- A negation is true when its argument is false, not when it is unknown. -/
@[simp] theorem not_eq_true : not a = some true ↔ a = some false := by
  rcases a with _ | _ | _ <;> decide

@[simp] theorem not_eq_false : not a = some false ↔ a = some true := by
  rcases a with _ | _ | _ <;> decide

/-- A disjunction of a list is true when a member is. -/
@[simp] theorem any_eq_true {l : List (Option Bool)} : any l = some true ↔ some true ∈ l := by
  induction l with
  | nil => simp [any]
  | cons a l ih =>
    have hstep : any (a :: l) = or a (any l) := rfl
    rw [hstep, or_eq_true, ih, List.mem_cons, eq_comm (a := a)]

/-- Without an unknown the disjunction is the two-valued one. -/
theorem any_map_some {α : Type*} (f : α → Bool) (l : List α) : any (l.map fun a => some (f a)) = some (l.any f) := by
  induction l with
  | nil => rfl
  | cons a l ih =>
    have hstep : any ((a :: l).map fun a => some (f a)) = or (some (f a)) (any (l.map fun a => some (f a))) := rfl
    rw [hstep, ih, List.any_cons]
    cases f a <;> cases l.any f <;> rfl

/-- A disjunction of unknowns is unknown. -/
theorem any_map_none {α : Type*} {l : List α} (h : l ≠ []) : any (l.map fun _ => (none : Option Bool)) = none := by
  induction l with
  | nil => exact absurd rfl h
  | cons a l ih =>
    have hstep : any ((a :: l).map fun _ => (none : Option Bool)) = or none (any (l.map fun _ => none)) := rfl
    rw [hstep]
    cases l with
    | nil => rfl
    | cons b l => rw [ih (List.cons_ne_nil b l)]; rfl

end Kleene
