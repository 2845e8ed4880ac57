import Mathlib

/-!
# Overlap of time bounds

`overlap_depth_and_stab`: how many files overlap at one instant, by a sweep over the ends of their bounds.
-/

namespace LogLake.Overlap

open List

/-- The time bounds of a file, both included; times are 64-bit. -/
structure Interval where
  lo : Int
  hi : Int
  le : lo ≤ hi
  inRange : hi < 2 ^ 63

/-- `hi.saturating_add(1)`. -/
def Interval.release (b : Interval) : Int := min (b.hi + 1) (2 ^ 63 - 1)

/-- An end of an interval, and what it adds to the depth. -/
structure Event where
  time : Int
  delta : Int

def events (bounds : List Interval) : List Event := bounds.flatMap fun b => [⟨b.lo, 1⟩, ⟨b.release, -1⟩]

/-- The order of `sort_by_key`: by time, and starts before ends. -/
def Event.Before (a b : Event) : Prop := a.time < b.time ∨ a.time = b.time ∧ b.delta ≤ a.delta

instance (a b : Event) : Decidable (a.Before b) := inferInstanceAs (Decidable (_ ∨ _ ∧ _))

structure Sweep where
  depth : Int
  best : Int
  bestAt : Int

def Sweep.next (s : Sweep) (e : Event) : Sweep :=
  if s.depth + e.delta > s.best then ⟨s.depth + e.delta, s.depth + e.delta, e.time⟩ else { s with depth := s.depth + e.delta }

def sweep (events : List Event) : Sweep := events.foldl Sweep.next ⟨0, 0, 0⟩

def overlapDepthAndStab (bounds : List Interval) : Nat × Int :=
  let s := sweep ((events bounds).insertionSort Event.Before)
  (s.best.toNat, s.bestAt)

end LogLake.Overlap
