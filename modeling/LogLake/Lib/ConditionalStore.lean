import Mathlib

/-!
# An object behind conditional writes

An object in a store has a version.
-/

/-- The object, absent before the first write; its version; the writes sent, each with the version it is conditional on. -/
structure ConditionalStore (α ω : Type) where
  object : Option α
  version : Nat
  sent : List (Nat × ω)

namespace ConditionalStore

variable {α ω : Type}

def init (object : Option α) : ConditionalStore α ω := ⟨object, 0, []⟩

def sendAt (s : ConditionalStore α ω) (version : Nat) (w : ω) : ConditionalStore α ω :=
  { s with sent := s.sent ++ [(version, w)] }

def send (s : ConditionalStore α ω) (w : ω) : ConditionalStore α ω := s.sendAt s.version w

/-- A write that was sent reaches the store and its condition is met: the object becomes its body. -/
def land (body : ω → α) (s : ConditionalStore α ω) (pos : Nat) : Option (ω × ConditionalStore α ω) :=
  (s.sent[pos]?).bind fun w =>
    if w.1 = s.version then some (w.2, { s with object := some (body w.2), version := s.version + 1 }) else none

/-- What the writers of the writes that can still be applied know of the object. -/
def Current (known : Option α → ω → Prop) (s : ConditionalStore α ω) : Prop :=
  ∀ w ∈ s.sent, w.1 ≤ s.version ∧ (w.1 = s.version → known s.object w.2)

variable {known : Option α → ω → Prop} {s s' : ConditionalStore α ω}

/-- Nothing is under way at the start. -/
theorem current_init (object : Option α) : Current known (init object) := by
  simp [Current, init]

variable {known' : Option α → ω → Prop}

/-- What is known of a write may be weakened. -/
theorem Current.imp (h : Current known s) (himp : ∀ object w, known object w → known' object w) : Current known' s :=
  fun w hw => ⟨(h w hw).1, fun hcurrent => himp _ _ ((h w hw).2 hcurrent)⟩

variable {w : ω}

section

variable (h : Current known s)
include h

/-- A write made for the present version is known of; for an older one nothing is asked. -/
theorem Current.sendAt {version : Nat} (hle : version ≤ s.version)
    (hw : version = s.version → known s.object w) : Current known (s.sendAt version w) := by
  intro w' hw'
  rcases List.mem_append.mp hw' with hw' | hw'
  · exact h w' hw'
  · obtain rfl := List.mem_singleton.mp hw'
    exact ⟨hle, hw⟩

/-- A write made for the present version joins those under way. -/
theorem Current.send (hw : known s.object w) : Current known (s.send w) :=
  h.sendAt (Nat.le_refl _) fun _ => hw

/-- Once a write has landed, every other one is too late. -/
theorem Current.landed {body : ω → α} {pos : Nat} (hland : s.land body pos = some (w, s')) : Current known' s' := by
  obtain ⟨⟨v, w'⟩, hw, hland⟩ := Option.bind_eq_some_iff.mp hland
  obtain ⟨rfl, hland⟩ := Option.ite_none_right_eq_some.mp hland
  cases hland
  intro w' hw'
  have hold := (h w' hw').1
  refine ⟨Nat.le_succ_of_le hold, fun hnew => absurd hnew ?_⟩
  dsimp only
  omega

/-- Only a write for the present version lands. -/
theorem Current.land {body : ω → α} {pos : Nat} (hland : s.land body pos = some (w, s')) :
    known s.object w ∧ s'.object = some (body w) ∧ s'.version = s.version + 1 ∧ Current known s' := by
  have hlanded : Current known s' := h.landed hland
  obtain ⟨⟨v, w'⟩, hw, hland⟩ := Option.bind_eq_some_iff.mp hland
  obtain ⟨rfl, hland⟩ := Option.ite_none_right_eq_some.mp hland
  cases hland
  exact ⟨(h _ (List.mem_of_getElem? hw)).2 rfl, rfl, rfl, hlanded⟩

end

end ConditionalStore
