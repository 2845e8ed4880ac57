import Mathlib

/-!
# Association lists

Lookup by the first entry of a key, and lists paired up element by element.
-/

namespace AssocList

open List

section Lookup

variable {κ α β : Type*} [BEq κ] [LawfulBEq κ] {l : List (κ × α)} {k : κ}

/-- What a lookup finds is in the list. -/
theorem lookup_mem {a : α} (h : l.lookup k = some a) : (k, a) ∈ l := by
  induction l with
  | nil => cases h
  | cons x l ih =>
    rw [lookup_cons] at h
    split at h
    · rename_i heq
      rw [beq_iff_eq] at heq
      rw [heq, ← Option.some.inj h]
      exact mem_cons_self
    · exact mem_cons_of_mem _ (ih h)

/-- A lookup of a key that is not there finds nothing. -/
theorem lookup_eq_none_of_not_mem (h : k ∉ l.map Prod.fst) : l.lookup k = none := by
  cases hlookup : l.lookup k with
  | none => rfl
  | some a => exact absurd (mem_map.mpr ⟨_, lookup_mem hlookup, rfl⟩) h

omit [LawfulBEq κ] in
/-- A lookup in the list with its values mapped. -/
theorem lookup_map_snd (l : List (κ × α)) (f : α → β) (k : κ) :
    (l.map fun x => (x.1, f x.2)).lookup k = (l.lookup k).map f := by
  induction l with
  | nil => rfl
  | cons x l ih =>
    rw [map_cons, lookup_cons, lookup_cons, ih]
    split <;> rfl

end Lookup

section Pairing

variable {α β γ : Type*} {R : α → β → Prop}

/-- When every element has an image, the images correspond to the elements. -/
theorem forall₂_of_mapM {f : α → Option β} :
    ∀ {l : List α} {l' : List β}, l.mapM f = some l' → List.Forall₂ (fun a b => f a = some b) l l'
  | [], l', h => by
    simp only [mapM_nil] at h
    obtain rfl : ([] : List β) = l' := Option.some.inj h
    exact List.Forall₂.nil
  | a :: l, l', h => by
    simp only [mapM_cons] at h
    obtain ⟨b, hb, hrest⟩ := Option.bind_eq_some_iff.mp h
    obtain ⟨bs, hbs, hl'⟩ := Option.bind_eq_some_iff.mp hrest
    obtain rfl : b :: bs = l' := Option.some.inj hl'
    exact List.Forall₂.cons hb (forall₂_of_mapM hbs)

variable {l : List α} {l' : List β}

/-- Every element on the left has a partner on the right. -/
theorem exists_right_of_forall₂ (h : List.Forall₂ R l l') {a : α} (ha : a ∈ l) : ∃ b ∈ l', R a b := by
  induction h with
  | nil => cases ha
  | cons hab _ ih =>
    rcases mem_cons.mp ha with rfl | ha
    · exact ⟨_, mem_cons_self, hab⟩
    · obtain ⟨b, hb, hr⟩ := ih ha
      exact ⟨b, mem_cons_of_mem _ hb, hr⟩

/-- Related lists have equal images under functions that agree on related elements. -/
theorem map_eq_of_forall₂ {f : α → γ} {g : β → γ} (hR : ∀ a b, R a b → f a = g b)
    (h : List.Forall₂ R l l') : l.map f = l'.map g := by
  induction h with
  | nil => rfl
  | cons hab _ ih => rw [map_cons, map_cons, hR _ _ hab, ih]

/-- A partial map that agrees with a function, where it is defined, is that map. -/
theorem mapM_eq_map {f : α → Option β} {g : α → β} (hf : ∀ a b, f a = some b → b = g a)
    (h : l.mapM f = some l') : l' = l.map g := by
  have hmap := map_eq_of_forall₂ (fun a b hab => (hf a b hab).symm) (forall₂_of_mapM h)
  rw [hmap, map_id']

end Pairing

end AssocList
