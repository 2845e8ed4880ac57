import Mathlib

/-!
# Bloom filters as sets of positions

A Bloom filter is a set of marked positions and a family of probes that sends every key to the
positions it occupies.
-/

namespace BloomFilter

variable {κ : Type*} (probes : κ → List Nat) (marked : Set Nat)

/-- A key may be present when all its positions are marked. -/
def Maybe (key : κ) : Prop := ∀ p ∈ probes key, p ∈ marked

def insert (key : κ) : Set Nat := marked ∪ {p | p ∈ probes key}

/-- The marked positions after inserting every key of a list, in order. -/
def insertAll (keys : List κ) : Set Nat := keys.foldl (insert probes) marked

/-- A bit is marked that was marked before or is probed by an inserted key. -/
theorem mem_insertAll {marked : Set Nat} {keys : List κ} {p : Nat} :
    p ∈ insertAll probes marked keys ↔ p ∈ marked ∨ ∃ key ∈ keys, p ∈ probes key := by
  induction keys generalizing marked with
  | nil => simp [insertAll]
  | cons key keys ih =>
    change p ∈ insertAll probes (insert probes marked key) keys ↔ _
    rw [ih]
    simp only [insert, Set.mem_union, Set.mem_ofPred_eq, List.mem_cons, exists_eq_or_imp, or_assoc]

/-- An inserted key is never denied. -/
theorem maybe_insertAll {marked : Set Nat} {keys : List κ} {key : κ} (h : key ∈ keys) :
    Maybe probes (insertAll probes marked keys) key :=
  fun _ hp => (mem_insertAll probes).mpr (Or.inr ⟨key, h, hp⟩)

end BloomFilter
