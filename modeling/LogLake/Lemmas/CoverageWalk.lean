import LogLake.Aggregates.Expiry

/-! # The walk from the current snapshot -/

namespace LogLake.Expiry

open List Option Nat
open Lineage (table snapshotAt edgeAt)

variable {l : Lineage} {kinds : List CommitKind} {expired expiring : List Int}

/-! ## The metadata -/

theorem mem_snapshots {s : Snapshot} : s ∈ (l.table kinds expired).snapshots ↔
    ∃ p kind, kinds[p]? = some kind ∧ s = l.snapshotAt kind p ∧ l.id p ∉ expired := by
  simp only [table, mem_filter, mem_mapIdx, decide_eq_true_eq]
  constructor
  · rintro ⟨⟨p, hp, rfl⟩, hpresent⟩
    exact ⟨p, kinds[p], List.getElem?_eq_getElem hp, rfl, hpresent⟩
  · rintro ⟨p, kind, hkind, rfl, hpresent⟩
    obtain ⟨hp, rfl⟩ := List.getElem?_eq_some_iff.mp hkind
    exact ⟨⟨p, hp, rfl⟩, hpresent⟩

variable {p : Nat}

theorem find_of_mem_expired (hp : l.id p ∈ expired) : (l.table kinds expired).find (l.id p) = none := by
  rw [Table.find, List.find?_eq_none]
  intro s hs
  obtain ⟨q, kind, -, rfl, hpresent⟩ := mem_snapshots.mp hs
  intro hid
  have hsame : l.id q = l.id p := of_decide_eq_true hid
  exact hpresent (hsame ▸ hp)

theorem find_cases {s : Snapshot} (hfind : (l.table kinds expired).find (l.id p) = some s) :
    ∃ kind, kinds[p]? = some kind ∧ s = l.snapshotAt kind p := by
  obtain ⟨q, kind, hkind, rfl, -⟩ := mem_snapshots.mp (mem_of_find?_eq_some hfind)
  have hmatch := List.find?_some hfind
  have hid : l.id q = l.id p := of_decide_eq_true hmatch
  obtain rfl := l.id_injective q p hid
  exact ⟨kind, hkind, rfl⟩

/-- A commit that has not expired is found. -/
theorem find_eq_some {kind : CommitKind} (hkind : kinds[p]? = some kind) (hp : l.id p ∉ expired) :
    (l.table kinds expired).find (l.id p) = some (l.snapshotAt kind p) := by
  have hmem : l.snapshotAt kind p ∈ (l.table kinds expired).snapshots := mem_snapshots.mpr ⟨p, kind, hkind, rfl, hp⟩
  cases hfind : (l.table kinds expired).find (l.id p) with
  | none => exact absurd (List.find?_eq_none.mp hfind _ hmem) (by simp [snapshotAt])
  | some s =>
    obtain ⟨kind', hkind', rfl⟩ := find_cases hfind
    rw [hkind, some.injEq] at hkind'
    rw [hkind']

variable {last : Nat}

theorem currentSnapshotId_eq (hlast : kinds.length = last + 1) :
    (l.table kinds expired).currentSnapshotId = some (l.id last) := by
  simp [table, hlast]

/-! ## Bridges -/

/-- The commits from `floor` to `top` are in the metadata, and all above `floor` are re-clusters. -/
structure Bridge (l : Lineage) (kinds : List CommitKind) (gone : List Int) (floor top : Nat) : Prop where
  le : floor ≤ top
  lt : top < kinds.length
  recluster : ∀ p, floor < p → p ≤ top → kinds[p]? = some .recluster
  present : ∀ p, floor ≤ p → p ≤ top → l.id p ∉ gone

/-- The walk does not go on below the commit. -/
def Grounded (l : Lineage) (kinds : List CommitKind) (gone : List Int) (floor : Nat) : Prop :=
  floor = 0 ∨ kinds[floor]? = some .append ∨ ∃ below, floor = below + 1 ∧ l.id below ∈ gone

variable {gone : List Int} {floor top : Nat}

theorem Bridge.lower (h : Bridge l kinds gone floor (top + 1)) (hle : floor ≤ top) : Bridge l kinds gone floor top :=
  ⟨hle, lt_of_succ_lt h.lt, fun p hp hpt => h.recluster p hp (by omega), fun p hp hpt => h.present p hp (by omega)⟩

theorem Bridge.append (h : Bridge l kinds gone floor top) (kind : CommitKind) :
    Bridge l (kinds ++ [kind]) gone floor top := by
  refine ⟨h.le, ?_, fun p hp hpt => ?_, h.present⟩
  · have := h.lt
    simp only [length_append, length_singleton]
    omega
  · rw [List.getElem?_append_left (lt_of_le_of_lt hpt h.lt)]
    exact h.recluster p hp hpt

theorem Grounded.append (h : Grounded l kinds gone floor) (hlt : floor < kinds.length)
    (kind : CommitKind) : Grounded l (kinds ++ [kind]) gone floor := by
  rcases h with hzero | happend | hbelow
  · exact .inl hzero
  · exact .inr (.inl (by rw [List.getElem?_append_left hlt]; exact happend))
  · exact .inr (.inr hbelow)

theorem Bridge.length_le (h : Bridge l kinds (expired ++ expiring) floor top) :
    top - floor + 1 ≤ (l.table kinds expired).snapshots.length := by
  have hnodup : ((List.Ico floor (top + 1)).map l.id).Nodup :=
    (List.Ico.nodup floor (top + 1)).map fun p q hid => l.id_injective p q hid
  have hsubset : (List.Ico floor (top + 1)).map l.id ⊆ (l.table kinds expired).snapshots.map Snapshot.id := by
    intro id hid
    obtain ⟨p, hp, rfl⟩ := mem_map.mp hid
    obtain ⟨hle, hlt⟩ := List.Ico.mem.mp hp
    have hp : p < kinds.length := by have := h.lt; omega
    have hpresent := h.present p hle (by omega)
    rw [mem_append, not_or] at hpresent
    exact mem_map.mpr ⟨l.snapshotAt kinds[p] p,
      mem_snapshots.mpr ⟨p, kinds[p], List.getElem?_eq_getElem hp, rfl, hpresent.1⟩, rfl⟩
  have hlength := (subperm_of_subset hnodup hsubset).length_le
  have hle := h.le
  simp only [length_map, List.Ico.length] at hlength
  omega

theorem Bridge.found (h : Bridge l kinds (expired ++ expiring) floor top) :
    l.id top ∉ expiring ∧ ∃ kind, kinds[top]? = some kind ∧
      (l.table kinds expired).find (l.id top) = some (l.snapshotAt kind top) := by
  have hpresent := h.present top h.le (le_refl top)
  rw [mem_append, not_or] at hpresent
  have hkind := List.getElem?_eq_getElem h.lt
  exact ⟨hpresent.2, _, hkind, find_eq_some hkind hpresent.1⟩

theorem summary_append : rowConservingRecluster CommitKind.append.summary = false := by decide

theorem summary_recluster : rowConservingRecluster CommitKind.recluster.summary = true := by decide +kernel

theorem coverageRootFrom_gone (hp : l.id p ∈ expired ++ expiring) (turns : Nat) (deepest : Option Int) :
    (l.table kinds expired).coverageRootFrom expiring (turns + 1) (l.id p) deepest = deepest := by
  rw [Table.coverageRootFrom]
  split
  · rfl
  · rename_i hexpiring
    rw [find_of_mem_expired ((mem_append.mp hp).resolve_right hexpiring)]

section

variable (h : Bridge l kinds (expired ++ expiring) floor top)
include h

theorem Bridge.coverageRootFrom
    (hground : Grounded l kinds (expired ++ expiring) floor) {turns : Nat} (hturns : top - floor + 2 ≤ turns)
    (deepest : Option Int) :
    (l.table kinds expired).coverageRootFrom expiring turns (l.id top) deepest = some (l.id floor) := by
  induction top generalizing turns deepest with
  | zero =>
    obtain ⟨turns, rfl⟩ : ∃ n, turns = n + 1 := ⟨turns - 1, by omega⟩
    obtain ⟨hexpiring, kind, -, hfind⟩ := h.found
    have hfloor : floor = 0 := le_zero.mp h.le
    rw [Table.coverageRootFrom, if_neg hexpiring, hfind, hfloor]
    exact ite_self _
  | succ top ih =>
    obtain ⟨turns, rfl⟩ : ∃ n, turns = n + 1 := ⟨turns - 1, by omega⟩
    obtain ⟨hexpiring, kind, hkind, hfind⟩ := h.found
    rw [Table.coverageRootFrom, if_neg hexpiring, hfind]
    dsimp only [snapshotAt]
    by_cases hfloor : floor = top + 1
    · subst hfloor
      cases kind with
      | append => rw [if_neg (by rw [summary_append]; exact Bool.false_ne_true)]
      | recluster =>
        rw [if_pos summary_recluster]
        rcases hground with hzero | happend | ⟨below, hbelow, hgone⟩
        · omega
        · rw [hkind] at happend
          cases happend
        · obtain rfl : top = below := by omega
          obtain ⟨turns, rfl⟩ : ∃ n, turns = n + 1 := ⟨turns - 1, by omega⟩
          exact coverageRootFrom_gone hgone turns _
    · have hle := h.le
      have hrecluster := h.recluster (top + 1) (by omega) (le_refl _)
      rw [hkind, some.injEq] at hrecluster
      rw [hrecluster, if_pos summary_recluster]
      exact ih (h.lower (by omega)) (by omega) _

theorem Bridge.root (hground : Grounded l kinds (expired ++ expiring) floor) :
    aggregateCoverageRoot (l.table kinds expired) (some (l.id top)) expiring = some (l.id floor) :=
  h.coverageRootFrom hground (by have := h.length_le; omega) none

theorem Bridge.coversFrom {turns : Nat} (hturns : top - floor + 1 ≤ turns) :
    (l.table kinds expired).coversFrom (l.edgeAt floor) expiring turns (l.id top) = true := by
  induction top generalizing turns with
  | zero =>
    obtain ⟨turns, rfl⟩ : ∃ n, turns = n + 1 := ⟨turns - 1, by omega⟩
    obtain ⟨hexpiring, kind, -, hfind⟩ := h.found
    have hfloor : floor = 0 := le_zero.mp h.le
    rw [Table.coversFrom, if_neg hexpiring, hfind, hfloor]
    simp [edgeAt, snapshotAt]
  | succ top ih =>
    obtain ⟨turns, rfl⟩ : ∃ n, turns = n + 1 := ⟨turns - 1, by omega⟩
    obtain ⟨hexpiring, kind, hkind, hfind⟩ := h.found
    rw [Table.coversFrom, if_neg hexpiring, hfind]
    by_cases hfloor : floor = top + 1
    · subst hfloor
      simp [edgeAt, snapshotAt]
    · have hle := h.le
      have hrecluster := h.recluster (top + 1) (by omega) (le_refl _)
      rw [hkind, some.injEq] at hrecluster
      have hne : l.id (top + 1) ≠ (l.edgeAt floor).snapshotId := fun hid => hfloor (l.id_injective _ _ hid).symm
      rw [if_neg hne]
      dsimp only [snapshotAt]
      rw [hrecluster, if_pos summary_recluster]
      exact ih (h.lower (by omega)) (by omega)

end

/-- Coverage carries over re-clusters to the current snapshot. -/
theorem Bridge.covers (h : Bridge l kinds (expired ++ expiring) floor last) (hlast : kinds.length = last + 1) :
    aggregateCoversCurrentSnapshotExcluding (l.table kinds expired) (some (l.edgeAt floor)) expiring = true := by
  simp only [aggregateCoversCurrentSnapshotExcluding, currentSnapshotId_eq hlast]
  exact h.coversFrom (by have := h.length_le; omega)

theorem coversFrom_expiring (hfloor : floor ≤ p) (hp : l.id p ∈ expiring) (turns : Nat) {q : Nat}
    (hq : p ≤ q) : (l.table kinds expired).coversFrom (l.edgeAt floor) expiring turns (l.id q) = false := by
  induction turns generalizing q with
  | zero => rfl
  | succ turns ih =>
    rw [Table.coversFrom]
    split
    · rfl
    · rename_i hexpiring
      have hlt : p < q := lt_of_le_of_ne hq fun heq => hexpiring (heq ▸ hp)
      have hne : l.id q ≠ (l.edgeAt floor).snapshotId := fun hid => by
        have := l.id_injective _ _ hid
        omega
      rw [if_neg hne]
      cases hfind : (l.table kinds expired).find (l.id q) with
      | none => rfl
      | some s =>
        obtain ⟨kind, -, rfl⟩ := find_cases hfind
        obtain ⟨below, rfl⟩ : ∃ n, q = n + 1 := ⟨q - 1, by omega⟩
        dsimp only [snapshotAt]
        split
        · exact ih (by omega)
        · rfl

theorem coversFrom_spares (hspares : l.Spares kinds expiring) (coverage : AggregateCoverage) (turns : Nat) {q : Nat}
    (hq : q < kinds.length) (hreached : ∀ r < kinds.length, q < r → kinds[r]? = some .recluster) :
    (l.table kinds []).coversFrom coverage expiring turns (l.id q) =
      (l.table kinds []).coversFrom coverage [] turns (l.id q) := by
  induction turns generalizing q with
  | zero => rfl
  | succ turns ih =>
    have hkind := List.getElem?_eq_getElem hq
    have hfind : (l.table kinds []).find (l.id q) = some (l.snapshotAt kinds[q] q) := find_eq_some hkind not_mem_nil
    rw [Table.coversFrom, Table.coversFrom, if_neg (hspares q hq hreached), if_neg not_mem_nil, hfind]
    dsimp only [snapshotAt]
    cases hk : kinds[q] with
    | append => simp only [summary_append, Bool.false_eq_true, if_false]
    | recluster =>
      cases q with
      | zero => rfl
      | succ below =>
        have hbelow : ∀ r < kinds.length, below < r → kinds[r]? = some .recluster := by
          intro r hr hlt
          rcases lt_or_eq_of_le (succ_le_of_lt hlt) with hlt | rfl
          · exact hreached r hr hlt
          · rw [hkind, hk]
        simp only [ih (by omega) hbelow]

/-! ## What the expiry decides -/

variable {κ : Type} {existing : Option (SnapshotAggregates κ)}

/-- An expiry that spares the covered commits needs no new root. -/
theorem reroot_of_spares (hspares : l.Spares kinds expiring) :
    coverageRerootForExpiry (l.table kinds []) expiring existing = none := by
  cases hlength : kinds.length with
  | zero => simp [coverageRerootForExpiry, Table.currentSnapshot, table, hlength]
  | succ last =>
    have hsame : ∀ proven, aggregateCoversCurrentSnapshotExcluding (l.table kinds []) (some proven) expiring =
        aggregateCoversCurrentSnapshot (l.table kinds []) (some proven) := by
      intro proven
      simp only [aggregateCoversCurrentSnapshot, aggregateCoversCurrentSnapshotExcluding, currentSnapshotId_eq hlength]
      exact coversFrom_spares hspares proven _ (by omega) (fun r hr hlt => by omega)
    rw [coverageRerootForExpiry, bind_eq_none_iff]
    intro current _
    rw [bind_eq_none_iff]
    intro proven _
    rw [hsame]
    cases aggregateCoversCurrentSnapshot (l.table kinds []) (some proven) <;> rfl

theorem exists_survivor (hle : p ≤ last) (hp : l.id p ∈ expiring) (hlast : l.id last ∉ expiring) :
    ∃ below, p ≤ below ∧ below < last ∧ l.id below ∈ expiring ∧ ∀ q, below < q → q ≤ last → l.id q ∉ expiring := by
  induction last, hle using le_induction with
  | base => exact absurd hp hlast
  | succ last hle ih =>
    by_cases hgone : l.id last ∈ expiring
    · refine ⟨last, hle, lt_succ_self last, hgone, fun q hlt hq => ?_⟩
      obtain rfl : q = last + 1 := by omega
      exact hlast
    · obtain ⟨below, hp', hlt, hbelow, hstay⟩ := ih hgone
      refine ⟨below, hp', by omega, hbelow, fun q hq hql => ?_⟩
      rcases lt_or_eq_of_le hql with hql | rfl
      · exact hstay q hq (by omega)
      · exact hlast

/-- An expiry that takes the covered commit has the oldest survivor as the new root. -/
theorem reroot_of_expiring (hbridge : Bridge l kinds [] floor last) (hlast : kinds.length = last + 1)
    (hcurrent : l.id last ∉ expiring) (hproven : existing.bind SnapshotAggregates.coverage = some (l.edgeAt floor))
    (hfloor : floor ≤ p) (hle : p ≤ last) (hp : l.id p ∈ expiring) :
    ∃ t, floor < t ∧ Bridge l kinds expiring t last ∧ Grounded l kinds expiring t ∧
      coverageRerootForExpiry (l.table kinds []) expiring existing = some (l.edgeAt floor, l.edgeAt t) := by
  obtain ⟨below, hpb, hlt, hgone, hstay⟩ := exists_survivor hle hp hcurrent
  have hsurvives : Bridge l kinds expiring (below + 1) last :=
    ⟨hlt, hbridge.lt, fun q hq hql => hbridge.recluster q (by omega) hql, fun q hq hql => hstay q hq hql⟩
  have hground : Grounded l kinds expiring (below + 1) := .inr (.inr ⟨below, rfl, hgone⟩)
  refine ⟨below + 1, by omega, hsurvives, hground, ?_⟩
  have hcovers : aggregateCoversCurrentSnapshot (l.table kinds []) (some (l.edgeAt floor)) = true :=
    (show Bridge l kinds ([] ++ []) floor last from hbridge).covers hlast
  have hexcluding : aggregateCoversCurrentSnapshotExcluding (l.table kinds []) (some (l.edgeAt floor)) expiring = false := by
    simp only [aggregateCoversCurrentSnapshotExcluding, currentSnapshotId_eq hlast]
    exact coversFrom_expiring hfloor hp _ hle
  have hroot : aggregateCoverageRoot (l.table kinds []) (some (l.id last)) expiring = some (l.id (below + 1)) :=
    Bridge.root (by simpa using hsurvives) (by simpa using hground)
  have hfind : ∀ q < kinds.length, ∃ kind, (l.table kinds []).find (l.id q) = some (l.snapshotAt kind q) :=
    fun q hq => ⟨kinds[q], find_eq_some (List.getElem?_eq_getElem hq) not_mem_nil⟩
  obtain ⟨currentKind, hfindCurrent⟩ := hfind last (by omega)
  obtain ⟨targetKind, hfindTarget⟩ := hfind (below + 1) (by omega)
  have hedge : coverageEdgeAt (l.table kinds []) (l.id (below + 1)) = some (l.edgeAt (below + 1)) := by
    rw [coverageEdgeAt, hfindTarget]
    rfl
  have hne : l.edgeAt (below + 1) ≠ l.edgeAt floor := by
    intro heq
    have := l.id_injective _ _ (congrArg AggregateCoverage.snapshotId heq)
    omega
  rw [coverageRerootForExpiry, Table.currentSnapshot, currentSnapshotId_eq hlast, bind_some, hfindCurrent,
    bind_some, hproven, bind_some, if_neg (by rw [hcovers]; exact Bool.true_eq_false.mp),
    if_neg (by rw [hexcluding]; exact Bool.false_ne_true)]
  dsimp only [snapshotAt]
  rw [hroot, bind_some, hedge, bind_some, if_pos hne]

/-! ## The link of an append -/

theorem appendCoverageLink_eq (hnew : l.id kinds.length ∉ gone) : appendCoverageLink (l.table (kinds ++ [.append]) gone) =
      some ⟨aggregateCoverageRoot (l.table (kinds ++ [.append]) gone) (l.snapshotAt .append kinds.length).parent [],
        l.id kinds.length, l.sequenceNumber kinds.length⟩ := by
  have hlast : (kinds ++ [CommitKind.append]).length = kinds.length + 1 := length_append
  have hkind : (kinds ++ [CommitKind.append])[kinds.length]? = some .append := List.getElem?_concat_length
  rw [appendCoverageLink, Table.currentSnapshot, currentSnapshotId_eq hlast, bind_some, find_eq_some hkind hnew]
  rfl

theorem appendCoverageLink_bridge (hbridge : Bridge l kinds gone floor last)
    (hground : Grounded l kinds gone floor) (hlast : kinds.length = last + 1) (hnew : l.id kinds.length ∉ gone) :
    appendCoverageLink (l.table (kinds ++ [.append]) gone) =
      some ⟨some (l.id floor), l.id kinds.length, l.sequenceNumber kinds.length⟩ := by
  have hfloor : floor < kinds.length := lt_of_le_of_lt hbridge.le hbridge.lt
  have hparent : (l.snapshotAt .append kinds.length).parent = some (l.id last) := by simp [snapshotAt, hlast]
  have hbridge' : Bridge l (kinds ++ [.append]) (gone ++ []) floor last := by simpa using hbridge.append .append
  have hground' : Grounded l (kinds ++ [.append]) (gone ++ []) floor := by simpa using hground.append hfloor .append
  have hroot := hbridge'.root hground'
  rw [appendCoverageLink_eq hnew, hparent, hroot]

end LogLake.Expiry
