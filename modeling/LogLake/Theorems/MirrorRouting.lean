import LogLake.Lemmas.MirrorKeys

/-! # Mirror routing -/

namespace LogLake.Mirror

open Option

variable {tenant index stem mirrorPrefix : Text}

section

variable (haccepted : Accepted tenant index)
include haccepted

theorem readsBack_of_not_active (hstem : '/' ∉ stem) (hparts : activeDir ∉ prefixParts mirrorPrefix) (htenant : tenant ≠ activeDir) :
    ReadsBack mirrorPrefix tenant index stem where
  parsed := parseMirrorKeySuffix_lane haccepted hstem
  synced bytes := by
    rw [mirrorSyncObject_sealedKey haccepted hstem, if_pos ⟨hparts, htenant⟩]
    rfl
  recovered := recoverPath_sealedKey haccepted hstem htenant mirrorPrefix
  activeNotSynced :=
    ⟨_, activeKey_eq haccepted hstem mirrorPrefix,
      mirrorSyncObject_activeKey haccepted hstem (activeKey_eq haccepted hstem mirrorPrefix)⟩
  activeRecovered := recoverPath_activeKey haccepted hstem mirrorPrefix

theorem ReadsBack.not_active (hstem : '/' ∉ stem) (h : ReadsBack mirrorPrefix tenant index stem) :
    activeDir ∉ prefixParts mirrorPrefix ∧ tenant ≠ activeDir := by
  by_contra hactive
  have hsynced := h.synced 0
  rw [mirrorSyncObject_sealedKey haccepted hstem, if_neg hactive] at hsynced
  cases hsynced

theorem eq_of_mem_routes (hstem : '/' ∉ stem) (htenant : tenant ≠ activeDir) {bytes : UInt64} {route : Text × Text}
    (hroute : route ∈ routes mirrorPrefix tenant index stem bytes) : route = (tenant, laneIndexId index) := by
  have hsealed := recoverPath_sealedKey haccepted hstem htenant mirrorPrefix
  have hactive := recoverPath_activeKey haccepted hstem mirrorPrefix
  unfold routes at hroute
  simp only [List.mem_cons, List.mem_append, mem_toList, map_eq_some_iff, bind_eq_some_iff] at hroute
  rcases hroute with hparsed | (⟨object, hobject, rfl⟩ | ⟨target, htarget, rfl⟩) | ⟨key, hkey, target, htarget, rfl⟩
  · rw [hparsed, parseMirrorKeySuffix_lane haccepted hstem]
  · rw [mirrorSyncObject_sealedKey haccepted hstem] at hobject
    split at hobject
    · rw [← some.inj hobject]
    · cases hobject
  · rw [htarget] at hsealed
    simp only [map_some, RecoveryTarget.route, some.injEq, Prod.mk.injEq] at hsealed
    rw [hsealed.1, hsealed.2.1]
    rfl
  · rw [hkey, bind_some, htarget] at hactive
    simp only [map_some, RecoveryTarget.route, some.injEq, Prod.mk.injEq] at hactive
    rw [hactive.1, hactive.2.1]
    rfl

end

theorem laneIndexId_injective {tenant' index' : Text} (h : Accepted tenant index)
    (h' : Accepted tenant' index') (heq : laneIndexId index = laneIndexId index') : index = index' := by
  have hne := h.part_index.1.ne_nil
  have hne' := h'.part_index.1.ne_nil
  unfold laneIndexId laneIndex at heq
  split at heq <;> split at heq
  · next hevents hevents' => rw [eq_of_beq hevents, eq_of_beq hevents']
  · exact absurd heq.symm hne'
  · exact absurd heq hne
  · exact heq

/-- For every prefix, every accepted tenant and index and every file name a writer produces, the readers give
the tenant and the index back if and only if the name `_active` is neither the tenant's nor in the prefix; and two lanes of
tenants with other names that share a route of some reader are one lane. -/
theorem mirrorKeys_readBack_iff {mirrorPrefix tenant index stem : Text} (haccepted : Accepted tenant index)
    (hstem : '/' ∉ stem) :
    (ReadsBack mirrorPrefix tenant index stem ↔ activeDir ∉ prefixParts mirrorPrefix ∧ tenant ≠ activeDir) ∧
    (∀ bytes mirrorPrefix' tenant' index' stem' bytes',
      Accepted tenant' index' → '/' ∉ stem' → tenant ≠ activeDir → tenant' ≠ activeDir →
      ∀ route ∈ routes mirrorPrefix tenant index stem bytes, route ∈ routes mirrorPrefix' tenant' index' stem' bytes' →
        tenant = tenant' ∧ index = index') := by
  constructor
  · exact ⟨ReadsBack.not_active haccepted hstem, fun h => readsBack_of_not_active haccepted hstem h.1 h.2⟩
  · intro bytes mirrorPrefix' tenant' index' stem' bytes' haccepted' hstem' hne hne' route hroute hroute'
    have heq := eq_of_mem_routes haccepted hstem hne hroute
    rw [eq_of_mem_routes haccepted' hstem' hne' hroute', Prod.mk.injEq] at heq
    exact ⟨heq.1.symm, laneIndexId_injective haccepted haccepted' heq.2.symm⟩

theorem accepted_acme (h : validateIndexId index = .ok ()) : Accepted "acme".toList index :=
  ⟨⟨" acme".toList, by decide +kernel⟩, Or.inl h⟩

/-- The keys of one index, which share no route with those of the events of its tenant. -/
theorem ordersOfAcme_readBack :
    Accepted "acme".toList "orders".toList ∧
    ReadsBack "/wal/".toList "acme".toList "orders".toList "node-1".toList ∧
    ∀ route ∈ routes "/wal/".toList "acme".toList "orders".toList "node-1".toList 7,
      route ∉ routes "/wal/".toList "acme".toList eventsIndexId "node-1".toList 7 := by
  have horders : Accepted "acme".toList "orders".toList := accepted_acme (by decide +kernel)
  have hevents : Accepted "acme".toList eventsIndexId := accepted_acme (by decide +kernel)
  refine ⟨horders, ?_, ?_⟩
  · exact (mirrorKeys_readBack_iff horders (by decide)).1.mpr ⟨by decide +kernel, by decide⟩
  · intro route hroute hroute'
    have heq := (mirrorKeys_readBack_iff horders (by decide)).2 _ _ _ _ _ _ hevents (by decide) (by decide) (by decide)
      route hroute hroute'
    exact absurd heq.2 (by decide)

/-- A tenant may be called `_active`. The sealed segments of its index `orders` are restored as partial segments of the
events of a tenant called `orders`, to where that tenant's own snapshots go, and the catalog never hears about them. Under a
prefix that ends in `_active` it never hears about any segment. The reader of uploads takes the suffix of a snapshot for a
lane of a tenant `_active`. -/
theorem activeTenant_restored_elsewhere :
    Accepted "_active".toList "orders".toList ∧ Accepted "orders".toList eventsIndexId ∧
    mirrorSyncObject (sealedKey "wal".toList "_active".toList "orders".toList "n".toList) 7 "wal".toList = none ∧
    recoverPath "wal".toList (sealedKey "wal".toList "_active".toList "orders".toList "n".toList) =
      some { tenant := "orders".toList
             index := none
             rel := ["orders".toList, "sealed".toList, "n.arrow".toList]
             discovery := none
             stem := "n".toList
             isPartial := true } ∧
    (activeKey "wal".toList "orders".toList eventsIndexId "n".toList).bind (recoverPath "wal".toList) =
      recoverPath "wal".toList (sealedKey "wal".toList "_active".toList "orders".toList "n".toList) ∧
    mirrorSyncObject (sealedKey "wal/_active".toList "orders".toList eventsIndexId "n".toList) 7 "wal/_active".toList = none ∧
    (activePartialSuffix (mirrorKeySuffix "orders".toList eventsIndexId "n".toList)).map parseMirrorKeySuffix =
      some ("_active".toList, "orders".toList) := by
  refine ⟨⟨⟨"_active".toList, ?_⟩, Or.inl ?_⟩, ⟨⟨"orders".toList, ?_⟩, Or.inr rfl⟩, ?_, ?_, ?_, ?_, ?_⟩
  all_goals decide +kernel

end LogLake.Mirror
